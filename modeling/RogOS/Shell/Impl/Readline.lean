import RogOS.Shell.Impl.WashPath

/-!
`readline` of `shell.c`: the memory, the keys that were typed and not read yet, and what was given
out.
-/

namespace RogOS

inductive Output where
  | putchar (c : UInt8)
  | clear
  | printf (format : String) (args : List (List UInt8))
  deriving DecidableEq

structure Tty where
  mem : Mem
  keys : List UInt8
  out : List Output

abbrev TtyM := Cmd Fault Tty

namespace Tty

def store (pos : Nat) (c : UInt8)
    : TtyM Unit := modify fun t => { t with mem := Function.update t.mem pos c }

def emit (o : Output) : TtyM Unit := modify fun t => { t with out := t.out ++ [o] }

def string (a : Nat) : TtyM (List UInt8) := do
  let t ← get
  pure (t.mem.chars a addressSpace)

def read (pos : Nat) : TtyM Int := do
  let t ← get
  match t.keys with
  | [] => throw .hang
  | key :: keys => do
    set { t with mem := Function.update t.mem pos key, keys := keys }
    pure 1

def printPrompt (cwdCache : Nat) : TtyM Unit := do
  let cwd ← string cwdCache
  emit (.printf "[rog@localhost %s]$ " [cwd])

def readline.erase (buf : Nat) : (fuel : Nat) → (pos : Nat) → TtyM Nat
  | 0, _ => throw .hang
  | fuel + 1, pos =>
    if buf ≠ pos then do
      emit (.putchar 8)
      store pos 0
      erase buf fuel (pos - 1)
    else
      pure pos

def readline.go (cmdLine cwdCache buf : Nat) (count : Int) : (fuel : Nat) → (pos : Nat) → TtyM Unit
  | 0, _ => throw .hang
  | fuel + 1, pos => do
    let ret ← read pos
    let t ← get
    if ret ≠ -1 ∧ (pos : Int) - buf < count then
      match t.mem pos with
      | 10 | 13 => do
        store pos 0
        emit (.putchar 10)
      | 8 =>
        if t.mem cmdLine ≠ 8 then do
          emit (.putchar 8)
          go cmdLine cwdCache buf count fuel (pos - 1)
        else
          go cmdLine cwdCache buf count fuel pos
      -- ctrl+l
      | 11 => do
        store pos 0
        emit .clear
        printPrompt cwdCache
        let line ← string buf
        emit (.printf "%s" [line])
        go cmdLine cwdCache buf count fuel pos
      -- ctrl+u
      | 20 => do
        let pos ← readline.erase buf addressSpace pos
        go cmdLine cwdCache buf count fuel pos
      | c => do
        emit (.putchar c)
        go cmdLine cwdCache buf count fuel (pos + 1)
    else
      emit (.printf "readline: can`t find enter_key in the cmd_line, max num of char is 128\n" [])

def readline (cmdLine cwdCache buf : Nat) (count : Int) : TtyM Unit := do
  Cmd.assert .panic (buf ≠ 0 ∧ 0 < count)
  let t ← get
  readline.go cmdLine cwdCache buf count (t.keys.length + 1) buf

end Tty

end RogOS
