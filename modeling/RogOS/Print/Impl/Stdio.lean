import RogOS.Shell.Impl.WashPath

/-!
`itoa`, `vsprintf` and `sprintf` of `stdio.c` on the memory. The argument list is a row of words,
and `va_arg` goes to the next word before it reads it.
-/

namespace RogOS

namespace Ptr

def itoa : (calls : Nat) → (value : UInt32) → (bufPtr : Nat) → (base : UInt8) → ShellM Nat
  | 0, _, _, _ => throw .overrun
  | calls + 1, value, bufPtr, base => do
    Cmd.assert .panic (base ≠ 0)
    let m := value % base.toUInt32
    let q := value / base.toUInt32
    let bufPtr ← if q ≠ 0 then itoa calls q bufPtr base else pure bufPtr
    store bufPtr (if m < 10 then m + 48 else m - 10 + 65).toUInt8
    pure (bufPtr + 1)

def strcpy.go : (fuel : Nat) → (dst src : Nat) → ShellM Unit
  | 0, _, _ => throw .hang
  | fuel + 1, dst, src => do
    let m ← get
    store dst (m src)
    if m src ≠ 0 then
      go fuel (dst + 1) (src + 1)

def strcpy (dst src : Nat) : ShellM Unit := do
  Cmd.assert .panic (dst ≠ 0 ∧ src ≠ 0)
  strcpy.go addressSpace dst src

def strlen.go : (fuel : Nat) → (p : Nat) → ShellM Nat
  | 0, _ => throw .hang
  | fuel + 1, p => do
    let m ← get
    if m p ≠ 0 then
      go fuel (p + 1)
    else
      pure p

def strlen (str : Nat) : ShellM Nat := do
  Cmd.assert .panic (str ≠ 0)
  let p ← strlen.go addressSpace str
  pure (p - str)

section Vsprintf

def vsprintf.s (bufPtr ap : Nat) : ShellM Nat := do
  let m ← get
  let argStr := (m.word ap).toNat
  strcpy bufPtr argStr
  let len ← strlen argStr
  pure (bufPtr + len)

def vsprintf.d (bufPtr ap : Nat) : ShellM Nat := do
  let m ← get
  let argInt := m.word ap
  if argInt.toInt32 < 0 then
    store bufPtr 45
    itoa addressSpace (0 - argInt) (bufPtr + 1) 10
  else
    itoa addressSpace argInt bufPtr 10

def vsprintf.x (bufPtr ap : Nat) : ShellM Nat := do
  let m ← get
  itoa addressSpace (m.word ap) bufPtr 16

def vsprintf.c (bufPtr ap : Nat) : ShellM Nat := do
  let m ← get
  store bufPtr (m ap)
  pure (bufPtr + 1)

def vsprintf.go : (fuel : Nat) → (indexPtr bufPtr ap : Nat) → ShellM Unit
  | 0, _, _, _ => throw .hang
  | fuel + 1, indexPtr, bufPtr, ap => do
    let m ← get
    let indexChar := m indexPtr
    if indexChar ≠ 0 then
      if indexChar ≠ 37 then
        store bufPtr indexChar
        go fuel (indexPtr + 1) (bufPtr + 1) ap
      else
        match m (indexPtr + 1) with
        | 115 => do
          let bufPtr ← vsprintf.s bufPtr (ap + 4)
          go fuel (indexPtr + 2) bufPtr (ap + 4)
        | 100 => do
          let bufPtr ← vsprintf.d bufPtr (ap + 4)
          go fuel (indexPtr + 2) bufPtr (ap + 4)
        | 120 => do
          let bufPtr ← vsprintf.x bufPtr (ap + 4)
          go fuel (indexPtr + 2) bufPtr (ap + 4)
        | 99 => do
          let bufPtr ← vsprintf.c bufPtr (ap + 4)
          go fuel (indexPtr + 2) bufPtr (ap + 4)
        | _ => go fuel (indexPtr + 1) bufPtr ap

def vsprintf (str format ap : Nat) : ShellM Nat := do
  vsprintf.go addressSpace format str ap
  strlen str

/--
`sprintf`: `va_start` makes `ap` point to `format`, which is at the address `args` of the stack.
-/
def sprintf (buf args : Nat) : ShellM Nat := do
  let m ← get
  vsprintf buf (m.word args).toNat args

end Vsprintf

end Ptr

end RogOS
