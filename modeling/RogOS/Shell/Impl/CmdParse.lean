import RogOS.Shell.Impl.WashPath

/-!
`cmd_parse` of `shell.c` cuts a command line into words. The line is changed in place; what lies
behind the array `argv` is written to like the array.
-/

namespace RogOS

structure CmdState where
  line : Mem
  argv : Nat → Option Nat

abbrev CmdM := Cmd Fault CmdState

def maxArgNr : Nat := 16

namespace CmdM

def setArg (i : Nat) (p : Option Nat)
    : CmdM Unit := modify fun s => { s with argv := Function.update s.argv i p }

def setChar (a : Nat) (c : UInt8)
    : CmdM Unit := modify fun s => { s with line := Function.update s.line a c }

end CmdM

open CmdM

def cmdParse.clear : (left : Nat) → (argIdx : Nat) → CmdM Unit
  | 0, _ => pure ()
  | left + 1, argIdx => do
    setArg argIdx none
    clear left (argIdx + 1)

section CmdParse

variable (token : UInt8)

def cmdParse.skip : (fuel : Nat) → (next : Nat) → CmdM Nat
  | 0, _ => throw .hang
  | fuel + 1, next => do
    let s ← get
    if s.line next = token then
      skip fuel (next + 1)
    else
      pure next

def cmdParse.word : (fuel : Nat) → (next : Nat) → CmdM Nat
  | 0, _ => throw .hang
  | fuel + 1, next => do
    let s ← get
    if s.line next ≠ 0 ∧ s.line next ≠ token then
      word fuel (next + 1)
    else
      pure next

def cmdParse.cut (next : Nat) : CmdM Nat := do
  let s ← get
  if s.line next ≠ 0 then
    setChar next 0
    pure (next + 1)
  else
    pure next

def cmdParse.go : (fuel : Nat) → (next argc : Nat) → CmdM Int
  | 0, _, _ => throw .hang
  | fuel + 1, next, argc => do
    let s ← get
    if s.line next ≠ 0 then
      let next ← skip token addressSpace next
      let s ← get
      if s.line next = 0 then
        pure argc
      else
        setArg argc (some next)
        let next ← word token addressSpace next
        let next ← cut next
        if argc > maxArgNr then
          pure (-1)
        else
          go fuel next (argc + 1)
    else
      pure argc

def cmdParse (cmdStr : Nat) : CmdM Int := do
  Cmd.assert .panic (cmdStr ≠ 0)
  cmdParse.clear maxArgNr 0
  cmdParse.go token addressSpace cmdStr 0

end CmdParse

end RogOS
