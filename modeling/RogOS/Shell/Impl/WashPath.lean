import RogOS.Basic
import RogOS.Lib.Cmd
import RogOS.Lib.Mem

/-!
`wash_path` of `buildin_cmd.c` on the memory, with `path_parse` and the functions of `string.c` that
it calls. A loop over a string goes on until it finds what it looks for, which is before it has been
around the address space.
-/

namespace RogOS

abbrev ShellM := Cmd Fault Mem

inductive StrPtr where
  | lit (str : List UInt8)
  | mem (a : Nat)

def StrPtr.view (m : Mem) : StrPtr → Mem
  | .lit str => fun i => str.getD i 0
  | .mem a => m.shift a

def StrPtr.NotNull : StrPtr → Prop
  | .lit _ => True
  | .mem a => a ≠ 0

instance : DecidablePred StrPtr.NotNull := fun p => by
  cases p <;> unfold StrPtr.NotNull <;> infer_instance

def charVal (c : UInt8) : Int := c.toInt8.toInt

def addressSpace : Nat := 2 ^ 32

namespace Ptr

def store (a : Nat) (byte : UInt8) : ShellM Unit := modify fun m => Function.update m a byte

def memset.go (value : UInt8) : (size : Nat) → (dst : Nat) → ShellM Unit
  | 0, _ => pure ()
  | size + 1, dst => do
    store dst value
    go value size (dst + 1)

def memset (dst : Nat) (value : UInt8) (size : Nat) : ShellM Unit := do
  Cmd.assert .panic (dst ≠ 0)
  memset.go value size dst

def strcmp.go (a b : StrPtr) : (fuel : Nat) → (i : Nat) → ShellM Int
  | 0, _ => throw .hang
  | fuel + 1, i => do
    let m ← get
    if a.view m i ≠ 0 ∧ a.view m i = b.view m i then
      go a b fuel (i + 1)
    else
      pure <|
        if charVal (a.view m i) < charVal (b.view m i) then
          -1
        else if charVal (b.view m i) < charVal (a.view m i) then
          1
        else
          0

def strcmp (a b : StrPtr) : ShellM Int := do
  Cmd.assert .panic (a.NotNull ∧ b.NotNull)
  strcmp.go a b addressSpace 0

def strrchr.go (ch : UInt8)
    : (fuel : Nat) → (str : Nat) → (lastChar : Option Nat) → ShellM (Option Nat)
  | 0, _, _ => throw .hang
  | fuel + 1, str, lastChar => do
    let m ← get
    if m str ≠ 0 then
      go ch fuel (str + 1) (if charVal (m str) = ch.toNat then some str else lastChar)
    else
      pure lastChar

def strrchr (str : Nat) (ch : UInt8) : ShellM (Option Nat) := do
  Cmd.assert .panic (str ≠ 0)
  strrchr.go ch addressSpace str none

def strcat.atEnd : (fuel : Nat) → (str : Nat) → ShellM Nat
  | 0, _ => throw .hang
  | fuel + 1, str => do
    let m ← get
    if m str ≠ 0 then
      atEnd fuel (str + 1)
    else
      pure str

def strcat.copy (src : StrPtr) : (fuel : Nat) → (str i : Nat) → ShellM Unit
  | 0, _, _ => throw .hang
  | fuel + 1, str, i => do
    let m ← get
    store str (src.view m i)
    if src.view m i ≠ 0 then
      copy src fuel (str + 1) (i + 1)

def strcat (dst : Nat) (src : StrPtr) : ShellM Unit := do
  Cmd.assert .panic (dst ≠ 0 ∧ src.NotNull)
  let str ← strcat.atEnd addressSpace dst
  strcat.copy src addressSpace str 0

def pathParse.skip : (fuel : Nat) → (pathname : Nat) → ShellM Nat
  | 0, _ => throw .hang
  | fuel + 1, pathname => do
    let m ← get
    if m pathname = 47 then
      skip fuel (pathname + 1)
    else
      pure pathname

def pathParse.copy : (fuel : Nat) → (pathname nameStore : Nat) → ShellM Nat
  | 0, _, _ => throw .hang
  | fuel + 1, pathname, nameStore => do
    let m ← get
    if m pathname ≠ 47 ∧ m pathname ≠ 0 then
      store nameStore (m pathname)
      copy fuel (pathname + 1) (nameStore + 1)
    else
      pure pathname

def pathParse (pathname nameStore : Nat) : ShellM (Option Nat) := do
  let m ← get
  let pathname ← if m pathname = 47 then pathParse.skip addressSpace (pathname + 1)
      else pure pathname
  let pathname ← pathParse.copy addressSpace pathname nameStore
  let m ← get
  pure (if m pathname = 0 then none else some pathname)

def maxFileNameLen : Nat := 16

section WashPath

-- the arrays `new_abs_path` and `name`
variable (newAbsPath name : Nat)

def washPath.popName : ShellM Unit := do
  match ← strrchr newAbsPath 47 with
  | none => throw .badPtr
  | some slashPtr =>
    if slashPtr ≠ newAbsPath then
      store slashPtr 0
    else
      store (slashPtr + 1) 0

def washPath.pushName : ShellM Unit := do
  let c ← strcmp (.mem newAbsPath) (.lit [47])
  if c ≠ 0 then
    strcat newAbsPath (.lit [47])
  strcat newAbsPath (.mem name)

def washPath.addName : ShellM Unit := do
  let up ← strcmp (.lit [46, 46]) (.mem name)
  if up = 0 then
    popName newAbsPath
  else
    let stay ← strcmp (.lit [46]) (.mem name)
    if stay ≠ 0 then
      pushName newAbsPath name

def washPath.parseRest : (subPath : Option Nat) → ShellM (Option Nat)
  | some subPath => pathParse subPath name
  | none => pure none

def washPath.go : (fuel : Nat) → (subPath : Option Nat) → ShellM Unit
  | 0, _ => throw .hang
  | fuel + 1, subPath => do
    let m ← get
    if m name ≠ 0 then
      addName newAbsPath name
      memset name 0 maxFileNameLen
      let subPath ← parseRest name subPath
      go fuel subPath

def washPath (oldAbsPath : Nat) : ShellM Unit := do
  memset name 0 maxFileNameLen
  let subPath ← pathParse oldAbsPath name
  let m ← get
  if m name = 0 then
    store newAbsPath 47
    store (newAbsPath + 1) 0
  else
    store newAbsPath 0
    strcat newAbsPath (.lit [47])
    washPath.go newAbsPath name addressSpace subPath

end WashPath

end Ptr

end RogOS
