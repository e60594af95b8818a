import RogOS.Lib.Str
import RogOS.Fs.Impl.Path

/-!
`wash_path` of `buildin_cmd.c`, which takes the `.` and `..` out of a path.
-/

namespace RogOS

namespace washPath

def addName {σ : Type} (newAbsPath name : List UInt8) : Cmd Fault σ (List UInt8) :=
  if name = [46, 46] then
    match Str.strrchr newAbsPath 47 with
    | none => throw .badPtr
    | some 0 => pure (newAbsPath.take 1)
    | some (slash + 1) => pure (newAbsPath.take (slash + 1))
  else if name ≠ [46] then
    if newAbsPath ≠ [47] then do
      let newAbsPath ← strcat newAbsPath [47]
      strcat newAbsPath name
    else
      strcat newAbsPath name
  else
    pure newAbsPath

def go {σ : Type} : (fuel : Nat) → (name : List UInt8) → (subPath : Option (List UInt8)) →
    (newAbsPath : List UInt8) → Cmd Fault σ (List UInt8)
  | 0, _, _, _ => throw .hang
  | fuel + 1, name, subPath, newAbsPath =>
    if name = [] then
      pure newAbsPath
    else do
      -- `name` ends with a NUL
      Cmd.assert .overrun (name.length < 16)
      let newAbsPath ← addName newAbsPath name
      let (name, subPath) ← searchFile.parseName subPath
      go fuel name subPath newAbsPath

end washPath

def washPath {σ : Type} (oldAbsPath : List UInt8) : Cmd Fault σ (List UInt8) := do
  let (name, subPath) ← searchFile.parseName (some oldAbsPath)
  if name = [] then
    pure [47]
  else
    washPath.go (oldAbsPath.length + 1) name subPath [47]

end RogOS
