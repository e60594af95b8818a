import RogOS.Task.Impl.Fork

/-!
The names of the tasks that descend from `init`: what `fork.c` and `exec.c` do to them.
-/

namespace RogOS

structure NamedTask where
  -- `name`, and the members behind it
  name : Mem
  -- The path of the last `execv` of the task or of an ancestor, or `init`
  path : List UInt8
  -- The number of forks since then
  forks : Nat

inductive NameOp where
  | fork (parent : Nat)
  -- A successful `execv`; `path` is the memory from the path on.
  | execv (task : Nat) (path : Mem)

abbrev FamilyM := Cmd Fault (List NamedTask)

def initPath : List UInt8 := [105, 110, 105, 116]

def NamedTask.init : NamedTask := ⟨fun i => initPath.getD i 0, initPath, 0⟩

def forkName (name : Mem) : FamilyM Mem :=
  match strlenLt name 0 11 with
  | none => throw .panic
  | some len => pure (strcatFork name 0 len)

def execName (name path : Mem) : Mem := (name.blit 0 16 path).blit 15 1 Mem.zero

namespace NamedTask

def exec : NameOp → FamilyM Unit
  | .fork parent => do
    let s ← get
    match s[parent]? with
    | none => throw .badPtr
    | some t =>
      let name ← forkName t.name
      modify fun s => s ++ [⟨name, t.path, t.forks + 1⟩]
  | .execv task path => do
    let s ← get
    match s[task]? with
    | none => throw .badPtr
    | some t => modify fun s => s.set task ⟨execName t.name path, path.chars 0 16, 0⟩

def Allowed (s : List NamedTask) : NameOp → Prop
  | .fork parent => parent < s.length
  | .execv task _ => task < s.length

end NamedTask

end RogOS
