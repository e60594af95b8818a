import RogOS.Fs.Impl.Syscall

/-!
`fork.c`, as far as it concerns files.
-/

namespace RogOS

def updateInodeOpenCnts.go (task : Nat) : List (Fin 8) → FsM Unit
  | [] => pure ()
  | localFd :: rest => do
    let s ← get
    let globalFd := (s.tasks task).fdTable localFd
    Cmd.assert .panic (globalFd < 32)
    if globalFd ≠ -1 then
      if hg : 0 ≤ globalFd ∧ globalFd < 32 then
        match (s.fileTable ⟨globalFd.toNat, by omega⟩).fdInode with
        | none => throw .badPtr
        | some addr =>
          let _ ← derefInode addr
          modify fun s => s.updInode addr fun i => { i with iOpenCnts := i.iOpenCnts + 1 }
          go task rest
      else
        throw .overrun
    else
      go task rest

def updateInodeOpenCnts (task : Nat) : FsM Unit := updateInodeOpenCnts.go task [3, 4, 5, 6, 7]

/--
`sys_fork`: `memcpy` copies the descriptors and the working directory of the parent with the rest of
its PCB. `pages` tells whether the pages that the child needs were found; if not, the result is -1,
and no task uses the page of the child.
-/
def forkFiles (pages : Bool) (parent child : Nat) : FsM Bool := do
  if pages then
    modify fun s => { s with tasks := Function.update s.tasks child (s.tasks parent) }
    updateInodeOpenCnts child
    pure true
  else
    pure false

end RogOS
