import RogOS.Thread.LockSystem

/-!
`allocate_pid` of `thread.c`, which `init_thread` and `fork_pid` call: the statements between which
a task can be interrupted.
-/

namespace RogOS

inductive PidPc where
  -- The task is not in the function.
  | outside
  -- The call of `lock_acquire`
  | acquire
  -- `next_pid++`, when `lock_acquire` has returned
  | incr
  -- The call of `lock_release`
  | release
  -- `return next_pid`, when `lock_release` has returned
  | ret
  deriving DecidableEq, Repr

structure PidSys (T : Type) where
  -- `pid_lock`, and the status of the tasks
  locks : LockSys T
  -- `pid_t` is `int16_t`.
  nextPid : Int16
  pc : T → PidPc
  -- The number of calls
  calls : Nat
  -- The pids of the calls that returned
  pids : List Int16

inductive PidOp (T : Type) where
  -- The task calls `allocate_pid`.
  | call (t : T)
  -- The task executes its next statement.
  | stmt (t : T)

abbrev PidM (T : Type) := Cmd Fault (PidSys T)

namespace PidSys

variable {T : Type} [DecidableEq T]

def onLocks {α : Type} (x : Cmd Fault (LockSys T) α) : PidM T α :=
  Cmd.zoom PidSys.locks (fun s l => { s with locks := l }) x

def move (t : T) (pc : PidPc)
    : PidM T Unit := modify fun s => { s with pc := Function.update s.pc t pc }

def allocatePid (t : T) : PidM T Unit := do
  let s ← get
  match s.pc t with
  | .outside => pure ()
  | .acquire =>
    onLocks (LockSys.exec (.acquire t))
    move t .incr
  | .incr =>
    modify fun s => { s with nextPid := s.nextPid + 1 }
    move t .release
  | .release =>
    onLocks (LockSys.exec (.release t))
    move t .ret
  | .ret =>
    modify fun s => { s with pids := s.pids ++ [s.nextPid] }
    move t .outside

def exec : PidOp T → PidM T Unit
  | .call t => do
    modify fun s => { s with calls := s.calls + 1 }
    move t .acquire
  | .stmt t => do
    let s ← get
    if s.locks.pc t = .outside then
      allocatePid t
    else
      onLocks (LockSys.exec (.stmt t))

def Allowed (s : PidSys T) : PidOp T → Prop
  | .call t => s.locks.Runs t ∧ s.pc t = .outside
  | .stmt t => s.locks.Runs t ∧ s.pc t ≠ .outside

def start (status : T → TaskStatus)
    : PidSys T := ⟨LockSys.start status, 0, fun _ => .outside, 0, []⟩

end PidSys

end RogOS
