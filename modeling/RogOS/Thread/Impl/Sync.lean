import Mathlib.Logic.Function.Basic
import RogOS.Basic
import RogOS.Lib.Cmd

/-!
`sync.c`: semaphores and locks of tasks that are blocked and woken. A task is any value; which of
the tasks that are not blocked runs next is left open.
-/

namespace RogOS

inductive TaskStatus where
  | running
  | ready
  | blocked
  | waiting
  | hanging
  | died
  deriving DecidableEq, Repr

def TaskStatus.stopped : TaskStatus → Bool
  | .blocked | .waiting | .hanging => true
  | _ => false

structure Semaphore (T : Type) where
  value : UInt8
  waiters : List T

def semaInit (T : Type) (value : UInt8) : Semaphore T := ⟨value, []⟩

structure Lock (T : Type) where
  holder : Option T
  semaphore : Semaphore T
  holderRepeatNr : UInt32

def lockInit (T : Type) : Lock T := ⟨none, semaInit T 1, 0⟩

structure SemaState (T : Type) where
  status : T → TaskStatus
  sema : Semaphore T

structure LockState (T : Type) where
  status : T → TaskStatus
  lock : Lock T

abbrev StatusM (T : Type) := Cmd Fault (T → TaskStatus)

abbrev SemaM (T : Type) := Cmd Fault (SemaState T)

abbrev LockM (T : Type) := Cmd Fault (LockState T)

def onStatus {T α : Type} (x : StatusM T α) : SemaM T α :=
  Cmd.zoom SemaState.status (fun s status => { s with status := status }) x

def onSemaphore {T α : Type} (x : SemaM T α) : LockM T α :=
  Cmd.zoom (fun s => ⟨s.status, s.lock.semaphore⟩)
    (fun s p => ⟨p.status, { s.lock with semaphore := p.sema }⟩) x

section Semaphore

variable {T : Type} [DecidableEq T]

def threadBlock (cur : T) (stat : TaskStatus) : StatusM T Unit := do
  Cmd.assert .panic (stat.stopped = true)
  modify fun status => Function.update status cur stat

def threadUnblock (pthread : T) : StatusM T Unit := do
  let status ← get
  Cmd.assert .panic ((status pthread).stopped = true)
  modify fun status => Function.update status pthread .ready

/--
One test of the loop of `sema_down`: `true` if the semaphore was taken, `false` if the task is
blocked. A task that was woken makes the test again.
-/
def semaDown (cur : T) : SemaM T Bool := do
  let s ← get
  if s.sema.value = 0 then
    Cmd.assert .panic (cur ∉ s.sema.waiters)
    modify fun s => { s with sema.waiters := s.sema.waiters ++ [cur] }
    onStatus (threadBlock cur .blocked)
    pure false
  else
    modify fun s => { s with sema.value := s.sema.value - 1 }
    let s ← get
    Cmd.assert .panic (s.sema.value = 0)
    pure true

def semaUp : SemaM T Unit := do
  let s ← get
  Cmd.assert .panic (s.sema.value = 0)
  match s.sema.waiters with
  | [] => pure ()
  | threadBlocked :: waiters =>
    modify fun s => { s with sema.waiters := waiters }
    onStatus (threadUnblock threadBlocked)
  modify fun s => { s with sema.value := s.sema.value + 1 }
  let s ← get
  Cmd.assert .panic (s.sema.value = 1)

end Semaphore

section Lock

variable {T : Type} [DecidableEq T]

def modifyLock (f : Lock T → Lock T) : LockM T Unit := modify fun s => { s with lock := f s.lock }

def lockTaken (cur : T) : LockM T Unit := do
  modifyLock fun l => { l with holder := some cur }
  let s ← get
  Cmd.assert .panic (s.lock.holderRepeatNr = 0)
  modifyLock fun l => { l with holderRepeatNr := 1 }

def lockDown (cur : T) : LockM T Bool := do
  if ← onSemaphore (semaDown cur) then
    lockTaken cur
    pure true
  else
    pure false

def lockAcquire (cur : T) : LockM T Bool := do
  let s ← get
  if s.lock.holder ≠ some cur then
    lockDown cur
  else
    modifyLock fun l => { l with holderRepeatNr := l.holderRepeatNr + 1 }
    pure true

def lockRelease (cur : T) : LockM T Unit := do
  let s ← get
  Cmd.assert .panic (s.lock.holder = some cur)
  if 1 < s.lock.holderRepeatNr then
    modifyLock fun l => { l with holderRepeatNr := l.holderRepeatNr - 1 }
  else
    Cmd.assert .panic (s.lock.holderRepeatNr = 1)
    modifyLock fun l => { l with holder := none }
    modifyLock fun l => { l with holderRepeatNr := 0 }
    onSemaphore semaUp

inductive LockPc where
  -- The task is in none of the two functions.
  | outside
  -- `plock->holder != running_thread()`
  | testHolder
  -- `sema_down(&plock->semaphore)`
  | down
  -- The loop of `sema_down` behind `thread_block`
  | retry
  -- `plock->holder = running_thread()`
  | setHolder
  -- `ASSERT(plock->holder_repeat_nr == 0)`
  | checkZero
  -- `plock->holder_repeat_nr = 1`
  | setRepeat
  -- `plock->holder_repeat_nr++`
  | incRepeat
  -- `ASSERT(plock->holder == running_thread())`
  | checkHolder
  -- `plock->holder_repeat_nr > 1`
  | testRepeat
  -- `plock->holder_repeat_nr--`
  | decRepeat
  -- `ASSERT(plock->holder_repeat_nr == 1)`
  | checkOne
  -- `plock->holder = NULL`
  | clearHolder
  -- `plock->holder_repeat_nr = 0`
  | clearRepeat
  -- `sema_up(&plock->semaphore)`
  | up
  deriving DecidableEq, Repr

def lockStmt (cur : T) (pc : LockPc) : LockM T LockPc := do
  let s ← get
  match pc with
  | .outside => pure .outside
  | .testHolder => pure (if s.lock.holder ≠ some cur then .down else .incRepeat)
  | .down | .retry =>
    if ← onSemaphore (semaDown cur) then
      pure .setHolder
    else
      pure .retry
  | .setHolder =>
    modifyLock fun l => { l with holder := some cur }
    pure .checkZero
  | .checkZero =>
    Cmd.assert .panic (s.lock.holderRepeatNr = 0)
    pure .setRepeat
  | .setRepeat =>
    modifyLock fun l => { l with holderRepeatNr := 1 }
    pure .outside
  | .incRepeat =>
    modifyLock fun l => { l with holderRepeatNr := l.holderRepeatNr + 1 }
    pure .outside
  | .checkHolder =>
    Cmd.assert .panic (s.lock.holder = some cur)
    pure .testRepeat
  | .testRepeat => pure (if 1 < s.lock.holderRepeatNr then .decRepeat else .checkOne)
  | .decRepeat =>
    modifyLock fun l => { l with holderRepeatNr := l.holderRepeatNr - 1 }
    pure .outside
  | .checkOne =>
    Cmd.assert .panic (s.lock.holderRepeatNr = 1)
    pure .clearHolder
  | .clearHolder =>
    modifyLock fun l => { l with holder := none }
    pure .clearRepeat
  | .clearRepeat =>
    modifyLock fun l => { l with holderRepeatNr := 0 }
    pure .up
  | .up =>
    onSemaphore semaUp
    pure .outside

end Lock

end RogOS
