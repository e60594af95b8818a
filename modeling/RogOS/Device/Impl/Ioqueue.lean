import RogOS.Lib.Mem
import RogOS.Thread.Impl.Sync

/-!
`ioqueue.c`: a circular queue of bytes between tasks. Its functions run with the interrupts off, so
that a task only gives up the CPU where it blocks; it goes on from there when it runs again.
-/

namespace RogOS

inductive IoqSide where
  | producer
  | consumer
  deriving DecidableEq, Repr

structure Ioqueue (T : Type) where
  lock : Lock T
  -- `producer` and `consumer`
  waiter : IoqSide → Option T
  buf : Mem
  head : Int
  tail : Int

def bufsize : Nat := 64

def ioqueueInit {T : Type} (ioq : Ioqueue T) : Ioqueue T :=
  { ioq with
    lock := lockInit T
    waiter := Function.update ioq.waiter .producer none
    head := 0
    tail := 0 }

def nextPos (pos : Int) : Int := (pos + 1).tmod bufsize

def ioqueueFull {T : Type} (ioq : Ioqueue T) : Bool := nextPos ioq.head == ioq.tail

def ioqueueEmpty {T : Type} (ioq : Ioqueue T) : Bool := ioq.head == ioq.tail

structure IoqState (T : Type) where
  status : T → TaskStatus
  ioq : Ioqueue T

abbrev IoqM (T : Type) := Cmd Fault (IoqState T)

inductive IoqPc where
  -- The task is in none of the two functions.
  | outside
  -- `sema_down` in `lock_acquire(&ioq->lock)` of `ioqueue_getchar`
  | getLock
  -- `ioqueue_wait(&ioq->consumer)`
  | getWait
  -- `sema_down` in `lock_acquire(&ioq->lock)` of `ioqueue_putchar`
  | putLock (byte : UInt8)
  -- `ioqueue_wait(&ioq->producer)`
  | putWait (byte : UInt8)
  deriving DecidableEq, Repr

inductive IoqRet where
  | blocked (pc : IoqPc)
  | got (byte : UInt8)
  | put (byte : UInt8)
  deriving DecidableEq, Repr

namespace Ioqueue

variable {T : Type} [DecidableEq T]

def update (f : Ioqueue T → Ioqueue T) : IoqM T Unit := modify fun s => { s with ioq := f s.ioq }

def onStatus {α : Type} (x : StatusM T α) : IoqM T α :=
  Cmd.zoom IoqState.status (fun s status => { s with status := status }) x

def onLock {α : Type} (x : LockM T α) : IoqM T α :=
  Cmd.zoom (fun s => ⟨s.status, s.ioq.lock⟩) (fun s p => ⟨p.status, { s.ioq with lock := p.lock }⟩)
    x

end Ioqueue

section Queue

variable {T : Type} [DecidableEq T] (cur : T)

def ioqueueWait (side : IoqSide) : IoqM T Unit := do
  let s ← get
  Cmd.assert .panic (s.ioq.waiter side = none)
  Ioqueue.update fun q => { q with waiter := Function.update q.waiter side (some cur) }
  Ioqueue.onStatus (threadBlock cur .blocked)

omit cur in
def wakeup (side : IoqSide) : IoqM T Unit := do
  let s ← get
  match s.ioq.waiter side with
  | none => throw .panic
  | some waiter =>
    Ioqueue.onStatus (threadUnblock waiter)
    Ioqueue.update fun q => { q with waiter := Function.update q.waiter side none }

omit cur in
def wakeupAny (side : IoqSide) : IoqM T Unit := do
  let s ← get
  if s.ioq.waiter side ≠ none then
    wakeup side

def takeByte : IoqM T UInt8 := do
  let s ← get
  Cmd.assert .overrun (0 ≤ s.ioq.tail ∧ s.ioq.tail < bufsize)
  let byte := s.ioq.buf s.ioq.tail.toNat
  Ioqueue.update fun q => { q with tail := nextPos q.tail }
  wakeupAny .producer
  pure byte

def storeByte (byte : UInt8) : IoqM T Unit := do
  let s ← get
  Cmd.assert .overrun (0 ≤ s.ioq.head ∧ s.ioq.head < bufsize)
  Ioqueue.update fun q => { q with buf := Function.update q.buf q.head.toNat byte }
  Ioqueue.update fun q => { q with head := nextPos q.head }
  wakeupAny .consumer

def getLocked (taken : Bool) : IoqM T IoqRet := do
  if taken then
    ioqueueWait cur .consumer
    pure (.blocked .getWait)
  else
    pure (.blocked .getLock)

def ioqueueGetchar : IoqM T IoqRet := do
  let s ← get
  if ioqueueEmpty s.ioq then
    getLocked cur (← Ioqueue.onLock (lockAcquire cur))
  else
    pure (.got (← takeByte))

def putLocked (byte : UInt8) (taken : Bool) : IoqM T IoqRet := do
  if taken then
    ioqueueWait cur .producer
    pure (.blocked (.putWait byte))
  else
    pure (.blocked (.putLock byte))

def ioqueuePutchar (byte : UInt8) : IoqM T IoqRet := do
  let s ← get
  if ioqueueFull s.ioq then
    putLocked cur byte (← Ioqueue.onLock (lockAcquire cur))
  else
    storeByte byte
    pure (.put byte)

def ioqueueResume : IoqPc → IoqM T IoqRet
  | .outside => pure (.blocked .outside)
  | .getLock => do getLocked cur (← Ioqueue.onLock (lockDown cur))
  | .getWait => do
    Ioqueue.onLock (lockRelease cur)
    ioqueueGetchar cur
  | .putLock byte => do putLocked cur byte (← Ioqueue.onLock (lockDown cur))
  | .putWait byte => do
    Ioqueue.onLock (lockRelease cur)
    ioqueuePutchar cur byte

end Queue

end RogOS
