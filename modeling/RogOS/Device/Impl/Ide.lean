import RogOS.Fs.Basic
import RogOS.Thread.LockSystem

/-!
`ide.c`: reading and writing sectors through one channel, with the interrupts of its disks. The
functions are given as the statements between which a task can be interrupted. What they write to
the registers of the controller, and the data that they transfer, is left out.
-/

namespace RogOS

structure IdeCall where
  -- `ide_write`, else `ide_read`
  write : Bool
  lba : UInt32
  secCnt : UInt32
  secsDone : UInt32
  secsOp : UInt32
  -- `time_limit` of `busy_wait`
  timeLimit : UInt16

def IdeCall.ideRead (lba secCnt : UInt32) : IdeCall := ⟨false, lba, secCnt, 0, 0, 0⟩

def IdeCall.ideWrite (lba secCnt : UInt32) : IdeCall := ⟨true, lba, secCnt, 0, 0, 0⟩

inductive IdePc where
  -- The task is in none of the two functions.
  | outside
  -- The assertions on the arguments, and the call of `lock_acquire`
  | check
  -- `select_disk(hd)`, when `lock_acquire` has returned
  | selectDisk
  -- `while (secs_done < sec_cnt)`, with the number of sectors of the next group or the call of
  -- `lock_release`
  | loop
  -- `select_sector(hd, lba + secs_done, secs_op)`
  | selectSector
  -- `channel->expecting_intr = true` in `cmd_out`
  | setFlag
  -- `outb(reg_cmd(channel), cmd)` in `cmd_out`
  | outCmd
  -- `sema_down(&hd->my_channel->disk_done)`
  | down
  -- One turn of the loop of `busy_wait`
  | busyWait
  -- `read_from_sector` or `write2sector`
  | transfer
  -- `secs_done += secs_op`
  | advance
  -- The return, when `lock_release` has returned
  | ret
  deriving DecidableEq, Repr

structure IdeStatus where
  bsy : Bool
  drq : Bool

structure IntrSince where
  -- One came between the two statements of `cmd_out`.
  early : Bool
  -- One came after `cmd_out`.
  late : Bool
  deriving DecidableEq, Repr

structure IdeSys (T : Type) where
  -- `channel->lock`, and the status of the tasks
  locks : LockSys T
  diskDone : Semaphore T
  expectingIntr : Bool
  pc : T → IdePc
  call : T → IdeCall
  since : T → IntrSince
  -- The sector groups that are finished, each with the interrupts since its command
  finished : List IntrSince

inductive IdeOp (T : Type) where
  -- The task calls `ide_read` or `ide_write`.
  | call (t : T) (c : IdeCall)
  -- The task executes its next statement.
  | stmt (t : T) (status : IdeStatus)
  -- An interrupt of a disk of the channel
  | intr

abbrev IdeM (T : Type) := Cmd Fault (IdeSys T)

def IdeCall.nextOp (c : IdeCall)
    : UInt32 := if c.secsDone + 256 ≤ c.secCnt then 256 else c.secCnt - c.secsDone

def IdeCall.afterCmd (c : IdeCall) : IdePc := if c.write then .busyWait else .down

def IdeCall.afterDown (c : IdeCall) : IdePc := if c.write then .advance else .busyWait

def IdeCall.afterTransfer (c : IdeCall) : IdePc := if c.write then .down else .advance

namespace IdeSys

variable {T : Type} [DecidableEq T]

def onLocks {α : Type} (x : Cmd Fault (LockSys T) α) : IdeM T α :=
  Cmd.zoom IdeSys.locks (fun s l => { s with locks := l }) x

def onDiskDone {α : Type} (x : SemaM T α) : IdeM T α :=
  Cmd.zoom (fun s => ⟨s.locks.locks.status, s.diskDone⟩)
    (fun s p => { s with locks.locks.status := p.status, diskDone := p.sema }) x

def move (t : T) (pc : IdePc) (c : IdeCall) : IdeM T Unit :=
  modify fun s => { s with pc := Function.update s.pc t pc, call := Function.update s.call t c }

end IdeSys

open IdeSys

section Statements

variable {T : Type} [DecidableEq T]

def ideStmt (t : T) (status : IdeStatus) : IdeM T Unit := do
  let s ← get
  let c := s.call t
  match s.pc t with
  | .outside => pure ()
  | .check =>
    Cmd.assert .panic (c.lba.toNat ≤ maxLba)
    Cmd.assert .panic (0 < c.secCnt)
    onLocks (LockSys.exec (.acquire t))
    move t .selectDisk c
  | .selectDisk => move t .loop { c with secsDone := 0 }
  | .loop =>
    if c.secsDone < c.secCnt then
      move t .selectSector { c with secsOp := c.nextOp }
    else
      onLocks (LockSys.exec (.release t))
      move t .ret c
  | .selectSector =>
    Cmd.assert .panic ((c.lba + c.secsDone).toNat ≤ maxLba)
    move t .setFlag c
  | .setFlag =>
    modify fun s => { s with
      expectingIntr := true
      since := Function.update s.since t ⟨false, false⟩ }
    move t .outCmd c
  | .outCmd => move t c.afterCmd { c with timeLimit := 30 * 1000 }
  | .down =>
    if ← onDiskDone (semaDown t) then
      move t c.afterDown { c with timeLimit := 30 * 1000 }
  | .busyWait =>
    -- `time_limit -= 10 >= 0` subtracts 1
    Cmd.assert .panic (c.timeLimit - 1 ≠ 0)
    if status.bsy then
      move t .busyWait { c with timeLimit := c.timeLimit - 1 }
    else
      Cmd.assert .panic (status.drq = true)
      move t .transfer c
  | .transfer => move t c.afterTransfer c
  | .advance =>
    modify fun s => { s with finished := s.finished ++ [s.since t] }
    move t .loop { c with secsDone := c.secsDone + c.secsOp }
  | .ret => move t .outside c

def intrHdHandler : IdeM T Unit := do
  let s ← get
  if s.expectingIntr then
    modify fun s => { s with expectingIntr := false }
    onDiskDone semaUp

def IntrSince.note (i : IntrSince) (pc : IdePc) : IntrSince :=
  if pc = .outCmd then { i with early := true } else { i with late := true }

namespace IdeSys

def exec : IdeOp T → IdeM T Unit
  | .call t c => move t .check c
  | .stmt t status => do
    let s ← get
    if s.locks.pc t = .outside then
      ideStmt t status
    else
      onLocks (LockSys.exec (.stmt t))
  | .intr => do
    modify fun s => { s with since := fun t => (s.since t).note (s.pc t) }
    intrHdHandler

def Runs (s : IdeSys T) (t : T) : Prop := s.locks.Runs t

def Allowed (s : IdeSys T) : IdeOp T → Prop
  | .call t _ => s.Runs t ∧ s.pc t = .outside
  | .stmt t _ => s.Runs t ∧ s.pc t ≠ .outside
  | .intr => True

def start (status : T → TaskStatus) (call : T → IdeCall) (since : T → IntrSince) : IdeSys T :=
  ⟨LockSys.start status, semaInit T 0, false, fun _ => .outside, call, since, []⟩

end IdeSys

end Statements

end RogOS
