import RogOS.Device.Impl.Ide
import RogOS.Lib.Ram

/-!
The transfers of `ide.c`: what the functions write to the registers of the controller, and the data
that they read from it and write to it. The lock of the channel and `disk_done` are left out.
-/

namespace RogOS

inductive IdeReg where
  | sectCnt
  | lbaL
  | lbaM
  | lbaH
  | dev
  | cmd

/--
The controller of a channel. A command transfers the number of sectors in the 8-bit count register,
256 for 0, between the data register and the disk, after the status register was read `delay` times.
-/
structure IdeController where
  sectCnt : UInt8
  lbaL : UInt8
  lbaM : UInt8
  lbaH : UInt8
  dev : UInt8
  -- The contents of the disks; `true` is the slave.
  disk : Bool → Mem
  delay : Nat
  -- How often the status register will still say that the disk is busy
  busy : Nat
  -- The disk of the last command
  slave : Bool
  -- The last command was a write.
  writing : Bool
  -- The next byte of the transfer
  pos : Nat
  -- The bytes that are left of it
  left : Nat

namespace IdeController

def lba (c : IdeController) : Nat :=
  c.lbaL.toNat + 256 * c.lbaM.toNat + 65536 * c.lbaH.toNat + 16777216 * (c.dev.toNat % 16)

def sectors (c : IdeController) : Nat := if c.sectCnt = 0 then 256 else c.sectCnt.toNat

def start (c : IdeController) (writing : Bool) : IdeController :=
  { c with
    busy := c.delay
    slave := c.dev &&& 0x10 != 0
    writing := writing
    pos := 512 * c.lba
    left := 512 * c.sectors }

def out (c : IdeController) : IdeReg → UInt8 → IdeController
  | .sectCnt, b => { c with sectCnt := b }
  | .lbaL, b => { c with lbaL := b }
  | .lbaM, b => { c with lbaM := b }
  | .lbaH, b => { c with lbaH := b }
  | .dev, b => { c with dev := b }
  | .cmd, b => if b = 0x20 then c.start false else if b = 0x30 then c.start true else c

def next (c : IdeController) : IdeController := { c with pos := c.pos + 2, left := c.left - 2 }

def store (c : IdeController) (b : Mem) : IdeController :=
  { c with disk := Function.update c.disk c.slave ((c.disk c.slave).blit c.pos 2 b) }

end IdeController

structure Pio where
  ctl : IdeController
  ram : Ram

abbrev PioM := Cmd Fault Pio

namespace Pio

def outb (reg : IdeReg) (b : UInt8) : PioM Unit := modify fun s => { s with ctl := s.ctl.out reg b }

def inbStatus : PioM IdeStatus := do
  let s ← get
  modify fun s => { s with ctl.busy := s.ctl.busy - 1 }
  pure ⟨0 < s.ctl.busy, s.ctl.busy = 0 ∧ 0 < s.ctl.left⟩

def insw (addr : UInt32) : (n : Nat) → PioM Unit
  | 0 => pure ()
  | n + 1 => do
    let s ← get
    Cmd.assert .hang (s.ctl.writing = false ∧ 2 ≤ s.ctl.left)
    set (⟨s.ctl.next, s.ram.fill addr 2 ((s.ctl.disk s.ctl.slave).shift s.ctl.pos)⟩ : Pio)
    insw (addr + 2) n

def outsw (addr : UInt32) : (n : Nat) → PioM Unit
  | 0 => pure ()
  | n + 1 => do
    let s ← get
    Cmd.assert .hang (s.ctl.writing = true ∧ 2 ≤ s.ctl.left)
    set (⟨(s.ctl.store (s.ram.view addr)).next, s.ram⟩ : Pio)
    outsw (addr + 2) n

section Functions

-- `hd->dev_no`
variable (devNo : UInt8)

def regDevice : UInt8 := 0xa0 ||| 0x40 ||| if devNo = 1 then 0x10 else 0

def selectDisk : PioM Unit := outb .dev (regDevice devNo)

def selectSector (lba : UInt32) (secCnt : UInt8) : PioM Unit := do
  Cmd.assert .panic (lba.toNat ≤ maxLba)
  outb .sectCnt secCnt
  outb .lbaL lba.toUInt8
  outb .lbaM (lba >>> 8).toUInt8
  outb .lbaH (lba >>> 16).toUInt8
  outb .dev (regDevice devNo ||| (lba >>> 24).toUInt8)

def cmdOut (cmd : UInt8) : PioM Unit := outb .cmd cmd

def sizeInByte (secCnt : UInt8) : UInt32 := if secCnt = 0 then 256 * 512 else secCnt.toUInt32 * 512

def readFromSector (buf : UInt32) (secCnt : UInt8)
    : PioM Unit := insw buf (sizeInByte secCnt / 2).toNat

def write2sector (buf : UInt32) (secCnt : UInt8)
    : PioM Unit := outsw buf (sizeInByte secCnt / 2).toNat

def busyWait.go : (timeLimit : Nat) → PioM Bool
  | 0 => pure false
  | timeLimit + 1 =>
    if timeLimit = 0 then
      pure false
    else do
      let status ← inbStatus
      if status.bsy then
        go timeLimit
      else
        let status ← inbStatus
        pure status.drq

def busyWait : PioM Bool := busyWait.go (30 * 1000)

def secsOp (secsDone secCnt : UInt32)
    : UInt32 := if secsDone + 256 ≤ secCnt then 256 else secCnt - secsDone

variable (lba buf secCnt : UInt32)

def ideRead.go : (fuel : Nat) → (secsDone : UInt32) → PioM Unit
  | 0, _ => throw .hang
  | fuel + 1, secsDone =>
    if secsDone < secCnt then do
      selectSector devNo (lba + secsDone) (secsOp secsDone secCnt).toUInt8
      cmdOut 0x20
      let ready ← busyWait
      Cmd.assert .panic (ready = true)
      readFromSector (buf + secsDone * 512) (secsOp secsDone secCnt).toUInt8
      go fuel (secsDone + secsOp secsDone secCnt)
    else
      pure ()

def ideRead : PioM Unit := do
  Cmd.assert .panic (lba.toNat ≤ maxLba)
  Cmd.assert .panic (0 < secCnt)
  selectDisk devNo
  ideRead.go devNo lba buf secCnt (secCnt.toNat + 1) 0

def ideWrite.go : (fuel : Nat) → (secsDone : UInt32) → PioM Unit
  | 0, _ => throw .hang
  | fuel + 1, secsDone =>
    if secsDone < secCnt then do
      selectSector devNo (lba + secsDone) (secsOp secsDone secCnt).toUInt8
      cmdOut 0x30
      let ready ← busyWait
      Cmd.assert .panic (ready = true)
      write2sector (buf + secsDone * 512) (secsOp secsDone secCnt).toUInt8
      go fuel (secsDone + secsOp secsDone secCnt)
    else
      pure ()

def ideWrite : PioM Unit := do
  Cmd.assert .panic (lba.toNat ≤ maxLba)
  Cmd.assert .panic (0 < secCnt)
  selectDisk devNo
  ideWrite.go devNo lba buf secCnt (secCnt.toNat + 1) 0

end Functions

end Pio

end RogOS
