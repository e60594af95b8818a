import RogOS.Fs.Basic

/-!
`bitmap.c`, the transfers of `ide.c` and the bitmap functions of `file.c`.
-/

namespace RogOS

def bitmapScanTest (btmp : Bitmap) (bitIdx : Nat) : Bool :=
  btmp.bits (bitIdx / 8) &&& (1 <<< UInt8.ofNat (bitIdx % 8)) != 0

namespace bitmapScan

def freeByte (bits : Mem) : (n idxByte : Nat) → Option Nat
  | 0, _ => none
  | n + 1, idxByte => if bits idxByte == 0xff then freeByte bits n (idxByte + 1) else some idxByte

def freeBit (byte : UInt8) : (n idxBit : Nat) → Nat
  | 0, idxBit => idxBit
  | n + 1, idxBit =>
    if (1 <<< UInt8.ofNat idxBit) &&& byte != 0 then freeBit byte n (idxBit + 1) else idxBit

def run (btmp : Bitmap) (cnt : Nat) : (bitLeft nextBit count : Nat) → Option Nat
  | 0, _, _ => none
  | bitLeft + 1, nextBit, count =>
    let count := if bitmapScanTest btmp nextBit then 0 else count + 1
    if count = cnt then some (nextBit + 1 - cnt) else run btmp cnt bitLeft (nextBit + 1) count

end bitmapScan

def bitmapScan {σ : Type} (btmp : Bitmap) (cnt : UInt32) : Cmd Fault σ (Option Nat) :=
  match bitmapScan.freeByte btmp.bits btmp.btmpBytesLen 0 with
  -- the assertion after the byte loop fails when there is no clear bit at all
  | none => throw .panic
  | some idxByte =>
    let bitIdxStart := idxByte * 8 + bitmapScan.freeBit (btmp.bits idxByte) 8 0
    if cnt = 1 then
      pure (some bitIdxStart)
    else
      let bitLeft := btmp.btmpBytesLen * 8 - bitIdxStart
      if bitLeft < (cnt - 1).toNat then
        pure none
      else
        pure (bitmapScan.run btmp cnt.toNat bitLeft (bitIdxStart + 1) 1)

def bitmapSet {σ : Type} (btmp : Bitmap) (bitIdx : Nat) (value : Bool) : Cmd Fault σ Bitmap := do
  Cmd.assert .overrun (bitIdx / 8 < btmp.btmpBytesLen)
  pure { btmp with bits := btmp.bits.setBit bitIdx value }

/--
`ide_read`: the bytes of `secCnt` sectors from `lba` on. Sectors are transferred in groups of 256,
and every group has to start on the disk.
-/
def ideRead (lba : UInt32) (secCnt : Nat) : VolM Mem := do
  Cmd.assert .panic (lba.toNat + 256 * ((secCnt - 1) / 256) ≤ maxLba)
  let v ← get
  pure ((v.disk.shift (lba.toNat * 512)).clip (secCnt * 512))

def ideWrite (lba : UInt32) (buf : Mem) (secCnt : Nat) : VolM Unit := do
  Cmd.assert .panic (lba.toNat + 256 * ((secCnt - 1) / 256) ≤ maxLba)
  modify fun v => { v with disk := v.disk.blit (lba.toNat * 512) (secCnt * 512) buf }

inductive BitmapType where
  | inode
  | block

variable (part : Partition)

def Vol.bitmap (v : Vol) : BitmapType → Bitmap
  | .inode => ⟨512, v.inodeBits⟩
  | .block => ⟨part.sb.blockBitmapSects.toNat * 512, v.blockBits⟩

def Vol.setBits (v : Vol) (btmp : BitmapType) (bits : Mem) : Vol :=
  match btmp with
  | .inode => { v with inodeBits := bits }
  | .block => { v with blockBits := bits }

def setBit (btmp : BitmapType) (bitIdx : Nat) (value : Bool) : VolM Unit := do
  let v ← get
  let b ← bitmapSet (v.bitmap part btmp) bitIdx value
  modify fun v => v.setBits btmp b.bits

def Partition.bitmapLba : BitmapType → UInt32
  | .inode => part.sb.inodeBitmapLba
  | .block => part.sb.blockBitmapLba

def bitmapSync (bitIdx : Nat) (btmp : BitmapType) : VolM Unit := do
  let offSec := bitIdx / 4096
  let v ← get
  ideWrite (part.bitmapLba btmp + UInt32.ofNat offSec)
    ((v.bitmap part btmp).bits.shift (offSec * 512)) 1

/-- The common part of `inode_bitmap_alloc` and `block_bitmap_alloc`: the first clear bit is set. -/
def bitAlloc (btmp : BitmapType) : VolM (Option Nat) := do
  let v ← get
  match ← bitmapScan (v.bitmap part btmp) 1 with
  | none => pure none
  | some bitIdx =>
    setBit part btmp bitIdx true
    pure (some bitIdx)

def inodeBitmapAlloc : VolM (Option UInt32) := do
  let bitIdx ← bitAlloc part .inode
  pure (bitIdx.map UInt32.ofNat)

def blockBitmapAlloc : VolM (Option UInt32) := do
  let bitIdx ← bitAlloc part .block
  pure (bitIdx.map fun i => part.sb.dataStartLba + UInt32.ofNat i)

def Partition.blockIdx (lba : UInt32) : Nat := (lba - part.sb.dataStartLba).toNat

end RogOS
