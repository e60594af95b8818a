import RogOS.Fs.Impl.Syscall

/-!
`partition_format` and `mount_partition` of `fs.c`, and the state in which `filesys_init` leaves the
file system.
-/

namespace RogOS

def divRoundUp (x step : UInt32) : UInt32 := (x + step - 1) / step

namespace partitionFormat

def freeSects (secCnt : UInt32) : UInt32 :=
  secCnt - (1 + 1 + divRoundUp 4096 4096 + divRoundUp (76 * 4096) 512)

def blockBitmapBitLen (secCnt : UInt32) : UInt32 :=
  freeSects secCnt - divRoundUp (freeSects secCnt) 4096

def superBlock (startLba secCnt : UInt32) : SuperBlock :=
  let blockBitmapSects := divRoundUp (blockBitmapBitLen secCnt) 4096
  let blockBitmapLba := startLba + 2
  let inodeBitmapLba := blockBitmapLba + blockBitmapSects
  let inodeTableLba := inodeBitmapLba + divRoundUp 4096 4096
  {
    magic := 0x19590318
    secCnt := secCnt
    inodeCnt := 4096
    partLbaBase := startLba
    blockBitmapLba := blockBitmapLba
    blockBitmapSects := blockBitmapSects
    inodeBitmapLba := inodeBitmapLba
    inodeBitmapSects := divRoundUp 4096 4096
    inodeTableLba := inodeTableLba
    inodeTableSects := divRoundUp (76 * 4096) 512
    dataStartLba := inodeTableLba + divRoundUp (76 * 4096) 512
    rootInodeNo := 0
    dirEntrySize := 24
  }

def encodeSuperBlock (sb : SuperBlock) : Mem :=
  Mem.ofWords fun i =>
    ([sb.magic, sb.secCnt, sb.inodeCnt, sb.partLbaBase, sb.blockBitmapLba, sb.blockBitmapSects,
      sb.inodeBitmapLba, sb.inodeBitmapSects, sb.inodeTableLba, sb.inodeTableSects, sb.dataStartLba,
      sb.rootInodeNo, sb.dirEntrySize] : List UInt32).getD i 0

def clearBits (buf : Mem) (lastByte : Nat) : (n bitIdx : Nat) → Mem
  | 0, _ => buf
  | n + 1, bitIdx => clearBits (buf.setBit (lastByte * 8 + bitIdx) false) lastByte n (bitIdx + 1)

/--
The initial block bitmap: bit 0 is set, then the bytes from the last one on to the end of its sector
are filled, then the valid bits of the last byte are cleared.
-/
def blockBitmap (bitLen : Nat) : Mem :=
  let buf := Mem.zero.setBit 0 true
  let lastByte := bitLen / 8
  let lastSize := 512 - lastByte % 512
  let buf := buf.blit lastByte lastSize (fun _ => 0xff)
  clearBits buf lastByte (bitLen % 8) 0

def tailEnd (bitLen : Nat) : Nat := bitLen / 8 + (512 - bitLen / 8 % 512)

def bufSize (sb : SuperBlock) : Nat :=
  512 * max (max sb.blockBitmapSects.toNat sb.inodeBitmapSects.toNat) sb.inodeTableSects.toNat

def rootInode (sb : SuperBlock) : Inode :=
  ({ inodeInit 0 with iSize := sb.dirEntrySize * 2 } : Inode).setSector 0 sb.dataStartLba

def inodeBitmap : Mem := Mem.zero.setBit 0 true

end partitionFormat

open partitionFormat in
def partitionFormat (startLba secCnt : UInt32) : VolM Unit := do
  let sb := superBlock startLba secCnt
  ideWrite (startLba + 1) (encodeSuperBlock sb) 1
  Cmd.assert .overrun (tailEnd (blockBitmapBitLen secCnt).toNat ≤ bufSize sb)
  ideWrite sb.blockBitmapLba (blockBitmap (blockBitmapBitLen secCnt).toNat)
    sb.blockBitmapSects.toNat
  ideWrite sb.inodeBitmapLba inodeBitmap sb.inodeBitmapSects.toNat
  ideWrite sb.inodeTableLba (Mem.zero.blit 0 Inode.size (rootInode sb).encode)
    sb.inodeTableSects.toNat
  ideWrite sb.dataStartLba (dotSector 0 0) 1

def decodeSuperBlock (m : Mem) : SuperBlock where
  magic := m.word 0
  secCnt := m.word 4
  inodeCnt := m.word 8
  partLbaBase := m.word 12
  blockBitmapLba := m.word 16
  blockBitmapSects := m.word 20
  inodeBitmapLba := m.word 24
  inodeBitmapSects := m.word 28
  inodeTableLba := m.word 32
  inodeTableSects := m.word 36
  dataStartLba := m.word 40
  rootInodeNo := m.word 44
  dirEntrySize := m.word 48

def mountPartition (startLba : UInt32) : VolM SuperBlock := do
  let sbBuf ← ideRead (startLba + 1) 1
  let sb := decodeSuperBlock sbBuf
  let blockBits ← ideRead sb.blockBitmapLba sb.blockBitmapSects.toNat
  let inodeBits ← ideRead sb.inodeBitmapLba sb.inodeBitmapSects.toNat
  modify fun v => { v with blockBits := blockBits, inodeBits := inodeBits }
  pure sb

def initTask : Task where
  fdTable := fun i => if i.val < 3 then i.val else -1
  cwdInodeNr := 0

def Fs.init (v : Vol) : Fs where
  vol := v
  openInodes := []
  rootDir := 0
  fileTable := fun _ => ⟨0, 0, none⟩
  tasks := fun _ => initTask
  dirs := []

def openRootDir (part : Partition) : FsM Unit := do
  let addr ← inodeOpen part part.sb.rootInodeNo
  modify fun s => { s with rootDir := addr }

def filesysInit (part : Partition) : FsM Unit := do
  onVol (partitionFormat part.startLba part.secCnt)
  let _ ← onVol (mountPartition part.startLba)
  openRootDir part

end RogOS
