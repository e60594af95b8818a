import RogOS.Basic
import RogOS.Lib.Assoc
import RogOS.Lib.Cmd
import RogOS.Lib.Mem

/-!
The data model of the file system: the structures of `inode.h`, `dir.h`, `file.h`, `super_block.h`
and `ide.h`, with the byte layout of those that are stored on disk.
-/

namespace RogOS

inductive FileType where
  | unknown
  | regular
  | directory
  deriving DecidableEq, Repr

def FileType.code : FileType → UInt32
  | .unknown => 0
  | .regular => 1
  | .directory => 2

structure Inode where
  iNo : UInt32
  iSize : UInt32
  iOpenCnts : Nat
  writeDeny : Bool
  iSectors : Vector UInt32 13
  deriving DecidableEq, Repr

namespace Inode

def size : Nat := 76

def sector (ino : Inode) (i : Nat) : UInt32 := (ino.iSectors[i]?).getD 0

def setSector (ino : Inode) (i : Nat) (lba : UInt32) : Inode :=
  { ino with iSectors := ino.iSectors.setIfInBounds i lba }

def grow (ino : Inode) (n : UInt32) : Inode := { ino with iSize := ino.iSize + n }

def pure (ino : Inode) : Inode := { ino with iOpenCnts := 0, writeDeny := false }

def encode (ino : Inode) : Mem := fun i =>
  if i < 4 then Mem.ofWord ino.iNo i
  else if i < 8 then Mem.ofWord ino.iSize (i - 4)
  else if i < 12 then Mem.ofWord (UInt32.ofNat ino.iOpenCnts) (i - 8)
  else if i < 16 then Mem.ofWord (if ino.writeDeny then 1 else 0) (i - 12)
  else if i < 68 then Mem.ofWords ino.sector (i - 16)
  else 0

def decode (m : Mem) : Inode where
  iNo := m.word 0
  iSize := m.word 4
  iOpenCnts := (m.word 8).toNat
  writeDeny := m.word 12 != 0
  iSectors := Vector.ofFn fun i => m.word (16 + 4 * i)

end Inode

structure DirEntry where
  filename : Vector UInt8 16
  iNo : UInt32
  fType : UInt32
  deriving DecidableEq, Repr

namespace DirEntry

def size : Nat := 24

def encode (e : DirEntry) : Mem := fun i =>
  if i < 16 then (e.filename[i]?).getD 0
  else if i < 20 then Mem.ofWord e.iNo (i - 16)
  else Mem.ofWord e.fType (i - 20)

def decode (m : Mem) : DirEntry where
  filename := Vector.ofFn fun i => m i
  iNo := m.word 16
  fType := m.word 20

end DirEntry

structure SuperBlock where
  magic : UInt32
  secCnt : UInt32
  inodeCnt : UInt32
  partLbaBase : UInt32
  blockBitmapLba : UInt32
  blockBitmapSects : UInt32
  inodeBitmapLba : UInt32
  inodeBitmapSects : UInt32
  inodeTableLba : UInt32
  inodeTableSects : UInt32
  dataStartLba : UInt32
  rootInodeNo : UInt32
  dirEntrySize : UInt32
  deriving DecidableEq, Repr

def maxLba : Nat := 163839

/--
The order and the sizes of the areas of a partition: super block, block bitmap, inode bitmap, inode
table and `bitLen` data blocks, all on the disk.
-/
structure Layout (startLba secCnt : UInt32) (sb : SuperBlock) (bitLen : Nat) : Prop where
  blockBitmap : startLba.toNat + 2 = sb.blockBitmapLba.toNat
  inodeBitmap : sb.blockBitmapLba.toNat + sb.blockBitmapSects.toNat = sb.inodeBitmapLba.toNat
  inodeTable : sb.inodeBitmapLba.toNat + 1 = sb.inodeTableLba.toNat
  dataStart : sb.inodeTableLba.toNat + 608 = sb.dataStartLba.toNat
  bits : bitLen ≤ 4096 * sb.blockBitmapSects.toNat
  sects : 4096 * sb.blockBitmapSects.toNat < bitLen + 4096
  blocks : sb.dataStartLba.toNat + bitLen ≤ startLba.toNat + secCnt.toNat
  onDisk : startLba.toNat + secCnt.toNat ≤ 163840
  rootNo : sb.rootInodeNo = 0
  entrySize : sb.dirEntrySize = 24

structure Partition where
  startLba : UInt32
  secCnt : UInt32
  sb : SuperBlock
  -- The number of data blocks, `block_bitmap_bit_len` of `partition_format`.
  bitLen : Nat
  layout : Layout startLba secCnt sb bitLen

structure Bitmap where
  btmpBytesLen : Nat
  bits : Mem

structure Vol where
  disk : Mem
  blockBits : Mem
  inodeBits : Mem

abbrev VolM := Cmd Fault Vol

structure File where
  fdPos : UInt32
  fdFlag : UInt8
  fdInode : Option Nat
  deriving DecidableEq, Repr

structure Dir where
  inode : Nat
  dirPos : UInt32
  deriving DecidableEq, Repr

structure Task where
  fdTable : Fin 8 → Int
  cwdInodeNr : UInt32

structure Fs where
  vol : Vol
  -- `cur_part->open_inodes`, every inode with its address.
  openInodes : List (Nat × Inode)
  -- `root_dir.inode`
  rootDir : Nat
  fileTable : Fin 32 → File
  tasks : Nat → Task
  -- The `struct dir` objects that `sys_opendir` returned and `sys_closedir` did not free.
  dirs : List (Nat × Dir)

abbrev FsM := Cmd Fault Fs

def onVol {α : Type} (x : VolM α) : FsM α := Cmd.zoom Fs.vol (fun s v => { s with vol := v }) x

structure CStr where
  chars : List UInt8
  nulFree : 0 ∉ chars

end RogOS
