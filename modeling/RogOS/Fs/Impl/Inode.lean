import RogOS.Fs.Impl.Bitmap

/-!
`inode.c`: the place of an inode in the table on disk, and the inodes that are open in memory.
-/

namespace RogOS

variable (part : Partition)

structure InodePosition where
  twoSec : Bool
  secLba : UInt32
  offSize : Nat

def inodeLocate {σ : Type} (inodeNo : UInt32) : Cmd Fault σ InodePosition := do
  Cmd.assert .panic (inodeNo.toNat < 4096)
  let offSize := inodeNo.toNat * Inode.size
  let offSec := offSize / 512
  let offSizeInSec := offSize % 512
  pure {
    twoSec := 512 - offSizeInSec < Inode.size
    secLba := part.sb.inodeTableLba + UInt32.ofNat offSec
    offSize := offSizeInSec
  }

def InodePosition.secCnt (pos : InodePosition) : Nat := if pos.twoSec then 2 else 1

/-- The sectors of an inode are read into a buffer, `src` is put in the place of the inode, and the
sectors are written back. -/
def inodeUpdate (pos : InodePosition) (bufSize : Nat) (src : Mem) : VolM Unit := do
  Cmd.assert .panic (pos.secLba.toNat ≤ (part.startLba + part.secCnt).toNat)
  Cmd.assert .overrun (512 * pos.secCnt ≤ bufSize)
  let inodeBuf ← ideRead pos.secLba pos.secCnt
  ideWrite pos.secLba (inodeBuf.blit pos.offSize Inode.size src) pos.secCnt

def inodeSync (bufSize : Nat) (inode : Inode) : VolM Unit := do
  -- `uint8_t inode_no = inode->i_no`
  let inodeNo : UInt8 := inode.iNo.toUInt8
  let inodePos ← inodeLocate part inodeNo.toUInt32
  inodeUpdate part inodePos bufSize inode.pure.encode

def inodeDelete (bufSize : Nat) (inodeNo : UInt32) : VolM Unit := do
  let inodePos ← inodeLocate part inodeNo
  inodeUpdate part inodePos bufSize Mem.zero

def inodeLoad (inodeNo : UInt32) : VolM Inode := do
  let inodePos ← inodeLocate part inodeNo
  let inodeBuf ← ideRead inodePos.secLba inodePos.secCnt
  pure (Inode.decode (inodeBuf.shift inodePos.offSize))

def inodeInit (inodeNo : UInt32) : Inode where
  iNo := inodeNo
  iSize := 0
  iOpenCnts := 0
  writeDeny := false
  iSectors := Vector.replicate 13 0

/--
The 12 direct blocks and the 128 blocks of the indirect table, as `search_dir_entry`,
`delete_dir_entry`, `dir_read` and `inode_release` collect them in `all_blocks`.
-/
def allBlocks (inode : Inode) : VolM (Nat → UInt32) := do
  if inode.sector 12 ≠ 0 then
    let table ← ideRead (inode.sector 12) 1
    pure fun i => if i < 12 then inode.sector i else table.word (4 * (i - 12))
  else
    pure fun i => if i < 12 then inode.sector i else 0

section Open

def Fs.inode? (s : Fs) (addr : Nat) : Option Inode := s.openInodes.lookup addr

def Fs.newAddr (s : Fs) : Nat := Assoc.fresh s.openInodes

def Fs.updInode (s : Fs) (addr : Nat) (f : Inode → Inode) : Fs :=
  { s with openInodes := Assoc.adjust s.openInodes addr f }

def Fs.pushInode (s : Fs) (addr : Nat) (inode : Inode) : Fs :=
  { s with openInodes := (addr, inode) :: s.openInodes }

def Fs.dropInode (s : Fs) (addr : Nat) : Fs :=
  { s with openInodes := Assoc.erase s.openInodes addr }

def derefInode (addr : Nat) : FsM Inode := do
  let s ← get
  match s.inode? addr with
  | some inode => pure inode
  | none => throw .badPtr

def inodeOpen (inodeNo : UInt32) : FsM Nat := do
  let s ← get
  match s.openInodes.find? (fun p => p.2.iNo == inodeNo) with
  | some (addr, _) =>
    modify fun s => s.updInode addr fun i => { i with iOpenCnts := i.iOpenCnts + 1 }
    pure addr
  | none =>
    let inode ← onVol (inodeLoad part inodeNo)
    let addr := s.newAddr
    modify fun s => s.pushInode addr { inode with iOpenCnts := 1 }
    pure addr

def inodeClose (addr : Nat) : FsM Unit := do
  let inode ← derefInode addr
  if inode.iOpenCnts - 1 = 0 then
    modify fun s => s.dropInode addr
  else
    modify fun s => s.updInode addr fun i => { i with iOpenCnts := i.iOpenCnts - 1 }

def releaseBlock (lba : UInt32) : VolM Unit :=
  if lba ≠ 0 then do
    Cmd.assert .panic (0 < part.blockIdx lba)
    setBit part .block (part.blockIdx lba) false
    bitmapSync part (part.blockIdx lba) .block
  else
    pure ()

def releaseBlocks (blocks : Nat → UInt32) : (n blockIdx : Nat) → VolM Unit
  | 0, _ => pure ()
  | n + 1, blockIdx => do
    releaseBlock part (blocks blockIdx)
    releaseBlocks blocks n (blockIdx + 1)

def releaseInode (inode : Inode) (inodeNo : UInt32) : VolM Unit := do
  Cmd.assert .panic (inode.iNo = inodeNo)
  let blocks ← allBlocks inode
  releaseBlock part (inode.sector 12)
  releaseBlocks part blocks (if inode.sector 12 ≠ 0 then 140 else 12) 0
  setBit part .inode inodeNo.toNat false
  bitmapSync part inodeNo.toNat .inode
  inodeDelete part 1024 inodeNo

def inodeRelease (inodeNo : UInt32) : FsM Unit := do
  let addr ← inodeOpen part inodeNo
  let inode ← derefInode addr
  onVol (releaseInode part inode inodeNo)
  inodeClose addr

end Open

end RogOS
