import RogOS.Fs.Impl.Inode

/-!
`dir.c`: looking up, inserting, deleting and listing the entries of a directory.
-/

namespace RogOS

variable (part : Partition)

def Partition.entriesPerSec : Nat := (512 / part.sb.dirEntrySize).toNat

def DirEntry.at (buf : Mem) (idx : Nat)
    : DirEntry := DirEntry.decode (buf.shift (idx * DirEntry.size))

def nameEq (buf : Mem) (idx : Nat) (name : List UInt8)
    : Bool := buf.strEq (idx * DirEntry.size) name

def findSlot (p : Nat → Bool) : (n idx : Nat) → Option Nat
  | 0, _ => none
  | n + 1, idx => if p idx then some idx else findSlot p n (idx + 1)

namespace searchDirEntry

def go (name : List UInt8) (blocks : Nat → UInt32) : (n blockIdx : Nat) → VolM (Option DirEntry)
  | 0, _ => pure none
  | n + 1, blockIdx =>
    if blocks blockIdx = 0 then
      go name blocks n (blockIdx + 1)
    else do
      let buf ← ideRead (blocks blockIdx) 1
      match findSlot (fun k => nameEq buf k name) part.entriesPerSec 0 with
      | some k => pure (some (DirEntry.at buf k))
      | none => go name blocks n (blockIdx + 1)

end searchDirEntry

def searchDirEntry (inode : Inode) (name : List UInt8) : VolM (Option DirEntry) := do
  let blocks ← allBlocks inode
  searchDirEntry.go part name blocks 140 0

def DirEntry.new (filename : List UInt8) (inodeNo : UInt32) (fileType : FileType) : DirEntry where
  filename := Vector.ofFn fun i => filename.getD i 0
  iNo := inodeNo
  fType := fileType.code

def createDirEntry {σ : Type} (filename : List UInt8) (inodeNo : UInt32) (fileType : FileType)
    : Cmd Fault σ DirEntry := do
  Cmd.assert .panic (filename.length ≤ 16)
  pure (DirEntry.new filename inodeNo fileType)

namespace syncDirEntry

def newSector (e : DirEntry) : Mem := Mem.zero.blit 0 part.sb.dirEntrySize.toNat e.encode

/--
`sync_dir_entry` finds no block at `blockIdx`: a block is allocated, entered in the inode or in the
indirect table, and the entry is written to it. `none` is a failed allocation.
-/
def newBlock (alloc : VolM (Option UInt32)) (e : DirEntry) (blockIdx : Nat) (blocks : Nat → UInt32)
    (inode : Inode) : VolM (Option (Nat → UInt32) × Inode) := do
  match ← alloc with
  | none => pure (none, inode)
  | some lba =>
    Cmd.assert .panic (part.blockIdx lba ≠ 0xffffffff)
    bitmapSync part (part.blockIdx lba) .block
    if blockIdx < 12 then
      ideWrite lba (newSector part e) 1
      pure (some (Function.update blocks blockIdx lba),
        (inode.setSector blockIdx lba).grow part.sb.dirEntrySize)
    else if blockIdx = 12 then
      let inode := inode.setSector 12 lba
      match ← alloc with
      | none =>
        setBit part .block (part.blockIdx (inode.sector 12)) false
        pure (none, inode.setSector 12 0)
      | some lba =>
        Cmd.assert .panic (part.blockIdx lba ≠ 0xffffffff)
        bitmapSync part (part.blockIdx lba) .block
        let blocks := Function.update blocks 12 lba
        ideWrite (inode.sector 12) (Mem.ofWords fun i => blocks (i + 12)) 1
        ideWrite lba (newSector part e) 1
        pure (some blocks, inode.grow part.sb.dirEntrySize)
    else
      let blocks := Function.update blocks blockIdx lba
      ideWrite (inode.sector 12) (Mem.ofWords fun i => blocks (i + 12)) 1
      ideWrite lba (newSector part e) 1
      pure (some blocks, inode.grow part.sb.dirEntrySize)

def fillSlot (e : DirEntry) (lba : UInt32) (inode : Inode) : VolM (Bool × Inode) := do
  let buf ← ideRead lba 1
  match findSlot (fun k => (DirEntry.at buf k).fType == FileType.unknown.code) part.entriesPerSec
    0 with
  | some k =>
    ideWrite lba (buf.blit (k * DirEntry.size) part.sb.dirEntrySize.toNat e.encode) 1
    pure (true, inode.grow part.sb.dirEntrySize)
  | none => pure (false, inode)

def go (alloc : VolM (Option UInt32)) (e : DirEntry)
    : (n blockIdx : Nat) → (blocks : Nat → UInt32) → (inode : Inode) → VolM (Bool × Inode)
  | 0, _, _, inode => pure (false, inode)
  | n + 1, blockIdx, blocks, inode =>
    if blocks blockIdx = 0 then do
      match ← newBlock part alloc e blockIdx blocks inode with
      | (none, inode) => pure (false, inode)
      | (some blocks, inode) =>
        -- no `return` after the new block is written: its slots are searched as well
        match ← fillSlot part e (blocks blockIdx) inode with
        | (true, inode) => pure (true, inode)
        | (false, inode) => go alloc e n (blockIdx + 1) blocks inode
    else do
      match ← fillSlot part e (blocks blockIdx) inode with
      | (true, inode) => pure (true, inode)
      | (false, inode) => go alloc e n (blockIdx + 1) blocks inode

end syncDirEntry

/--
`sync_dir_entry` on the inode of `parent_dir`, which is returned with the changes made to it.
`alloc` stands for `block_bitmap_alloc`. Only the direct blocks are collected before the loop.
-/
def syncDirEntryWith (alloc : VolM (Option UInt32)) (inode : Inode) (e : DirEntry)
    : VolM (Bool × Inode) := do
  Cmd.assert .panic (inode.iSize % part.sb.dirEntrySize = 0)
  let blocks := fun i => if i < 12 then inode.sector i else 0
  syncDirEntry.go part alloc e 140 0 blocks inode

def syncDirEntry (inode : Inode) (e : DirEntry) : VolM (Bool × Inode) :=
  syncDirEntryWith part (blockBitmapAlloc part) inode e

namespace deleteDirEntry

structure Scan where
  isDirFirstBlock : Bool
  dirEntryCnt : Nat
  dirEntryFound : Option Nat

def scan {σ : Type} (inodeNo : UInt32) (buf : Mem) : (n idx : Nat) → Scan → Cmd Fault σ Scan
  | 0, _, sc => pure sc
  | n + 1, idx, sc =>
    if (DirEntry.at buf idx).fType = FileType.unknown.code then
      scan inodeNo buf n (idx + 1) sc
    else if nameEq buf idx [46] then
      scan inodeNo buf n (idx + 1) { sc with isDirFirstBlock := true }
    else if nameEq buf idx [46, 46] then
      scan inodeNo buf n (idx + 1) sc
    else if (DirEntry.at buf idx).iNo = inodeNo then do
      Cmd.assert .panic (sc.dirEntryFound = none)
      scan inodeNo buf n (idx + 1)
        { sc with dirEntryCnt := sc.dirEntryCnt + 1, dirEntryFound := some idx }
    else
      scan inodeNo buf n (idx + 1) { sc with dirEntryCnt := sc.dirEntryCnt + 1 }

/--
The loop that counts the blocks of the indirect table, for `fuel` iterations. Its index is not
advanced.
-/
def countIndirect (blocks : Nat → UInt32)
    : (fuel indirectBlockIdx indirectBlocks : Nat) → Option Nat
  | 0, _, _ => none
  | fuel + 1, indirectBlockIdx, indirectBlocks =>
    if indirectBlockIdx < 140 then
      countIndirect blocks fuel indirectBlockIdx
        (if blocks indirectBlockIdx ≠ 0 then indirectBlocks + 1 else indirectBlocks)
    else
      some indirectBlocks

def unlink (blockIdx : Nat) (blocks : Nat → UInt32) (inode : Inode) : VolM Inode := do
  if blockIdx < 12 then
    pure (inode.setSector blockIdx 0)
  else
    match countIndirect blocks 129 12 0 with
    | none => throw .hang
    | some indirectBlocks =>
      Cmd.assert .panic (1 ≤ indirectBlocks)
      if 1 < indirectBlocks then
        let blocks := Function.update blocks blockIdx 0
        ideWrite (inode.sector 12) (Mem.ofWords fun i => blocks (i + 12)) 1
        pure inode
      else
        setBit part .block (part.blockIdx (inode.sector 12)) false
        bitmapSync part (part.blockIdx (inode.sector 12)) .block
        pure (inode.setSector 12 0)

def remove (blockIdx : Nat) (blocks : Nat → UInt32) (buf : Mem) (sc : Scan) (idx : Nat)
    (inode : Inode) : VolM Inode := do
  if sc.dirEntryCnt = 1 ∧ ¬ sc.isDirFirstBlock then
    setBit part .block (part.blockIdx (blocks blockIdx)) false
    bitmapSync part (part.blockIdx (blocks blockIdx)) .block
    unlink part blockIdx blocks inode
  else
    ideWrite (blocks blockIdx)
      (buf.blit (idx * DirEntry.size) part.sb.dirEntrySize.toNat Mem.zero) 1
    pure inode

def go (inodeNo : UInt32) (blocks : Nat → UInt32) (inode : Inode)
    : (n blockIdx : Nat) → VolM (Bool × Inode)
  | 0, _ => pure (false, inode)
  | n + 1, blockIdx =>
    if blocks blockIdx = 0 then
      go inodeNo blocks inode n (blockIdx + 1)
    else do
      let buf ← ideRead (blocks blockIdx) 1
      let sc ← scan inodeNo buf part.entriesPerSec 0 ⟨false, 0, none⟩
      match sc.dirEntryFound with
      | none => go inodeNo blocks inode n (blockIdx + 1)
      | some idx =>
        Cmd.assert .panic (1 ≤ sc.dirEntryCnt)
        let inode ← remove part blockIdx blocks buf sc idx inode
        Cmd.assert .panic (part.sb.dirEntrySize ≤ inode.iSize)
        let inode := { inode with iSize := inode.iSize - part.sb.dirEntrySize }
        inodeSync part 1024 inode
        pure (true, inode)

end deleteDirEntry

def deleteDirEntry (inode : Inode) (inodeNo : UInt32) : VolM (Bool × Inode) := do
  let blocks ← allBlocks inode
  deleteDirEntry.go part inodeNo blocks inode 140 0

namespace dirRead

def slots {σ : Type} (dirPos : UInt32) (buf : Mem)
    : (n dirEntryIdx : Nat) → (curDirEntryPos : UInt32) → Cmd Fault σ (Option Nat × UInt32)
  | 0, _, curDirEntryPos => pure (none, curDirEntryPos)
  | n + 1, dirEntryIdx, curDirEntryPos =>
    if (DirEntry.at buf dirEntryIdx).fType ≠ FileType.unknown.code then
      if curDirEntryPos < dirPos then
        slots dirPos buf n (dirEntryIdx + 1) (curDirEntryPos + part.sb.dirEntrySize)
      else do
        Cmd.assert .panic (curDirEntryPos = dirPos)
        pure (some dirEntryIdx, curDirEntryPos)
    else
      slots dirPos buf n (dirEntryIdx + 1) curDirEntryPos

def go (dirPos iSize : UInt32) (blocks : Nat → UInt32)
    : (n blockIdx : Nat) → (curDirEntryPos : UInt32) → VolM (Option DirEntry)
  | 0, _, _ => pure none
  | n + 1, blockIdx, curDirEntryPos =>
    if iSize ≤ dirPos then
      pure none
    else if blocks blockIdx = 0 then
      go dirPos iSize blocks n (blockIdx + 1) curDirEntryPos
    else do
      let buf ← ideRead (blocks blockIdx) 1
      match ← slots part dirPos buf part.entriesPerSec 0 curDirEntryPos with
      | (some dirEntryIdx, _) => pure (some (DirEntry.at buf dirEntryIdx))
      | (none, curDirEntryPos) => go dirPos iSize blocks n (blockIdx + 1) curDirEntryPos

end dirRead

def dirRead (inode : Inode) (dirPos : UInt32) : VolM (Option DirEntry × UInt32) := do
  let blocks ← allBlocks inode
  match ← dirRead.go part dirPos inode.iSize blocks (if inode.sector 12 ≠ 0 then 140
    else 12) 0 0 with
  | some e => pure (some e, dirPos + part.sb.dirEntrySize)
  | none => pure (none, dirPos)

def dirIsEmpty (inode : Inode) : Bool := inode.iSize == part.sb.dirEntrySize * 2

end RogOS
