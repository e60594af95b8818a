import RogOS.Fs.Impl.Syscall
import RogOS.Lib.Str

/-!
`get_parent_dir_inode_nr`, `get_child_dir_name` and `sys_getcwd` of `fs.c`.
-/

namespace RogOS

variable (part : Partition)

def getParentDirInodeNr (childInodeNr : UInt32) : FsM UInt32 := do
  let addr ← inodeOpen part childInodeNr
  let childDirInode ← derefInode addr
  let blockLba := childDirInode.sector 0
  Cmd.assert .panic (part.sb.dataStartLba ≤ blockLba)
  inodeClose addr
  let ioBuf ← onVol (ideRead blockLba 1)
  -- slot 1 is that of `..`
  let dirE := DirEntry.at ioBuf 1
  Cmd.assert .panic (dirE.iNo.toNat < 4096 ∧ dirE.fType = FileType.directory.code)
  pure dirE.iNo

namespace getChildDirName

def addName {σ : Type} (path : List UInt8) (ioBuf : Mem) (idx : Nat)
    : Cmd Fault σ (List UInt8) := do
  let path ← strcat path [47]
  let filename := ioBuf.chars (idx * DirEntry.size) (512 - idx * DirEntry.size)
  Cmd.assert .overrun (filename.length < 512 - idx * DirEntry.size)
  strcat path filename

def go (cInodeNr : UInt32) (path : List UInt8) (blocks : Nat → UInt32)
    : (n blockIdx : Nat) → VolM (Option (List UInt8))
  | 0, _ => pure none
  | n + 1, blockIdx =>
    if blocks blockIdx ≠ 0 then do
      let ioBuf ← ideRead (blocks blockIdx) 1
      match findSlot (fun k => (DirEntry.at ioBuf k).iNo == cInodeNr) part.entriesPerSec 0 with
      | some k =>
        let path ← addName path ioBuf k
        pure (some path)
      | none => go cInodeNr path blocks n (blockIdx + 1)
    else
      go cInodeNr path blocks n (blockIdx + 1)

end getChildDirName

def getChildDirName (pInodeNr cInodeNr : UInt32) (path : List UInt8)
    : FsM (Option (List UInt8)) := do
  let addr ← inodeOpen part pInodeNr
  let parentDirInode ← derefInode addr
  let blocks ← onVol (allBlocks parentDirInode)
  let blockCnt := if parentDirInode.sector 12 ≠ 0 then 140 else 12
  inodeClose addr
  onVol (getChildDirName.go part cInodeNr path blocks blockCnt 0)

namespace sysGetcwd

def climb
    : (fuel : Nat) → (childInodeNr : UInt32) → (fullPathReverse : List UInt8)
        → FsM (Option (List UInt8))
  | 0, _, _ => throw .hang
  | fuel + 1, childInodeNr, fullPathReverse =>
    if childInodeNr = 0 then
      pure (some fullPathReverse)
    else do
      let parentInodeNr ← getParentDirInodeNr part childInodeNr
      match ← getChildDirName part parentInodeNr childInodeNr fullPathReverse with
      | none => pure none
      | some fullPathReverse => climb fuel parentInodeNr fullPathReverse

/--
The loop of `sys_getcwd` that moves the names of `full_path_reverse` to `buf`, the last one first.
-/
def turn {σ : Type} (size : Nat)
    : (fuel : Nat) → (fullPathReverse buf : List UInt8) → Cmd Fault σ (List UInt8)
  | 0, _, _ => throw .hang
  | fuel + 1, fullPathReverse, buf =>
    match Str.strrchr fullPathReverse 47 with
    | none => pure buf
    | some lastSlash => do
      Cmd.assert .overrun ((buf ++ fullPathReverse.drop lastSlash).length < size)
      turn size fuel (fullPathReverse.take lastSlash) (buf ++ fullPathReverse.drop lastSlash)

end sysGetcwd

def sysGetcwd (task size : Nat) : FsM (Option (List UInt8)) := do
  let s ← get
  let childInodeNr := (s.tasks task).cwdInodeNr
  Cmd.assert .panic (childInodeNr.toNat < 4096)
  if childInodeNr = 0 then
    Cmd.assert .overrun (1 < size)
    pure (some [47])
  else
    match ← sysGetcwd.climb part 512 childInodeNr [] with
    | none => pure none
    | some fullPathReverse =>
      Cmd.assert .panic (fullPathReverse.length ≤ size)
      let buf ← sysGetcwd.turn size 512 fullPathReverse []
      pure (some buf)

end RogOS
