import RogOS.Fs.Impl.File
import RogOS.Fs.Impl.Path

/-!
The file table functions of `file.c` and the system calls of `fs.c`. The calling task is passed to
those that use `running_thread()`.
-/

namespace RogOS

variable (part : Partition)

def oWronly : UInt8 := 1
def oRdwr : UInt8 := 2
def oCreat : UInt8 := 4

def writes (flag : UInt8) : Bool := flag &&& oWronly != 0 || flag &&& oRdwr != 0

def Fs.setFile (s : Fs) (fdIdx : Fin 32) (file : File) : Fs :=
  { s with fileTable := Function.update s.fileTable fdIdx file }

def Fs.setFd (s : Fs) (task : Nat) (fd : Fin 8) (g : Int) : Fs :=
  { s with
    tasks := Function.update s.tasks task
      { s.tasks task with fdTable := Function.update (s.tasks task).fdTable fd g } }

def onInode {α : Type} (addr : Nat) (f : Inode → VolM (α × Inode)) : FsM α := do
  let inode ← derefInode addr
  let r ← onVol (f inode)
  modify fun s => s.updInode addr fun _ => r.2
  pure r.1

def getFreeSlotInGlobal (s : Fs) : Option (Fin 32) :=
  (List.finRange 32).find? fun i => 3 ≤ i.val && (s.fileTable i).fdInode == none

def pcbFdInstall (task : Nat) (globalFdIdx : Fin 32) : FsM Int := do
  let s ← get
  match (List.finRange 8).find? fun i => 3 ≤ i.val && (s.tasks task).fdTable i == -1 with
  | none => pure (-1)
  | some localFdIdx =>
    modify fun s => s.setFd task localFdIdx globalFdIdx.val
    pure localFdIdx.val

def fileCreate (task : Nat) (parentDir : DirRef) (filename : List UInt8) (flag : UInt8)
    : FsM Int := do
  match ← onVol (inodeBitmapAlloc part) with
  | none => pure (-1)
  | some inodeNo =>
    let s ← get
    let addr := s.newAddr
    let newFileInode := inodeInit inodeNo
    match getFreeSlotInGlobal s with
    | none =>
      onVol (setBit part .inode inodeNo.toNat false)
      pure (-1)
    | some fdIdx =>
      modify fun s => s.setFile fdIdx ⟨0, flag, some addr⟩
      let newDirEntry ← createDirEntry filename inodeNo .regular
      if ← onInode (s.dirInode parentDir) (fun i => syncDirEntry part i newDirEntry) then
        let parent ← derefInode (s.dirInode parentDir)
        onVol (inodeSync part 1024 parent)
        onVol (inodeSync part 1024 newFileInode)
        onVol (bitmapSync part inodeNo.toNat .inode)
        modify fun s => s.pushInode addr { newFileInode with iOpenCnts := 1 }
        pcbFdInstall task fdIdx
      else
        modify fun s => s.setFile fdIdx ⟨0, 0, none⟩
        onVol (setBit part .inode inodeNo.toNat false)
        pure (-1)

def fileOpen (task : Nat) (inodeNo : UInt32) (flag : UInt8) : FsM Int := do
  let s ← get
  match getFreeSlotInGlobal s with
  | none => pure (-1)
  | some fdIdx =>
    let addr ← inodeOpen part inodeNo
    modify fun s => s.setFile fdIdx ⟨0, flag, some addr⟩
    if writes flag then
      let inode ← derefInode addr
      if inode.writeDeny then
        -- the slot of the file table and the inode stay taken
        pure (-1)
      else
        modify fun s => s.updInode addr fun i => { i with writeDeny := true }
        pcbFdInstall task fdIdx
    else
      pcbFdInstall task fdIdx

def fileClose (fdIdx : Fin 32) : FsM Unit := do
  let s ← get
  match (s.fileTable fdIdx).fdInode with
  | none => throw .badPtr
  | some addr =>
    modify fun s => s.updInode addr fun i => { i with writeDeny := false }
    inodeClose addr
    modify fun s => s.setFile fdIdx { s.fileTable fdIdx with fdInode := none }

def lastName {σ : Type} (path : List UInt8) : Cmd Fault σ (List UInt8) := do
  Cmd.assert .badPtr (47 ∈ path)
  pure (path.reverse.takeWhile (· != 47)).reverse

def sysOpen (task : Nat) (junk : UInt32) (pathname : CStr) (flags : UInt8) : FsM Int := do
  -- `pathname[strlen(pathname) - 1]` is in front of an empty string
  Cmd.assert .overrun (pathname.chars ≠ [])
  if pathname.chars.getLast? = some 47 then
    pure (-1)
  else
    Cmd.assert .panic (flags ≤ 7)
    let pathnameDepth ← pathDepthCnt pathname.chars
    let (inodeNo, rec) ← searchFile part junk pathname.chars
    if rec.fileType = .directory then
      dirClose rec.parentDir
      pure (-1)
    else
      let pathSearchedDepth ← pathDepthCnt rec.searchedPath
      if pathnameDepth ≠ pathSearchedDepth then
        dirClose rec.parentDir
        pure (-1)
      else if inodeNo = notFound ∧ flags &&& oCreat = 0 then
        dirClose rec.parentDir
        pure (-1)
      else if inodeNo ≠ notFound ∧ flags &&& oCreat ≠ 0 then
        dirClose rec.parentDir
        pure (-1)
      else if flags &&& oCreat ≠ 0 then
        let filename ← lastName pathname.chars
        let fd ← fileCreate part task rec.parentDir filename flags
        dirClose rec.parentDir
        pure fd
      else
        -- `rec.parentDir` stays open
        fileOpen part task inodeNo flags

def fdLocal2Global (task : Nat) (localFd : Nat) : FsM (Fin 32) := do
  let s ← get
  if h : localFd < 8 then
    let globalFd := (s.tasks task).fdTable ⟨localFd, h⟩
    if hg : 0 ≤ globalFd ∧ globalFd < 32 then
      pure ⟨globalFd.toNat, by omega⟩
    else
      throw .panic
  else
    throw .overrun

theorem toNat_lt_of_open {fd : Int} (h : 2 < fd ∧ fd < 8) : fd.toNat < 8 := by
  omega

def sysClose (task : Nat) (fd : Int) : FsM Int := do
  if h : 2 < fd ∧ fd < 8 then
    let globalFd ← fdLocal2Global task fd.toNat
    fileClose globalFd
    modify fun s => s.setFd task ⟨fd.toNat, toNat_lt_of_open h⟩ (-1)
    pure 0
  else if 2 < fd then
    throw .overrun
  else
    pure (-1)

def writeFile (fdIdx : Fin 32) (buf : Mem) (count : UInt32) : FsM Int := do
  let s ← get
  match (s.fileTable fdIdx).fdInode with
  | none => throw .badPtr
  | some addr =>
    let r ← onInode addr fun i => do
      let r ← fileWrite part (s.fileTable fdIdx).fdPos i buf count
      pure ((r.1, r.2.1), r.2.2)
    modify fun s => s.setFile fdIdx { s.fileTable fdIdx with fdPos := r.2 }
    pure r.1

def readFile (fdIdx : Fin 32) (buf : Mem) (count : UInt32) : FsM (Int × Mem) := do
  let s ← get
  match (s.fileTable fdIdx).fdInode with
  | none => throw .badPtr
  | some addr =>
    let inode ← derefInode addr
    let r ← onVol (fileRead (s.fileTable fdIdx).fdPos inode buf count)
    modify fun s => s.setFile fdIdx { s.fileTable fdIdx with fdPos := r.2.2 }
    pure (r.1, r.2.1)

def sysWrite (task : Nat) (fd : Int) (buf : Mem) (count : UInt32) : FsM Int := do
  if fd < 0 then
    pure (-1)
  else if fd = 1 then
    -- `tmp_buf` has 1024 bytes
    Cmd.assert .overrun (count.toNat ≤ 1024)
    pure count.toNat
  else
    let fdIdx ← fdLocal2Global task fd.toNat
    let s ← get
    if writes (s.fileTable fdIdx).fdFlag then
      writeFile part fdIdx buf count
    else
      pure (-1)

def sysRead (task : Nat) (kbd : Mem) (fd : Int) (buf : Mem) (count : UInt32) : FsM (Int × Mem) := do
  if fd < 0 ∨ fd = 1 ∨ fd = 2 then
    pure (-1, buf)
  else if fd = 0 then
    pure (if count = 0 then -1 else count.toInt32.toInt, buf.blit 0 count.toNat kbd)
  else
    let fdIdx ← fdLocal2Global task fd.toNat
    readFile fdIdx buf count

def seekSet : Nat := 1
def seekCur : Nat := 2
def sysLseek (task : Nat) (fd : Int) (offset : Int32) (whence : Nat) : FsM Int := do
  if fd < 0 then
    pure (-1)
  else
    Cmd.assert .panic (0 < whence ∧ whence < 4)
    let fdIdx ← fdLocal2Global task fd.toNat
    let s ← get
    match (s.fileTable fdIdx).fdInode with
    | none => throw .badPtr
    | some addr =>
      let inode ← derefInode addr
      let fileSize := inode.iSize.toInt32
      let newPos :=
        if whence = seekSet then offset
        else if whence = seekCur then (s.fileTable fdIdx).fdPos.toInt32 + offset
        else fileSize + offset
      if newPos < 0 ∨ fileSize - 1 < newPos then
        pure (-1)
      else
        modify fun s => s.setFile fdIdx { s.fileTable fdIdx with fdPos := newPos.toUInt32 }
        pure newPos.toInt

def fileInUse (inodeNo : UInt32) : List (Fin 32) → FsM Bool
  | [] => pure false
  | fileIdx :: rest => do
    let s ← get
    match (s.fileTable fileIdx).fdInode with
    | none => fileInUse inodeNo rest
    | some addr =>
      let inode ← derefInode addr
      if inode.iNo = inodeNo then
        pure true
      else
        fileInUse inodeNo rest

def sysUnlink (junk : UInt32) (pathname : CStr) : FsM Int := do
  Cmd.assert .panic (pathname.chars.length < 512)
  let (inodeNo, rec) ← searchFile part junk pathname.chars
  Cmd.assert .panic (inodeNo ≠ 0)
  if inodeNo = notFound then
    dirClose rec.parentDir
    pure (-1)
  else if rec.fileType = .directory then
    dirClose rec.parentDir
    pure (-1)
  else if ← fileInUse inodeNo (List.finRange 32) then
    dirClose rec.parentDir
    pure (-1)
  else
    let s ← get
    let _ ← onInode (s.dirInode rec.parentDir) (fun i => deleteDirEntry part i inodeNo)
    inodeRelease part inodeNo
    dirClose rec.parentDir
    pure 0

def dotSector (inodeNo parentNo : UInt32) : Mem :=
  (Mem.zero.blit 0 DirEntry.size (DirEntry.new [46] inodeNo .directory).encode).blit
    DirEntry.size DirEntry.size (DirEntry.new [46, 46] parentNo .directory).encode

/--
The part of `sys_mkdir` behind the lookup of the path, up to the rollback that clears the inode bit.
`ialloc` and `balloc` stand for `inode_bitmap_alloc` and `block_bitmap_alloc`. The result is the
inode of the parent directory if it was changed on success.
-/
def makeDir (ialloc balloc : VolM (Option UInt32)) (parent : Inode) (dirname : List UInt8)
    : VolM (Bool × Inode) := do
  match ← ialloc with
  | none => pure (false, parent)
  | some inodeNo =>
    match ← balloc with
    | none =>
      setBit part .inode inodeNo.toNat false
      pure (false, parent)
    | some lba =>
      let newDirInode := (inodeInit inodeNo).setSector 0 lba
      Cmd.assert .panic (part.blockIdx lba ≠ 0)
      bitmapSync part (part.blockIdx lba) .block
      ideWrite lba (dotSector inodeNo parent.iNo) 1
      let newDirInode := { newDirInode with iSize := 2 * part.sb.dirEntrySize }
      let newDirEntry ← createDirEntry dirname inodeNo .directory
      match ← syncDirEntryWith part balloc parent newDirEntry with
      | (false, parent) =>
        setBit part .inode inodeNo.toNat false
        pure (false, parent)
      | (true, parent) =>
        inodeSync part 1024 parent
        inodeSync part 1024 newDirInode
        bitmapSync part inodeNo.toNat .inode
        pure (true, parent)

def sysMkdirWith (ialloc balloc : VolM (Option UInt32)) (junk : UInt32) (pathname : CStr)
    : FsM Int := do
  let (inodeNo, rec) ← searchFile part junk pathname.chars
  if inodeNo ≠ notFound then
    dirClose rec.parentDir
    pure (-1)
  else
    let pathnameDepth ← pathDepthCnt pathname.chars
    let pathSearchedDepth ← pathDepthCnt rec.searchedPath
    if pathnameDepth ≠ pathSearchedDepth then
      dirClose rec.parentDir
      pure (-1)
    else
      let dirname ← lastName rec.searchedPath
      let s ← get
      let ok ← onInode (s.dirInode rec.parentDir) (fun i => makeDir part ialloc balloc i dirname)
      dirClose rec.parentDir
      pure (if ok then 0 else -1)

def sysMkdir (junk : UInt32) (pathname : CStr) : FsM Int :=
  sysMkdirWith part (inodeBitmapAlloc part) (blockBitmapAlloc part) junk pathname

def dirRemove (parentDir : DirRef) (addr : Nat) : FsM Unit := do
  let child ← derefInode addr
  Cmd.assert .panic ((List.range 12).all fun i => child.sector (i + 1) == 0)
  let s ← get
  let _ ← onInode (s.dirInode parentDir) (fun i => deleteDirEntry part i child.iNo)
  inodeRelease part child.iNo

def sysRmdir (junk : UInt32) (pathname : CStr) : FsM Int := do
  let (inodeNo, rec) ← searchFile part junk pathname.chars
  Cmd.assert .panic (inodeNo ≠ 0)
  if inodeNo = notFound then
    dirClose rec.parentDir
    pure (-1)
  else if rec.fileType = .regular then
    dirClose rec.parentDir
    pure (-1)
  else
    let addr ← inodeOpen part inodeNo
    let dir ← derefInode addr
    if dirIsEmpty part dir then
      dirRemove part rec.parentDir addr
      inodeClose addr
      dirClose rec.parentDir
      pure 0
    else
      inodeClose addr
      dirClose rec.parentDir
      pure (-1)

inductive DirPtr where
  | root
  | opened (id : Nat)
  deriving DecidableEq, Repr

def Fs.newDirId (s : Fs) : Nat := Assoc.fresh s.dirs

def sysOpendir (junk : UInt32) (name : CStr) : FsM (Option DirPtr) := do
  Cmd.assert .panic (name.chars.length < 512)
  if name.chars = [47] then
    pure (some .root)
  else
    let (inodeNo, rec) ← searchFile part junk name.chars
    if inodeNo ≠ notFound ∧ rec.fileType = .directory then
      let addr ← inodeOpen part inodeNo
      dirClose rec.parentDir
      let s ← get
      modify fun s => { s with dirs := (s.newDirId, ⟨addr, 0⟩) :: s.dirs }
      pure (some (.opened s.newDirId))
    else
      dirClose rec.parentDir
      pure none

def sysClosedir (dir : Option DirPtr) : FsM Int := do
  match dir with
  | none => pure (-1)
  | some .root => pure 0
  | some (.opened id) =>
    let s ← get
    match s.dirs.lookup id with
    | none => throw .badPtr
    | some d =>
      inodeClose d.inode
      modify fun s => { s with dirs := Assoc.erase s.dirs id }
      pure 0

def sysReaddir (dir : Dir) : FsM (Option DirEntry × Dir) := do
  let inode ← derefInode dir.inode
  let (e, dirPos) ← onVol (dirRead part inode dir.dirPos)
  pure (e, { dir with dirPos := dirPos })

def sysRewinddir (dir : Dir) : Dir := { dir with dirPos := 0 }

def sysChdir (task : Nat) (junk : UInt32) (path : CStr) : FsM Int := do
  let (inodeNo, rec) ← searchFile part junk path.chars
  if inodeNo ≠ notFound ∧ rec.fileType = .directory then
    modify fun s =>
      { s with tasks := Function.update s.tasks task { s.tasks task with cwdInodeNr := inodeNo } }
    dirClose rec.parentDir
    pure 0
  else
    dirClose rec.parentDir
    pure (-1)

structure Stat where
  stIno : UInt32
  stSize : UInt32
  stFiletype : FileType
  deriving DecidableEq, Repr

def sysStat (junk : UInt32) (path : CStr) : FsM (Option Stat) := do
  if path.chars = [47] ∨ path.chars = [47, 46] ∨ path.chars = [47, 46, 46] then
    let s ← get
    let root ← derefInode s.rootDir
    pure (some ⟨0, root.iSize, .directory⟩)
  else
    let (inodeNo, rec) ← searchFile part junk path.chars
    if inodeNo ≠ notFound then
      let addr ← inodeOpen part inodeNo
      let inode ← derefInode addr
      inodeClose addr
      dirClose rec.parentDir
      pure (some ⟨inodeNo, inode.iSize, rec.fileType⟩)
    else
      dirClose rec.parentDir
      pure none

end RogOS
