import RogOS.Fs.Impl.Syscall

/-!
The heap that every inode in memory was allocated from: `sys_malloc` and `sys_free` use that of the
kernel if the `pgdir` of the running task is `NULL`. The functions that allocate, free or pass on
inodes, with the heap of each inode beside the file system; all else is as in the functions of the
same name.
-/

namespace RogOS

inductive PoolFlag where
  | kernel
  | user
  deriving DecidableEq, Repr

structure PooledFs where
  fs : Fs
  -- The tasks whose `pgdir` is not `NULL`
  pgdir : Nat → Bool
  -- The heap of the inode at an address
  pool : Nat → PoolFlag

abbrev PooledM := Cmd Fault PooledFs

namespace Pooled

def onFs {α : Type} (x : FsM α)
    : PooledM α := Cmd.zoom PooledFs.fs (fun p s => { p with fs := s }) x

variable (part : Partition) (task : Nat)

def sysMalloc (addr : Nat) : PooledM Unit :=
  modify fun p =>
    { p with pool := Function.update p.pool addr (if p.pgdir task then .user else .kernel) }

def sysFree (addr : Nat) : PooledM Unit := do
  let p ← get
  Cmd.assert .panic (p.pgdir task = false → p.pool addr = .kernel)

def asKernel (x : PooledM Unit) : PooledM Unit := do
  let p ← get
  let curPagedirBak := p.pgdir task
  modify fun p => { p with pgdir := Function.update p.pgdir task false }
  x
  modify fun p => { p with pgdir := Function.update p.pgdir task curPagedirBak }

def inodeOpen (inodeNo : UInt32) : PooledM Nat := do
  let p ← get
  let addr ← onFs (RogOS.inodeOpen part inodeNo)
  if p.fs.inode? addr = none then
    asKernel task (sysMalloc task addr)
  pure addr

def inodeClose (addr : Nat) : PooledM Unit := do
  onFs (RogOS.inodeClose addr)
  let p ← get
  if p.fs.inode? addr = none then
    asKernel task (sysFree task addr)

def dirOpen (inodeNo : UInt32) : PooledM DirRef := do
  let addr ← inodeOpen part task inodeNo
  pure (.opened addr)

def dirClose : DirRef → PooledM Unit
  | .root => pure ()
  | .opened addr => inodeClose task addr

namespace searchFile

open RogOS.searchFile (Cursor parseName)

def finish (c : Cursor) : PooledM (UInt32 × PathSearchRecord) := do
  dirClose task c.parentDir
  let parentDir ← dirOpen part task c.parentInodeNo
  pure (c.dirENo, ⟨c.searchedPath, parentDir, .directory⟩)

def go : (fuel : Nat) → Cursor → PooledM (UInt32 × PathSearchRecord)
  | 0, _ => throw .hang
  | fuel + 1, c =>
    if c.name = [] then
      finish part task c
    else do
      Cmd.assert .panic (c.searchedPath.length < 512)
      let searchedPath := c.searchedPath ++ 47 :: c.name
      Cmd.assert .overrun (c.name.length < 16 ∧ searchedPath.length < 512)
      let p ← get
      let parent ← onFs (derefInode (p.fs.dirInode c.parentDir))
      match ← onFs (onVol (searchDirEntry part parent c.name)) with
      | none => pure (notFound, ⟨searchedPath, c.parentDir, .unknown⟩)
      | some dirE =>
        let (name, subPath) ← parseName c.subPath
        if dirE.fType = FileType.directory.code then
          dirClose task c.parentDir
          let parentDir ← dirOpen part task dirE.iNo
          go fuel ⟨name, subPath, searchedPath, parentDir, parent.iNo, dirE.iNo⟩
        else if dirE.fType = FileType.regular.code then
          pure (dirE.iNo, ⟨searchedPath, c.parentDir, .regular⟩)
        else
          go fuel ⟨name, subPath, searchedPath, c.parentDir, c.parentInodeNo, dirE.iNo⟩

end searchFile

def searchFile (junk : UInt32) (pathname : List UInt8) : PooledM (UInt32 × PathSearchRecord) := do
  if pathname = [47] ∨ pathname = [47, 46] ∨ pathname = [47, 46, 46] then
    pure (0, ⟨[], .root, .directory⟩)
  else
    Cmd.assert .panic (pathname.head? = some 47 ∧ 1 < pathname.length ∧ pathname.length < 512)
    let (name, subPath) ← RogOS.searchFile.parseName (some pathname)
    searchFile.go part task (pathname.length + 1) ⟨name, subPath, [], .root, 0, junk⟩

def fileCreate (parentDir : DirRef) (filename : List UInt8) (flag : UInt8) : PooledM Int := do
  let p ← get
  sysMalloc task p.fs.newAddr
  onFs (RogOS.fileCreate part task parentDir filename flag)

def fileOpen (inodeNo : UInt32) (flag : UInt8) : PooledM Int := do
  let p ← get
  match getFreeSlotInGlobal p.fs with
  | none => pure (-1)
  | some fdIdx =>
    let addr ← inodeOpen part task inodeNo
    onFs do
      modify fun s => s.setFile fdIdx ⟨0, flag, some addr⟩
      if writes flag then
        let inode ← derefInode addr
        if inode.writeDeny then
          pure (-1)
        else
          modify fun s => s.updInode addr fun i => { i with writeDeny := true }
          pcbFdInstall task fdIdx
      else
        pcbFdInstall task fdIdx

def fileClose (fdIdx : Fin 32) : PooledM Unit := do
  let p ← get
  match (p.fs.fileTable fdIdx).fdInode with
  | none => throw .badPtr
  | some addr =>
    onFs (modify fun s => s.updInode addr fun i => { i with writeDeny := false })
    inodeClose task addr
    onFs (modify fun s => s.setFile fdIdx { s.fileTable fdIdx with fdInode := none })

def openRootDir : PooledM Unit := do
  let addr ← inodeOpen part task part.sb.rootInodeNo
  onFs (modify fun s => { s with rootDir := addr })

def sysOpen (junk : UInt32) (pathname : CStr) (flags : UInt8) : PooledM Int := do
  Cmd.assert .overrun (pathname.chars ≠ [])
  if pathname.chars.getLast? = some 47 then
    pure (-1)
  else
    Cmd.assert .panic (flags ≤ 7)
    let pathnameDepth ← pathDepthCnt pathname.chars
    let (inodeNo, rec) ← searchFile part task junk pathname.chars
    if rec.fileType = .directory then
      dirClose task rec.parentDir
      pure (-1)
    else
      let pathSearchedDepth ← pathDepthCnt rec.searchedPath
      if pathnameDepth ≠ pathSearchedDepth then
        dirClose task rec.parentDir
        pure (-1)
      else if inodeNo = notFound ∧ flags &&& oCreat = 0 then
        dirClose task rec.parentDir
        pure (-1)
      else if inodeNo ≠ notFound ∧ flags &&& oCreat ≠ 0 then
        dirClose task rec.parentDir
        pure (-1)
      else if flags &&& oCreat ≠ 0 then
        let filename ← lastName pathname.chars
        let fd ← fileCreate part task rec.parentDir filename flags
        dirClose task rec.parentDir
        pure fd
      else
        fileOpen part task inodeNo flags

def sysClose (fd : Int) : PooledM Int := do
  if h : 2 < fd ∧ fd < 8 then
    let globalFd ← onFs (fdLocal2Global task fd.toNat)
    fileClose task globalFd
    onFs (modify fun s => s.setFd task ⟨fd.toNat, toNat_lt_of_open h⟩ (-1))
    pure 0
  else if 2 < fd then
    throw .overrun
  else
    pure (-1)

def sysOpendir (junk : UInt32) (name : CStr) : PooledM (Option DirPtr) := do
  Cmd.assert .panic (name.chars.length < 512)
  if name.chars = [47] then
    pure (some .root)
  else
    let (inodeNo, rec) ← searchFile part task junk name.chars
    if inodeNo ≠ notFound ∧ rec.fileType = .directory then
      let addr ← inodeOpen part task inodeNo
      dirClose task rec.parentDir
      let p ← get
      onFs (modify fun s => { s with dirs := (s.newDirId, ⟨addr, 0⟩) :: s.dirs })
      pure (some (.opened p.fs.newDirId))
    else
      dirClose task rec.parentDir
      pure none

def sysClosedir (dir : Option DirPtr) : PooledM Int := do
  match dir with
  | none => pure (-1)
  | some .root => pure 0
  | some (.opened id) =>
    let p ← get
    match p.fs.dirs.lookup id with
    | none => throw .badPtr
    | some d =>
      inodeClose task d.inode
      onFs (modify fun s => { s with dirs := Assoc.erase s.dirs id })
      pure 0

end Pooled

end RogOS
