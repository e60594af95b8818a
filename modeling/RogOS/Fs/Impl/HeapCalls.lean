import RogOS.Fs.Impl.Heap

/-!
The system calls of `fs.c` with the heap under them
-/

namespace RogOS.Heaped

variable (part : Partition) (task : Nat)

def sysOpen (junk : UInt32) (pathname : CStr) (flags : UInt8) : HeapedM Int := do
  Cmd.assert .overrun (pathname.chars ≠ [])
  if pathname.chars.getLast? = some 47 then
    pure (-1)
  else
    Cmd.assert .panic (flags ≤ 7)
    let pathnameDepth ← pathDepthCnt pathname.chars
    let (inodeNo, rec) ← searchFile part junk pathname.chars
    if rec.fileType = .directory then
      dirClose rec.parentDir
      pure (-1)
    else
      let pathSearchedDepth ← pathDepthCnt rec.searchedPath
      if pathnameDepth ≠ pathSearchedDepth then
        dirClose rec.parentDir
        pure (-1)
      else if inodeNo = notFound ∧ flags &&& oCreat = 0 then
        dirClose rec.parentDir
        pure (-1)
      else if inodeNo ≠ notFound ∧ flags &&& oCreat ≠ 0 then
        dirClose rec.parentDir
        pure (-1)
      else if flags &&& oCreat ≠ 0 then
        let filename ← lastName pathname.chars
        let fd ← fileCreate part task rec.parentDir filename flags
        dirClose rec.parentDir
        pure fd
      else
        -- `rec.parentDir` is not closed
        fileOpen part task inodeNo flags

def sysClose (fd : Int) : HeapedM Int := do
  if h : 2 < fd ∧ fd < 8 then
    let globalFd ← onFs (fdLocal2Global task fd.toNat)
    fileClose globalFd
    onFs (modify fun s => s.setFd task ⟨fd.toNat, toNat_lt_of_open h⟩ (-1))
    pure 0
  else if 2 < fd then
    throw .overrun
  else
    pure (-1)

def sysWrite (fd : Int) (buf : Mem) (count : UInt32) : HeapedM Int := do
  if fd < 0 then
    pure (-1)
  else if fd = 1 then
    Cmd.assert .overrun (count.toNat ≤ 1024)
    pure count.toNat
  else
    let fdIdx ← onFs (fdLocal2Global task fd.toNat)
    let h ← get
    if writes (h.fs.fileTable fdIdx).fdFlag then
      writeFile part fdIdx buf count
    else
      pure (-1)

def sysRead (kbd : Mem) (fd : Int) (buf : Mem) (count : UInt32) : HeapedM (Int × Mem) := do
  if fd < 0 ∨ fd = 1 ∨ fd = 2 then
    pure (-1, buf)
  else if fd = 0 then
    pure (if count = 0 then -1 else count.toInt32.toInt, buf.blit 0 count.toNat kbd)
  else
    let fdIdx ← onFs (fdLocal2Global task fd.toNat)
    readFile fdIdx buf count

def sysUnlink (junk : UInt32) (pathname : CStr) : HeapedM Int := do
  Cmd.assert .panic (pathname.chars.length < 512)
  let (inodeNo, rec) ← searchFile part junk pathname.chars
  Cmd.assert .panic (inodeNo ≠ 0)
  if inodeNo = notFound then
    dirClose rec.parentDir
    pure (-1)
  else if rec.fileType = .directory then
    dirClose rec.parentDir
    pure (-1)
  else if ← onFs (fileInUse inodeNo (List.finRange 32)) then
    dirClose rec.parentDir
    pure (-1)
  else
    match ← sysMalloc with
    | none =>
      dirClose rec.parentDir
      pure (-1)
    | some ioBuf =>
      let h ← get
      let _ ← onFs (onInode (h.fs.dirInode rec.parentDir.ref) fun i =>
          deleteDirEntry part i inodeNo)
      inodeRelease part inodeNo
      sysFree ioBuf
      dirClose rec.parentDir
      pure 0

def sysMkdir (junk : UInt32) (pathname : CStr) : HeapedM Int := do
  match ← sysMalloc with
  | none => pure (-1)
  | some ioBuf =>
    let (inodeNo, rec) ← searchFile part junk pathname.chars
    if inodeNo ≠ notFound then
      dirClose rec.parentDir
      sysFree ioBuf
      pure (-1)
    else
      let pathnameDepth ← pathDepthCnt pathname.chars
      let pathSearchedDepth ← pathDepthCnt rec.searchedPath
      if pathnameDepth ≠ pathSearchedDepth then
        dirClose rec.parentDir
        sysFree ioBuf
        pure (-1)
      else
        let dirname ← lastName rec.searchedPath
        let h ← get
        let addr := h.fs.dirInode rec.parentDir.ref
        if ← onFs (onInode addr fun i =>
          makeDir part (inodeBitmapAlloc part) (blockBitmapAlloc part) i dirname) then
          sysFree ioBuf
          dirClose rec.parentDir
          pure 0
        else
          dirClose rec.parentDir
          sysFree ioBuf
          pure (-1)

def sysRmdir (junk : UInt32) (pathname : CStr) : HeapedM Int := do
  let (inodeNo, rec) ← searchFile part junk pathname.chars
  Cmd.assert .panic (inodeNo ≠ 0)
  if inodeNo = notFound then
    dirClose rec.parentDir
    pure (-1)
  else if rec.fileType = .regular then
    dirClose rec.parentDir
    pure (-1)
  else
    let dir ← dirOpen part inodeNo
    let h ← get
    let addr := h.fs.dirInode dir.ref
    let inode ← onFs (derefInode addr)
    if dirIsEmpty part inode then
      let removed ← dirRemove part rec.parentDir addr
      dirClose dir
      dirClose rec.parentDir
      pure (if removed = 0 then 0 else -1)
    else
      dirClose dir
      dirClose rec.parentDir
      pure (-1)

def sysGetcwd (size : Nat) : HeapedM (Option (List UInt8)) := do
  match ← sysMalloc with
  | none => pure none
  | some ioBuf =>
    let h ← get
    let childInodeNr := (h.fs.tasks task).cwdInodeNr
    Cmd.assert .panic (childInodeNr.toNat < 4096)
    if childInodeNr = 0 then
      Cmd.assert .overrun (1 < size)
      -- `io_buf` is not freed
      pure (some [47])
    else
      match ← sysGetcwd.climb part 512 childInodeNr [] with
      | none =>
        sysFree ioBuf
        pure none
      | some fullPathReverse =>
        Cmd.assert .panic (fullPathReverse.length ≤ size)
        let buf ← RogOS.sysGetcwd.turn size 512 fullPathReverse []
        sysFree ioBuf
        pure (some buf)

def sysChdir (junk : UInt32) (path : CStr) : HeapedM Int := do
  let (inodeNo, rec) ← searchFile part junk path.chars
  if inodeNo ≠ notFound ∧ rec.fileType = .directory then
    onFs (modify fun s =>
      { s with tasks := Function.update s.tasks task { s.tasks task with cwdInodeNr := inodeNo } })
    dirClose rec.parentDir
    pure 0
  else
    dirClose rec.parentDir
    pure (-1)

def sysStat (junk : UInt32) (path : CStr) : HeapedM (Option Stat) := do
  if path.chars = [47] ∨ path.chars = [47, 46] ∨ path.chars = [47, 46, 46] then
    let h ← get
    let root ← onFs (derefInode h.fs.rootDir)
    pure (some ⟨0, root.iSize, .directory⟩)
  else
    let (inodeNo, rec) ← searchFile part junk path.chars
    if inodeNo ≠ notFound then
      let addr ← inodeOpen part inodeNo
      let inode ← onFs (derefInode addr)
      inodeClose addr
      dirClose rec.parentDir
      pure (some ⟨inodeNo, inode.iSize, rec.fileType⟩)
    else
      dirClose rec.parentDir
      pure none

end RogOS.Heaped
