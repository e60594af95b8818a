import RogOS.Fs.Impl.Cwd

/-!
The heap under the file system: the blocks that `sys_malloc` returned and `sys_free` did not get
back yet. The functions of `inode.c`, `dir.c` and `fs.c` that allocate, free or pass on blocks, with
the heap beside the file system; all else is as in the functions of the same name.
-/

namespace RogOS

inductive Block where
  | inode (addr : Nat)
  | other (id : Nat)
  deriving DecidableEq, Repr

def Block.id : Block → Nat
  | .inode addr => addr
  | .other id => id

structure HeapedFs where
  fs : Fs
  -- The blocks that are allocated
  live : List Block
  -- Whether the `n`-th call of `sys_malloc` from now on finds memory
  grants : Nat → Bool

abbrev HeapedM := Cmd Fault HeapedFs

def HeapedFs.newBlock (h : HeapedFs)
    : Block := .other (Assoc.fresh (h.live.map fun b => (b.id, ())))

namespace Heaped

def onFs {α : Type} (x : FsM α)
    : HeapedM α := Cmd.zoom HeapedFs.fs (fun h s => { h with fs := s }) x

variable (part : Partition) (task : Nat)

def sysMallocAt (block : Block) : HeapedM (Option Block) := do
  let h ← get
  modify fun h => { h with
    live := if h.grants 0 then block :: h.live else h.live
    grants := fun n => h.grants (n + 1) }
  pure (if h.grants 0 then some block else none)

def sysMalloc : HeapedM (Option Block) := do
  let h ← get
  sysMallocAt h.newBlock

def deref (ptr : Option Block) : HeapedM Block :=
  match ptr with
  | some block => pure block
  | none => throw .badPtr

def mustMallocAt (block : Block) : HeapedM Block := do
  deref (← sysMallocAt block)

def mustMalloc : HeapedM Block := do
  deref (← sysMalloc)

def sysFree (block : Block) : HeapedM Unit := do
  let h ← get
  Cmd.assert .badPtr (block ∈ h.live)
  modify fun h => { h with live := h.live.erase block }

def inodeOpen (inodeNo : UInt32) : HeapedM Nat := do
  let h ← get
  match h.fs.openInodes.find? (fun p => p.2.iNo == inodeNo) with
  | some _ => onFs (RogOS.inodeOpen part inodeNo)
  | none =>
    let _ ← mustMallocAt (.inode h.fs.newAddr)
    let inodeBuf ← mustMalloc
    let addr ← onFs (RogOS.inodeOpen part inodeNo)
    sysFree inodeBuf
    pure addr

def inodeClose (addr : Nat) : HeapedM Unit := do
  onFs (RogOS.inodeClose addr)
  let h ← get
  if h.fs.inode? addr = none then
    sysFree (.inode addr)

def inodeRelease (inodeNo : UInt32) : HeapedM Unit := do
  let addr ← inodeOpen part inodeNo
  let inode ← onFs (derefInode addr)
  -- allocated behind the bitmaps and in front of `inode_delete`
  let ioBuf ← mustMalloc
  onFs (onVol (releaseInode part inode inodeNo))
  sysFree ioBuf
  inodeClose addr

inductive StructDir where
  | root
  | opened (inode : Nat) (block : Block)

def StructDir.ref : StructDir → DirRef
  | .root => .root
  | .opened inode _ => .opened inode

def dirOpen (inodeNo : UInt32) : HeapedM StructDir := do
  let pdir ← mustMalloc
  let addr ← inodeOpen part inodeNo
  pure (.opened addr pdir)

def dirClose : StructDir → HeapedM Unit
  | .root => pure ()
  | .opened addr block => do
    inodeClose addr
    sysFree block

def searchDirEntry (inode : Inode) (name : List UInt8) : HeapedM (Option DirEntry) := do
  match ← sysMalloc with
  | none => pure none
  | some allBlocks =>
    let buf ← mustMalloc
    let dirE ← onFs (onVol (RogOS.searchDirEntry part inode name))
    sysFree buf
    sysFree allBlocks
    pure dirE

structure PathSearchRecord where
  searchedPath : List UInt8
  parentDir : StructDir
  fileType : FileType

namespace searchFile

open RogOS.searchFile (parseName)

structure Cursor where
  name : List UInt8
  subPath : Option (List UInt8)
  searchedPath : List UInt8
  parentDir : StructDir
  parentInodeNo : UInt32
  dirENo : UInt32

def finish (c : Cursor) : HeapedM (UInt32 × PathSearchRecord) := do
  dirClose c.parentDir
  let parentDir ← dirOpen part c.parentInodeNo
  pure (c.dirENo, ⟨c.searchedPath, parentDir, .directory⟩)

def go : (fuel : Nat) → Cursor → HeapedM (UInt32 × PathSearchRecord)
  | 0, _ => throw .hang
  | fuel + 1, c =>
    if c.name = [] then
      finish part c
    else do
      Cmd.assert .panic (c.searchedPath.length < 512)
      let searchedPath := c.searchedPath ++ 47 :: c.name
      Cmd.assert .overrun (c.name.length < 16 ∧ searchedPath.length < 512)
      let h ← get
      let parent ← onFs (derefInode (h.fs.dirInode c.parentDir.ref))
      match ← searchDirEntry part parent c.name with
      | none => pure (notFound, ⟨searchedPath, c.parentDir, .unknown⟩)
      | some dirE =>
        let (name, subPath) ← parseName c.subPath
        if dirE.fType = FileType.directory.code then
          dirClose c.parentDir
          let parentDir ← dirOpen part dirE.iNo
          go fuel ⟨name, subPath, searchedPath, parentDir, parent.iNo, dirE.iNo⟩
        else if dirE.fType = FileType.regular.code then
          pure (dirE.iNo, ⟨searchedPath, c.parentDir, .regular⟩)
        else
          go fuel ⟨name, subPath, searchedPath, c.parentDir, c.parentInodeNo, dirE.iNo⟩

end searchFile

def searchFile (junk : UInt32) (pathname : List UInt8) : HeapedM (UInt32 × PathSearchRecord) := do
  if pathname = [47] ∨ pathname = [47, 46] ∨ pathname = [47, 46, 46] then
    pure (0, ⟨[], .root, .directory⟩)
  else
    Cmd.assert .panic (pathname.head? = some 47 ∧ 1 < pathname.length ∧ pathname.length < 512)
    let (name, subPath) ← RogOS.searchFile.parseName (some pathname)
    searchFile.go part (pathname.length + 1) ⟨name, subPath, [], .root, 0, junk⟩

def fileCreate (parentDir : StructDir) (filename : List UInt8) (flag : UInt8) : HeapedM Int := do
  match ← sysMalloc with
  | none => pure (-1)
  | some ioBuf =>
    match ← onFs (onVol (inodeBitmapAlloc part)) with
    | none =>
      -- returns without the rollback: `io_buf` is not freed
      pure (-1)
    | some inodeNo =>
      let h ← get
      let block := Block.inode h.fs.newAddr
      match ← sysMallocAt block with
      | none =>
        onFs (onVol (setBit part .inode inodeNo.toNat false))
        sysFree ioBuf
        pure (-1)
      | some _ =>
        let newFileInode := inodeInit inodeNo
        match getFreeSlotInGlobal h.fs with
        | none =>
          sysFree block
          onFs (onVol (setBit part .inode inodeNo.toNat false))
          sysFree ioBuf
          pure (-1)
        | some fdIdx =>
          onFs (modify fun s => s.setFile fdIdx ⟨0, flag, some h.fs.newAddr⟩)
          let newDirEntry ← createDirEntry filename inodeNo .regular
          let addr := h.fs.dirInode parentDir.ref
          if ← onFs (onInode addr fun i => syncDirEntry part i newDirEntry) then
            onFs do
              let parent ← derefInode addr
              onVol (inodeSync part 1024 parent)
              onVol (inodeSync part 1024 newFileInode)
              onVol (bitmapSync part inodeNo.toNat .inode)
            onFs (modify fun s => s.pushInode h.fs.newAddr { newFileInode with iOpenCnts := 1 })
            sysFree ioBuf
            onFs (pcbFdInstall task fdIdx)
          else
            onFs (modify fun s => s.setFile fdIdx ⟨0, 0, none⟩)
            sysFree block
            onFs (onVol (setBit part .inode inodeNo.toNat false))
            sysFree ioBuf
            pure (-1)

def fileOpen (inodeNo : UInt32) (flag : UInt8) : HeapedM Int := do
  let h ← get
  match getFreeSlotInGlobal h.fs with
  | none => pure (-1)
  | some fdIdx =>
    let addr ← inodeOpen part inodeNo
    onFs do
      modify fun s => s.setFile fdIdx ⟨0, flag, some addr⟩
      if writes flag then
        let inode ← derefInode addr
        if inode.writeDeny then
          pure (-1)
        else
          modify fun s => s.updInode addr fun i => { i with writeDeny := true }
          pcbFdInstall task fdIdx
      else
        pcbFdInstall task fdIdx

def fileClose (fdIdx : Fin 32) : HeapedM Unit := do
  let h ← get
  match (h.fs.fileTable fdIdx).fdInode with
  | none => throw .badPtr
  | some addr =>
    onFs (modify fun s => s.updInode addr fun i => { i with writeDeny := false })
    inodeClose addr
    onFs (modify fun s => s.setFile fdIdx { s.fileTable fdIdx with fdInode := none })

def writeFile (fdIdx : Fin 32) (buf : Mem) (count : UInt32) : HeapedM Int := do
  let h ← get
  match (h.fs.fileTable fdIdx).fdInode with
  | none => throw .badPtr
  | some addr =>
    let inode ← onFs (derefInode addr)
    if 512 * 140 < inode.iSize + count then
      pure (-1)
    else
      match ← sysMalloc with
      | none => pure (-1)
      | some ioBuf =>
        match ← sysMalloc with
        | none =>
          -- `io_buf` is not freed
          pure (-1)
        | some allBlocks =>
          let bytesWritten ← onFs (RogOS.writeFile part fdIdx buf count)
          if bytesWritten = -1 then
            -- no block left: neither of the buffers is freed
            pure (-1)
          else
            sysFree allBlocks
            sysFree ioBuf
            pure bytesWritten

def readFile (fdIdx : Fin 32) (buf : Mem) (count : UInt32) : HeapedM (Int × Mem) := do
  let h ← get
  match (h.fs.fileTable fdIdx).fdInode with
  | none => throw .badPtr
  | some addr =>
    let inode ← onFs (derefInode addr)
    let fdPos := (h.fs.fileTable fdIdx).fdPos
    if inode.iSize < fdPos + count ∧ inode.iSize - fdPos = 0 then
      pure (-1, buf)
    else
      -- only a message is printed if this fails
      let ioBuf ← sysMalloc
      match ← sysMalloc with
      | none =>
        -- `io_buf` is not freed
        pure (-1, buf)
      | some allBlocks =>
        let r ← onFs (RogOS.readFile fdIdx buf count)
        sysFree allBlocks
        sysFree (← deref ioBuf)
        pure r

def dirRemove (parentDir : StructDir) (addr : Nat) : HeapedM Int := do
  let child ← onFs (derefInode addr)
  Cmd.assert .panic ((List.range 12).all fun i => child.sector (i + 1) == 0)
  match ← sysMalloc with
  | none => pure (-1)
  | some ioBuf =>
    let h ← get
    let _ ← onFs (onInode (h.fs.dirInode parentDir.ref) fun i => deleteDirEntry part i child.iNo)
    inodeRelease part child.iNo
    sysFree ioBuf
    pure 0

def getParentDirInodeNr (childInodeNr : UInt32) : HeapedM UInt32 := do
  let addr ← inodeOpen part childInodeNr
  let childDirInode ← onFs (derefInode addr)
  let blockLba := childDirInode.sector 0
  Cmd.assert .panic (part.sb.dataStartLba ≤ blockLba)
  inodeClose addr
  let ioBuf ← onFs (onVol (ideRead blockLba 1))
  let dirE := DirEntry.at ioBuf 1
  Cmd.assert .panic (dirE.iNo.toNat < 4096 ∧ dirE.fType = FileType.directory.code)
  pure dirE.iNo

def getChildDirName (pInodeNr cInodeNr : UInt32) (path : List UInt8)
    : HeapedM (Option (List UInt8)) := do
  let addr ← inodeOpen part pInodeNr
  let parentDirInode ← onFs (derefInode addr)
  let blocks ← onFs (onVol (allBlocks parentDirInode))
  let blockCnt := if parentDirInode.sector 12 ≠ 0 then 140 else 12
  inodeClose addr
  onFs (onVol (getChildDirName.go part cInodeNr path blocks blockCnt 0))

def sysGetcwd.climb : (fuel : Nat) → (childInodeNr : UInt32) → (fullPathReverse : List UInt8)
    → HeapedM (Option (List UInt8))
  | 0, _, _ => throw .hang
  | fuel + 1, childInodeNr, fullPathReverse =>
    if childInodeNr = 0 then
      pure (some fullPathReverse)
    else do
      let parentInodeNr ← getParentDirInodeNr part childInodeNr
      match ← getChildDirName part parentInodeNr childInodeNr fullPathReverse with
      | none => pure none
      | some fullPathReverse => sysGetcwd.climb fuel parentInodeNr fullPathReverse

end Heaped

end RogOS
