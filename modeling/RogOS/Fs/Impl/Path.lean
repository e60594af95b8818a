import RogOS.Fs.Impl.Dir

/-!
`path_parse`, `path_depth_cnt` and `search_file` of `fs.c`, with the directories that `search_file`
opens and closes.
-/

namespace RogOS

variable (part : Partition)

/--
`path_parse`: the characters stored through `name_store`, and the rest of the path. `none` is the
result `NULL`.
-/
def pathParse (pathname : List UInt8) : List UInt8 × Option (List UInt8) :=
  let pathname := pathname.dropWhile (· == 47)
  let rest := pathname.dropWhile (· != 47)
  (pathname.takeWhile (· != 47), if rest = [] then none else some rest)

def pathDepthCnt.go {σ : Type} : (fuel : Nat) → (p : List UInt8) → (depth : Nat) → Cmd Fault σ Nat
  | 0, _, _ => throw .hang
  | fuel + 1, p, depth => do
    Cmd.assert .overrun ((pathParse p).1.length ≤ 16)
    match (pathParse p).2 with
    | none => pure depth
    | some p => pathDepthCnt.go fuel p (depth + 1)

def pathDepthCnt {σ : Type} (pathname : List UInt8) : Cmd Fault σ Nat :=
  pathDepthCnt.go (pathname.length + 1) pathname 0

def strcat {σ : Type} (dst src : List UInt8) : Cmd Fault σ (List UInt8) := do
  Cmd.assert .overrun ((dst ++ src).length < 512)
  pure (dst ++ src)

inductive DirRef where
  | root
  | opened (inode : Nat)
  deriving DecidableEq, Repr

def Fs.dirInode (s : Fs) : DirRef → Nat
  | .root => s.rootDir
  | .opened addr => addr

def dirOpen (inodeNo : UInt32) : FsM DirRef := do
  let addr ← inodeOpen part inodeNo
  pure (.opened addr)

def dirClose : DirRef → FsM Unit
  | .root => pure ()
  | .opened addr => inodeClose addr

structure PathSearchRecord where
  searchedPath : List UInt8
  parentDir : DirRef
  fileType : FileType

def notFound : UInt32 := 0xffffffff

namespace searchFile

def parseName {σ : Type} (subPath : Option (List UInt8))
    : Cmd Fault σ (List UInt8 × Option (List UInt8)) :=
  match subPath with
  | none => pure ([], none)
  | some p => do
    Cmd.assert .overrun ((pathParse p).1.length ≤ 16)
    pure (pathParse p)

structure Cursor where
  name : List UInt8
  subPath : Option (List UInt8)
  searchedPath : List UInt8
  parentDir : DirRef
  parentInodeNo : UInt32
  -- `dir_e.i_no`, which is not initialised before the first entry is found
  dirENo : UInt32

def finish (c : Cursor) : FsM (UInt32 × PathSearchRecord) := do
  dirClose c.parentDir
  let parentDir ← dirOpen part c.parentInodeNo
  pure (c.dirENo, ⟨c.searchedPath, parentDir, .directory⟩)

def go : (fuel : Nat) → Cursor → FsM (UInt32 × PathSearchRecord)
  | 0, _ => throw .hang
  | fuel + 1, c =>
    if c.name = [] then
      finish part c
    else do
      Cmd.assert .panic (c.searchedPath.length < 512)
      let searchedPath := c.searchedPath ++ 47 :: c.name
      -- `name` ends with a NUL
      Cmd.assert .overrun (c.name.length < 16 ∧ searchedPath.length < 512)
      let s ← get
      let parent ← derefInode (s.dirInode c.parentDir)
      match ← onVol (searchDirEntry part parent c.name) with
      | none => pure (notFound, ⟨searchedPath, c.parentDir, .unknown⟩)
      | some dirE =>
        let (name, subPath) ← parseName c.subPath
        if dirE.fType = FileType.directory.code then
          dirClose c.parentDir
          let parentDir ← dirOpen part dirE.iNo
          go fuel ⟨name, subPath, searchedPath, parentDir, parent.iNo, dirE.iNo⟩
        else if dirE.fType = FileType.regular.code then
          pure (dirE.iNo, ⟨searchedPath, c.parentDir, .regular⟩)
        else
          go fuel ⟨name, subPath, searchedPath, c.parentDir, c.parentInodeNo, dirE.iNo⟩

end searchFile

def searchFile (junk : UInt32) (pathname : List UInt8) : FsM (UInt32 × PathSearchRecord) := do
  if pathname = [47] ∨ pathname = [47, 46] ∨ pathname = [47, 46, 46] then
    pure (0, ⟨[], .root, .directory⟩)
  else
    Cmd.assert .panic (pathname.head? = some 47 ∧ 1 < pathname.length ∧ pathname.length < 512)
    let (name, subPath) ← searchFile.parseName (some pathname)
    searchFile.go part (pathname.length + 1) ⟨name, subPath, [], .root, 0, junk⟩

end RogOS
