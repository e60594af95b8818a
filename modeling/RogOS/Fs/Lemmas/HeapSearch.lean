import RogOS.Fs.Lemmas.Heap

/-!
What `search_file` finds with the heap under it: what it finds without, as long as
`search_dir_entry` gets the memory that it can do without.
-/

namespace RogOS

open Cmd

variable {part : Partition} {n : UInt32} {h : HeapedFs} {s : Fs} {junk : UInt32}
  {path name : List UInt8}

def Fs.lookupsGranted (part : Partition) (s : Fs)
    : (grants : Nat → Bool) → (dir : Option UInt32) → (names : List (List UInt8)) → Bool
  | _, _, [] => true
  | grants, dir, c :: cs =>
    grants 0 &&
      match s.lookAt part dir c with
      | none => true
      | some e =>
        if e.fType = FileType.directory.code then
          -- `all_blocks`, `buf` and a `struct dir`, and `inode_found` and `inode_buf` unless the
          -- inode is open
          s.lookupsGranted part (fun i => grants (i + if (s.find? e.iNo).isSome then 3 else 5))
            (some e.iNo) cs
        else if e.fType = FileType.regular.code then
          true
        else
          s.lookupsGranted part (fun i => grants (i + 2)) dir cs

namespace Heaped

section Steps

theorem malloced_grants {b : Block} : (h.malloced b).grants = fun i => h.grants (i + 1) := rfl

theorem inodeOpen_steps {r : Nat × HeapedFs} (hr : (inodeOpen part n).run h = .ok r)
    : (RogOS.inodeOpen part n).run h.fs = .ok (r.1, r.2.fs)
      ∧ r.2.grants = fun i => h.grants (i + if (h.fs.find? n).isSome then 0 else 2) := by
  simp only [inodeOpen, bind_run, get_run] at hr
  obtain ⟨_, _, h1, hr⟩ := hr
  cases h1
  rw [← Fs.find?] at hr
  cases hfind : h.fs.find? n with
  | some p =>
    rw [hfind] at hr
    obtain ⟨s, hrun, heq⟩ := onFs_run.mp hr
    rw [heq]
    exact ⟨hrun, rfl⟩
  | none =>
    rw [hfind] at hr
    simp only [bind_run, pure_run, mustMallocAt_run, mustMalloc_run, onFs_run, sysFree_run] at hr
    obtain ⟨_, _, ⟨-, h1⟩, _, _, ⟨-, h2⟩, a, h3, ⟨s, hrun, heq⟩, _, _, ⟨-, h4⟩, hr⟩ := hr
    cases h1
    cases h2
    cases h4
    rw [hr, heq]
    exact ⟨hrun, rfl⟩

theorem inodeClose_steps {addr : Nat} {r : Unit × HeapedFs} (hr : (inodeClose addr).run h = .ok r)
    : (RogOS.inodeClose addr).run h.fs = .ok ((), r.2.fs) ∧ r.2.grants = h.grants := by
  simp only [inodeClose, bind_run, get_run, onFs_run] at hr
  obtain ⟨_, _, ⟨s, hrun, heq⟩, _, _, h1, hr⟩ := hr
  cases h1
  rw [heq] at hr
  split at hr
  . obtain ⟨-, rfl⟩ := sysFree_run.mp hr
    exact ⟨hrun, rfl⟩
  . cases pure_run.mp hr
    exact ⟨hrun, rfl⟩

theorem dirOpen_steps {r : StructDir × HeapedFs} (hr : (dirOpen part n).run h = .ok r)
    : (RogOS.dirOpen part n).run h.fs = .ok (r.1.ref, r.2.fs)
      ∧ r.2.grants = fun i => h.grants (i + if (h.fs.find? n).isSome then 1 else 3) := by
  simp only [dirOpen, bind_run, mustMalloc_run, pure_run] at hr
  obtain ⟨_, _, ⟨-, h1⟩, addr, h2, hopen, hr⟩ := hr
  cases h1
  obtain ⟨hrun, hgrants⟩ := inodeOpen_steps hopen
  rw [hr]
  constructor
  . simp only [RogOS.dirOpen, bind_run, pure_run]
    exact ⟨_, _, hrun, rfl⟩
  . dsimp only
    rw [hgrants]
    funext i
    rw [malloced_grants]
    dsimp only
    congr 1
    have hfs : (h.malloced h.newBlock).fs = h.fs := rfl
    rw [hfs]
    split <;> rfl

theorem dirClose_steps {dir : StructDir} {r : Unit × HeapedFs} (hr : (dirClose dir).run h = .ok r)
    : (RogOS.dirClose dir.ref).run h.fs = .ok ((), r.2.fs) ∧ r.2.grants = h.grants := by
  cases dir with
  | root =>
    cases pure_run.mp hr
    exact ⟨rfl, rfl⟩
  | opened addr block =>
    simp only [dirClose, bind_run, sysFree_run] at hr
    obtain ⟨_, h1, hclose, -, rfl⟩ := hr
    have hsteps := inodeClose_steps hclose
    exact hsteps

theorem searchDirEntry_steps {inode : Inode} {r : Option DirEntry × HeapedFs}
    (hr : (searchDirEntry part inode name).run h = .ok r)
    : h.grants 0 = false ∧ r.1 = none
      ∨ h.grants 0 = true ∧ (RogOS.searchDirEntry part inode name).run h.fs.vol
          = .ok (r.1, h.fs.vol) ∧ r.2.fs = h.fs
          ∧ r.2.grants = fun i => h.grants (i + 2) := by
  simp only [searchDirEntry, bind_run, sysMalloc_run] at hr
  obtain ⟨o, _, h1, hr⟩ := hr
  rw [Prod.mk.injEq] at h1
  obtain ⟨rfl, rfl⟩ := h1
  cases hgrant : h.grants 0 with
  | false =>
    rw [hgrant, if_neg Bool.false_ne_true, pure_run] at hr
    rw [hr]
    exact .inl ⟨rfl, rfl⟩
  | true =>
    rw [hgrant, if_pos rfl] at hr
    simp only [bind_run, mustMalloc_run, onFs_run, onVol_run, sysFree_run, pure_run] at hr
    obtain ⟨_, _, ⟨-, h2⟩, e, h3, ⟨s, ⟨v, hrun, hs⟩, heq⟩, _, _, ⟨-, h4⟩, _, _, ⟨-, h5⟩, hr⟩ := hr
    cases h2
    cases h4
    cases h5
    have hv : v = h.fs.vol := searchDirEntry_vol hrun
    rw [hv] at hrun hs
    refine .inr ⟨rfl, ?_, ?_, ?_⟩
    . rw [hr]
      exact hrun
    . rw [hr, heq, hs]
      rfl
    . rw [hr, heq]
      rfl

end Steps

structure Agrees (part : Partition) (s : Fs) (f : Found) (r : UInt32 × PathSearchRecord)
    : Prop where
  no : r.1 = f.no
  dir : r.2.parentDir.ref = (s.atDir part f.dir).1
  searched : r.2.searchedPath = joinPath f.searched
  fileType : r.2.fileType = f.fileType

theorem dirMove_steps (hs : s.Searchable) {dir : Option UInt32} {d : StructDir} {h' : HeapedFs}
    (hdir : (d.ref, h.fs) = s.atDir part dir) (hclose : (dirClose d).run h = .ok ((), h'))
    {r : StructDir × HeapedFs} (hopen : (dirOpen part n).run h' = .ok r)
    : (r.1.ref, r.2.fs) = s.atDir part (some n)
        ∧ r.2.grants = fun i => h.grants (i + if (s.find? n).isSome then 1 else 3) := by
  obtain ⟨hclose, hgrants'⟩ := dirClose_steps hclose
  obtain ⟨hopen, hgrants⟩ := dirOpen_steps hopen
  dsimp only at hclose hgrants'
  rw [show d.ref = (s.atDir part dir).1 from congrArg Prod.fst hdir,
    show h.fs = (s.atDir part dir).2 from congrArg Prod.snd hdir] at hclose
  have hs' : h'.fs = s := hs.dirClose_atDir hclose
  rw [hs'] at hopen hgrants
  rw [hgrants'] at hgrants
  exact ⟨dirOpen_run hopen, hgrants⟩

theorem searchFile.go_granted {fuel : Nat} {c : searchFile.Cursor} {dir : Option UInt32}
    {done names : List (List UInt8)} (hs : s.Searchable)
    (hdir : (c.parentDir.ref, h.fs) = s.atDir part dir)
    (hnames : remaining c.name c.subPath = names) (hdone : c.searchedPath = joinPath done)
    {r : (UInt32 × PathSearchRecord) × HeapedFs} (hr : (searchFile.go part fuel c).run h = .ok r)
    : if s.lookupsGranted part h.grants dir names then
        Agrees part s (s.resolve part c.parentInodeNo c.dirENo dir done names) r.1
      else
        r.1.1 = notFound ∨ r.1.2.fileType = .directory := by
  induction fuel generalizing c dir done names h with
  | zero => exact absurd hr throw_run
  | succ fuel ih =>
    have hpar : c.parentDir.ref = (s.atDir part dir).1 := congrArg Prod.fst hdir
    have hfs : h.fs = (s.atDir part dir).2 := congrArg Prod.snd hdir
    unfold searchFile.go at hr
    split at hr
    . next hname =>
      -- the path is used up
      rw [remaining, if_pos hname] at hnames
      rw [← hnames, Fs.lookupsGranted, if_pos rfl, Fs.resolve]
      simp only [searchFile.finish, bind_run, pure_run] at hr
      obtain ⟨_, h1, hclose, d, h2, hopen, hr⟩ := hr
      have hd := congrArg Prod.fst (dirMove_steps hs hdir hclose hopen).1
      rw [hr]
      exact ⟨rfl, hd, hdone, rfl⟩
    . next hname =>
      rw [remaining, if_neg hname] at hnames
      rw [← hnames]
      simp only [bind_run, assert_run, get_run, onFs_run, derefInode_run] at hr
      obtain ⟨_, _, ⟨-, h1⟩, _, _, ⟨-, h2⟩, _, _, h3, parent, _, ⟨_, ⟨ino, hino, h4⟩, h5⟩, o, h6,
          hsearch, hr⟩ := hr
      cases h1
      cases h2
      cases h3
      cases h4
      cases h5
      have hdone' : c.searchedPath ++ 47 :: c.name = joinPath (done ++ [c.name]) := by
        rw [hdone, joinPath, joinPath, List.flatMap_append, List.flatMap_singleton]
      rw [Fs.lookupsGranted]
      obtain ⟨hgrant, ho⟩ | ⟨hgrant, hlook, hfs', hgrants⟩ := searchDirEntry_steps hsearch
      . -- without `all_blocks` the entry is reported to be missing
        dsimp only at hgrant ho
        rw [hgrant, Bool.false_and, if_neg Bool.false_ne_true]
        rw [ho, pure_run] at hr
        rw [hr]
        exact .inl rfl
      . dsimp only at hgrant hlook hfs' hgrants
        obtain ⟨k, hk⟩ := @Fs.Searchable.atDir_inode part s hs dir
        rw [← hfs, ← hpar, hino, Option.some.injEq] at hk
        have hvol : h.fs.vol = s.vol := by
          rw [hfs]
          exact Fs.atDir_vol
        have hlookAt : o = s.lookAt part dir c.name := by
          rw [hvol, hk] at hlook
          exact congrArg Prod.fst (Fs.lookAt_eq hlook)
        have hdir' : (c.parentDir.ref, h6.fs) = s.atDir part dir := by
          rw [hfs', hdir]
        rw [hgrant, Bool.true_and, Fs.resolve, ← hlookAt]
        cases o with
        | none =>
          rw [pure_run] at hr
          rw [if_pos rfl, hr]
          exact ⟨rfl, hpar, hdone', rfl⟩
        | some e =>
          simp only [bind_run] at hr
          obtain ⟨⟨name', sub'⟩, h7, hparse, hr⟩ := hr
          obtain ⟨hrem, h7⟩ := parseName_run hparse
          dsimp only at hrem h7 hr ⊢
          rw [h7] at hr
          split at hr
          . next hty =>
            simp only [hty, ↓reduceIte]
            simp only [bind_run] at hr
            obtain ⟨_, h8, hclose, d, h9, hopen, hr⟩ := hr
            obtain ⟨hopened, hgrants9⟩ := dirMove_steps hs hdir' hclose hopen
            have hgo := ih (c := ⟨name', sub', _, d, parent.iNo, e.iNo⟩) hopened hrem hdone' hr
            have hshift : h9.grants = fun i => h.grants (i + if (s.find? e.iNo).isSome then 3
                else 5) := by
              rw [hgrants9, hgrants]
              funext i
              split <;> rfl
            have hiNo : parent.iNo = (s.dirView part dir).iNo := by rw [hk]
            rw [hshift, hiNo] at hgo
            exact hgo
          . next hty =>
            simp only [hty, ↓reduceIte]
            split at hr
            . next hreg =>
              simp only [hreg, ↓reduceIte]
              rw [pure_run] at hr
              rw [hr]
              exact ⟨rfl, hpar, hdone', rfl⟩
            . next hreg =>
              simp only [hreg, ↓reduceIte]
              have hgo :=
                ih (c := ⟨name', sub', _, c.parentDir, c.parentInodeNo, e.iNo⟩) hdir' hrem hdone' hr
              rw [hgrants] at hgo
              exact hgo

theorem searchFile_granted (hs : h.fs.Searchable) {r : (UInt32 × PathSearchRecord) × HeapedFs}
    (hr : (searchFile part junk path).run h = .ok r)
    : if h.fs.lookupsGranted part h.grants none (components path) then
        Agrees part h.fs (h.fs.search part junk path) r.1
      else
        r.1.1 = notFound ∨ r.1.2.fileType = .directory := by
  unfold searchFile at hr
  unfold Fs.search
  split at hr
  . next hroot =>
    rw [pure_run] at hr
    rw [if_pos (show IsRootPath path from hroot), hr]
    split
    . exact ⟨rfl, rfl, rfl, rfl⟩
    . exact .inr rfl
  . next hroot =>
    rw [if_neg (show ¬ IsRootPath path from hroot)]
    simp only [bind_run, assert_run] at hr
    obtain ⟨_, _, ⟨-, h1⟩, ⟨name, sub⟩, h2, hparse, hr⟩ := hr
    cases h1
    obtain ⟨hrem, h2⟩ := parseName_run hparse
    dsimp only at hrem h2 hr
    rw [h2] at hr
    exact @searchFile.go_granted part h h.fs _ _ none [] _ hs rfl hrem rfl _ hr

end Heaped

end RogOS
