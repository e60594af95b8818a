import RogOS.Fs.Lemmas.Dir
import RogOS.Fs.Lemmas.Open
import RogOS.Fs.Lemmas.Path

/-!
What `search_file` returns, in terms of lookups in the directories of one state: the directories it
opens on its way are closed again, all but the last.
-/

namespace RogOS

variable {part : Partition} {s t : Fs} {junk : UInt32} {path name : List UInt8}

section Look

def Fs.dirView (part : Partition) (s : Fs) : Option UInt32 → Inode
  | none => (s.inode? s.rootDir).getD (inodeInit 0)
  | some d => s.view part d

def Fs.lookAt (part : Partition) (s : Fs) (dir : Option UInt32) (name : List UInt8)
    : Option DirEntry :=
  match (searchDirEntry part (s.dirView part dir) name).run s.vol with
  | .ok (e, _) => e
  | .error _ => none

def Fs.look (part : Partition) (s : Fs) (d : UInt32) (name : List UInt8) : Option DirEntry :=
  s.lookAt part (some d) name

theorem allBlocks_vol {v : Vol} {ino : Inode} {r : (Nat → UInt32) × Vol}
    (h : (allBlocks ino).run v = .ok r) : r.2 = v := by
  unfold allBlocks at h
  split at h
  . simp only [Cmd.bind_run, ideRead_run, Cmd.pure_run] at h
    obtain ⟨_, _, ⟨-, h1⟩, h2⟩ := h
    cases h1
    rw [h2]
  . rw [Cmd.pure_run] at h
    rw [h]

theorem searchDirEntry.go_vol {v : Vol} {blocks : Nat → UInt32} {n i : Nat}
    {r : Option DirEntry × Vol}
    (h : (searchDirEntry.go part name blocks n i).run v = .ok r) : r.2 = v := by
  induction n generalizing i with
  | zero =>
    rw [searchDirEntry.go, Cmd.pure_run] at h
    rw [h]
  | succ n ih =>
    unfold searchDirEntry.go at h
    split at h
    . exact ih h
    . simp only [Cmd.bind_run, ideRead_run] at h
      obtain ⟨_, _, ⟨-, h1⟩, h2⟩ := h
      cases h1
      split at h2
      . rw [Cmd.pure_run] at h2
        rw [h2]
      . exact ih h2

theorem searchDirEntry_vol {v : Vol} {ino : Inode} {r : Option DirEntry × Vol}
    (h : (searchDirEntry part ino name).run v = .ok r) : r.2 = v := by
  simp only [searchDirEntry, Cmd.bind_run] at h
  obtain ⟨_, _, h1, h2⟩ := h
  rw [searchDirEntry.go_vol h2]
  exact allBlocks_vol h1

theorem Fs.lookAt_eq {dir : Option UInt32} {r : Option DirEntry × Vol}
    (h : (searchDirEntry part (s.dirView part dir) name).run s.vol = .ok r)
    : r = (s.lookAt part dir name, s.vol) := by
  have hvol := searchDirEntry_vol h
  unfold lookAt
  rw [h, ← hvol]

end Look

structure Found where
  no : UInt32
  dir : Option UInt32
  searched : List (List UInt8)
  fileType : FileType

def Fs.resolve (part : Partition) (s : Fs)
    : (prev last : UInt32) → (dir : Option UInt32) → (searched names : List (List UInt8)) → Found
  | prev, last, _, searched, [] => ⟨last, some prev, searched, .directory⟩
  | prev, _, dir, searched, c :: cs =>
    match s.lookAt part dir c with
    | none => ⟨notFound, dir, searched ++ [c], .unknown⟩
    | some e =>
      if e.fType = FileType.directory.code then
        s.resolve part (s.dirView part dir).iNo e.iNo (some e.iNo) (searched ++ [c]) cs
      else if e.fType = FileType.regular.code then
        ⟨e.iNo, dir, searched ++ [c], .regular⟩
      else
        s.resolve part prev e.iNo dir (searched ++ [c]) cs

def IsRootPath (path : List UInt8) : Prop := path = [47] ∨ path = [47, 46] ∨ path = [47, 46, 46]

instance : Decidable (IsRootPath path) := inferInstanceAs (Decidable (_ ∨ _))

def Fs.search (part : Partition) (s : Fs) (junk : UInt32) (path : List UInt8) : Found :=
  if IsRootPath path then ⟨0, none, [], .directory⟩
  else s.resolve part 0 junk none [] (components path)

def Fs.atDir (part : Partition) (s : Fs) : Option UInt32 → DirRef × Fs
  | none => (.root, s)
  | some d => (.opened (s.opened part d).1, (s.opened part d).2)

structure Fs.Searchable (s : Fs) : Prop where
  addrs : s.AddrNodup
  pos : ∀ addr ino, s.inode? addr = some ino → 0 < ino.iOpenCnts
  root : ∃ ino, s.inode? s.rootDir = some ino

theorem Fs.atDir_vol {dir : Option UInt32} : (s.atDir part dir).2.vol = s.vol := by
  cases dir with
  | none => rfl
  | some d => exact Fs.opened_vol

theorem Fs.Searchable.atDir_inode (hs : s.Searchable) {dir : Option UInt32}
    : ∃ k, (s.atDir part dir).2.inode? ((s.atDir part dir).2.dirInode (s.atDir part dir).1)
        = some { s.dirView part dir with iOpenCnts := k } := by
  cases dir with
  | none =>
    obtain ⟨ino, hroot⟩ := hs.root
    refine ⟨ino.iOpenCnts, ?_⟩
    have hview : s.dirView part none = ino := by simp [Fs.dirView, hroot]
    rw [hview]
    exact hroot
  | some d =>
    obtain ⟨k, hk⟩ := @Fs.AddrNodup.opened_inode? part s d hs.addrs
    exact ⟨k + 1, hk⟩

theorem Fs.Searchable.dirClose_atDir (hs : s.Searchable) {dir : Option UInt32} {r : Unit × Fs}
    (h : (dirClose (s.atDir part dir).1).run (s.atDir part dir).2 = .ok r) : r.2 = s := by
  cases dir with
  | none =>
    rw [atDir, dirClose, Cmd.pure_run] at h
    rw [h]
  | some d =>
    rw [atDir, dirClose, inodeClose_run] at h
    obtain ⟨ino, h1, h2⟩ := h
    rw [h2]
    exact hs.addrs.closed_opened hs.pos h1

theorem dirOpen_run {d : UInt32} {r : DirRef × Fs} (h : (dirOpen part d).run s = .ok r)
    : r = s.atDir part (some d) := by
  simp only [dirOpen, Cmd.bind_run, inodeOpen_run, Cmd.pure_run] at h
  obtain ⟨addr, s1, ⟨-, h1⟩, h2⟩ := h
  rw [h2, Fs.atDir, ← h1]

theorem parseName_run {σ : Type} {x : σ} {subPath : Option (List UInt8)}
    {r : (List UInt8 × Option (List UInt8)) × σ} (h : (searchFile.parseName subPath).run x = .ok r)
    : remaining r.1.1 r.1.2 = components (subPath.getD []) ∧ r.2 = x := by
  cases subPath with
  | none =>
    rw [searchFile.parseName, Cmd.pure_run] at h
    rw [h]
    exact ⟨rfl, rfl⟩
  | some p =>
    simp only [searchFile.parseName, Cmd.bind_run, Cmd.assert_run, Cmd.pure_run] at h
    obtain ⟨_, _, ⟨-, h1⟩, h2⟩ := h
    cases h1
    rw [h2]
    exact ⟨remaining_pathParse, rfl⟩

section Searched

theorem Fs.resolve_searched {prev last : UInt32} {dir : Option UInt32}
    {done names : List (List UInt8)}
    : (s.resolve part prev last dir done names).searched <+: done ++ names
      ∧ ((s.resolve part prev last dir done names).fileType ≠ .directory →
          (s.resolve part prev last dir done names).searched ≠ []) := by
  induction names generalizing prev last dir done with
  | nil =>
    simp only [Fs.resolve, List.append_nil]
    exact ⟨List.prefix_rfl, fun h => absurd rfl h⟩
  | cons c cs ih =>
    have hsplit : done ++ c :: cs = done ++ [c] ++ cs := by simp
    rw [hsplit]
    simp only [Fs.resolve]
    split
    . exact ⟨List.prefix_append _ _, fun _ => by simp⟩
    . split
      . exact ih
      . split
        . exact ⟨List.prefix_append _ _, fun _ => by simp⟩
        . exact ih

theorem Fs.search_searched
    : (s.search part junk path).searched <+: components path
      ∧ ((s.search part junk path).fileType ≠ .directory → (s.search part junk path).searched
          ≠ []) := by
  unfold Fs.search
  split
  . exact ⟨List.nil_prefix, fun h => absurd rfl h⟩
  . exact @Fs.resolve_searched part s 0 junk none [] (components path)

theorem Fs.length_lt_searched {prev last : UInt32} {dir : Option UInt32}
    {done names : List (List UInt8)}
    (h : (s.resolve part prev last dir done names).fileType = .regular)
    : done.length < (s.resolve part prev last dir done names).searched.length := by
  induction names generalizing prev last dir done with
  | nil => contradiction
  | cons c cs ih =>
    have hlen : (done ++ [c]).length = done.length + 1 := by simp
    simp only [Fs.resolve] at h ⊢
    cases hlook : s.lookAt part dir c with
    | none =>
      rw [hlook] at h
      contradiction
    | some e =>
      rw [hlook] at h
      dsimp only at h ⊢
      split at h
      . next hdir =>
        rw [if_pos hdir]
        have := ih h
        omega
      . next hdir =>
        rw [if_neg hdir]
        split at h
        . next hreg =>
          rw [if_pos hreg]
          simp
        . next hreg =>
          rw [if_neg hreg]
          have := ih h
          omega

theorem parseName_short {σ : Type} {x : σ} {subPath : Option (List UInt8)}
    {r : (List UInt8 × Option (List UInt8)) × σ} (h : (searchFile.parseName subPath).run x = .ok r)
    : r.1.1.length ≤ 16 := by
  cases subPath with
  | none =>
    rw [searchFile.parseName, Cmd.pure_run] at h
    rw [h]
    exact Nat.zero_le _
  | some p =>
    simp only [searchFile.parseName, Cmd.bind_run, Cmd.assert_run, Cmd.pure_run] at h
    obtain ⟨_, _, ⟨h1, -⟩, h2⟩ := h
    rw [h2]
    exact h1

end Searched

theorem short_of_take {c : List UInt8} {cs done searched : List (List UInt8)} (hc : c.length ≤ 16)
    (hlen : (done ++ [c]).length < searched.length)
    (h : ∀ x ∈ cs.take (searched.length + 1 - (done ++ [c]).length), x.length ≤ 16)
    : ∀ x ∈ (c :: cs).take (searched.length + 1 - done.length), x.length ≤ 16 := by
  rw [List.length_append, List.length_singleton] at hlen h
  have hk : searched.length + 1 - done.length = searched.length + 1 - (done.length + 1) + 1 := by
    omega
  rw [hk, List.take_succ_cons]
  intro x hx
  cases List.mem_cons.mp hx with
  | inl hx =>
    rw [hx]
    exact hc
  | inr hx => exact h x hx

theorem searchFile.finish_run {c : searchFile.Cursor} {dir : Option UInt32} (hs : s.Searchable)
    (hdir : (c.parentDir, t) = s.atDir part dir) {r : (UInt32 × PathSearchRecord) × Fs}
    (h : (searchFile.finish part c).run t = .ok r)
    : r = ((c.dirENo, ⟨c.searchedPath, (s.atDir part (some c.parentInodeNo)).1, .directory⟩),
        (s.atDir part (some c.parentInodeNo)).2) := by
  have hpar : c.parentDir = (s.atDir part dir).1 := congrArg Prod.fst hdir
  have ht : t = (s.atDir part dir).2 := congrArg Prod.snd hdir
  simp only [searchFile.finish, Cmd.bind_run, Cmd.pure_run] at h
  obtain ⟨_, s1, h1, d, s2, h2, h3⟩ := h
  rw [hpar, ht] at h1
  have hs1 : s1 = s := hs.dirClose_atDir h1
  rw [hs1] at h2
  have h4 := dirOpen_run h2
  rw [← h4, h3]

/--
A pass of the loop of `search_file`: the name of the cursor is looked up in the directory `dir`, and
the next name is parsed.
-/
inductive searchFile.Pass (part : Partition) (s t : Fs) (dir : Option UInt32) (fuel : Nat)
    (c : searchFile.Cursor) (r : (UInt32 × PathSearchRecord) × Fs) : Prop
  | missing (look : s.lookAt part dir c.name = none)
      (ret : r = ((notFound, ⟨c.searchedPath ++ 47 :: c.name, c.parentDir, .unknown⟩), t))
  | directory {e : DirEntry} {name : List UInt8} {subPath : Option (List UInt8)} {d : DirRef}
      {s' : Fs} (look : s.lookAt part dir c.name = some e)
      (type : e.fType = FileType.directory.code)
      (parse : remaining name subPath = components (c.subPath.getD []))
      (opened : (d, s') = s.atDir part (some e.iNo))
      (next : (searchFile.go part fuel ⟨name, subPath, c.searchedPath ++ 47 :: c.name, d,
        (s.dirView part dir).iNo, e.iNo⟩).run s' = .ok r)
  | regular {e : DirEntry} {name : List UInt8} {subPath : Option (List UInt8)}
      (look : s.lookAt part dir c.name = some e) (notDir : e.fType ≠ FileType.directory.code)
      (type : e.fType = FileType.regular.code)
      (parse : remaining name subPath = components (c.subPath.getD [])) (short : name.length ≤ 16)
      (ret : r = ((e.iNo, ⟨c.searchedPath ++ 47 :: c.name, c.parentDir, .regular⟩), t))
  | other {e : DirEntry} {name : List UInt8} {subPath : Option (List UInt8)}
      (look : s.lookAt part dir c.name = some e) (notDir : e.fType ≠ FileType.directory.code)
      (notFile : e.fType ≠ FileType.regular.code)
      (parse : remaining name subPath = components (c.subPath.getD []))
      (next : (searchFile.go part fuel ⟨name, subPath, c.searchedPath ++ 47 :: c.name, c.parentDir,
        c.parentInodeNo, e.iNo⟩).run t = .ok r)

theorem searchFile.go_pass {fuel : Nat} {c : searchFile.Cursor} {dir : Option UInt32}
    (hs : s.Searchable) (hdir : (c.parentDir, t) = s.atDir part dir) (hname : c.name ≠ [])
    {r : (UInt32 × PathSearchRecord) × Fs} (h : (searchFile.go part (fuel + 1) c).run t = .ok r)
    : c.name.length < 16 ∧ searchFile.Pass part s t dir fuel c r := by
  have hpar : c.parentDir = (s.atDir part dir).1 := congrArg Prod.fst hdir
  have ht : t = (s.atDir part dir).2 := congrArg Prod.snd hdir
  rw [searchFile.go, if_neg hname] at h
  simp only [Cmd.bind_run, Cmd.assert_run, Cmd.get_run, derefInode_run, onVol_run] at h
  obtain ⟨_, _, ⟨-, h1⟩, _, _, ⟨⟨hn, -⟩, h2⟩, _, _, h3, parent, _, ⟨_, h4, h5⟩, o, s1,
      ⟨v, h6, h7⟩, h8⟩ := h
  cases h1
  cases h2
  cases h3
  cases h5
  obtain ⟨k, hk⟩ := @Fs.Searchable.atDir_inode part s hs dir
  rw [← ht, ← hpar, h4, Option.some.injEq] at hk
  have hvol : t.vol = s.vol := by
    rw [ht]
    exact Fs.atDir_vol
  have hsearch : (searchDirEntry part (s.dirView part dir) c.name).run s.vol = .ok (o, v) := by
    rw [← hvol, ← h6, hk]
    rfl
  have hlook := Fs.lookAt_eq hsearch
  rw [Prod.mk.injEq] at hlook
  have hs1 : s1 = t := by
    rw [h7, hlook.2, ← hvol]
  rw [hs1] at h8
  refine ⟨hn, ?_⟩
  cases o with
  | none =>
    rw [Cmd.pure_run] at h8
    exact .missing hlook.1.symm h8
  | some e =>
    simp only [Cmd.bind_run] at h8
    obtain ⟨⟨name', sub'⟩, s2, h9, h10⟩ := h8
    obtain ⟨hrem, hs2⟩ := parseName_run h9
    have hshort := parseName_short h9
    dsimp only at hrem hs2 hshort h10
    rw [hs2] at h10
    split at h10
    . next hty =>
      simp only [Cmd.bind_run] at h10
      obtain ⟨_, s3, h11, d, s4, h12, h13⟩ := h10
      rw [hpar, ht] at h11
      have hs3 : s3 = s := hs.dirClose_atDir h11
      rw [hs3] at h12
      have hiNo : parent.iNo = (s.dirView part dir).iNo := by rw [hk]
      rw [hiNo] at h13
      exact .directory hlook.1.symm hty hrem (dirOpen_run h12) h13
    . next hty =>
      split at h10
      . next hreg => exact .regular hlook.1.symm hty hreg hrem hshort (Cmd.pure_run.mp h10)
      . next hreg => exact .other hlook.1.symm hty hreg hrem h10

theorem short_of_parse {c n : List UInt8} {p : Option (List UInt8)} {cs : List (List UInt8)}
    (hc : c.length ≤ 16) (hn : n.length ≤ 16) (hparse : remaining n p = cs)
    : ∀ x ∈ (c :: cs).take 2, x.length ≤ 16 := by
  intro x hx
  rw [← hparse] at hx
  simp only [List.take_succ_cons, List.mem_cons] at hx
  cases hx with
  | inl hx =>
    rw [hx]
    exact hc
  | inr hx =>
    unfold remaining at hx
    split at hx
    . contradiction
    . simp only [List.take_succ_cons, List.take_zero, List.mem_singleton] at hx
      rw [hx]
      exact hn

theorem searchFile.go_run {fuel : Nat} {c : searchFile.Cursor} {dir : Option UInt32}
    {done names : List (List UInt8)} (hs : s.Searchable)
    (hdir : (c.parentDir, t) = s.atDir part dir) (hnames : remaining c.name c.subPath = names)
    (hdone : c.searchedPath = joinPath done) {r : (UInt32 × PathSearchRecord) × Fs}
    (h : (searchFile.go part fuel c).run t = .ok r)
    : let f := s.resolve part c.parentInodeNo c.dirENo dir done names
      r = ((f.no, ⟨joinPath f.searched, (s.atDir part f.dir).1, f.fileType⟩),
        (s.atDir part f.dir).2)
        ∧ (f.fileType = .regular → ∀ x ∈ names.take (f.searched.length + 1 - done.length), x.length
            ≤ 16)
        ∧ ((∀ x ∈ done, x.length < 16) → ∀ x ∈ f.searched, x.length < 16) := by
  induction fuel generalizing c dir done names t with
  | zero => exact absurd h Cmd.throw_run
  | succ fuel ih =>
    rw [remaining] at hnames
    split at hnames
    . next hname =>
      -- the path is used up
      rw [searchFile.go, if_pos hname] at h
      rw [← hnames]
      refine ⟨?_, fun h => by contradiction, fun h => h⟩
      rw [searchFile.finish_run hs hdir h, hdone]
      rfl
    . next hname =>
      obtain ⟨hn, hpass⟩ := searchFile.go_pass hs hdir hname h
      have hdone' : c.searchedPath ++ 47 :: c.name = joinPath (done ++ [c.name]) := by
        rw [hdone, joinPath, joinPath, List.flatMap_append, List.flatMap_singleton]
      have hsnoc : (∀ x ∈ done, x.length < 16) → ∀ x ∈ done ++ [c.name], x.length < 16 := by
        intro hd x hx
        cases List.mem_append.mp hx with
        | inl hx => exact hd x hx
        | inr hx =>
          rw [List.mem_singleton.mp hx]
          exact hn
      rw [← hnames]
      simp only [Fs.resolve]
      cases hpass with
      | missing look ret =>
        rw [look]
        refine ⟨?_, fun h => by contradiction, hsnoc⟩
        rw [← hdir, ret, hdone']
      | directory look type parse opened next =>
        rw [look]
        dsimp only
        rw [if_pos type]
        have hgo := ih opened parse hdone' next
        refine ⟨hgo.1, fun hreg => ?_, fun hd => hgo.2.2 (hsnoc hd)⟩
        exact short_of_take (Nat.le_of_lt hn) (Fs.length_lt_searched hreg) (hgo.2.1 hreg)
      | regular look notDir type parse short ret =>
        rw [look]
        dsimp only
        rw [if_neg notDir, if_pos type]
        dsimp only
        refine ⟨by rw [← hdir, ret, hdone'], fun _ => ?_, hsnoc⟩
        have hlen : (done ++ [c.name]).length + 1 - done.length = 2 := by simp; omega
        rw [hlen]
        exact short_of_parse (Nat.le_of_lt hn) short parse
      | other look notDir notFile parse next =>
        rename_i e name' sub'
        rw [look]
        dsimp only
        rw [if_neg notDir, if_neg notFile]
        have hgo := ih (c := ⟨name', sub', _, c.parentDir, _, _⟩) hdir parse hdone' next
        refine ⟨hgo.1, fun hreg => ?_, fun hd => hgo.2.2 (hsnoc hd)⟩
        exact short_of_take (Nat.le_of_lt hn) (Fs.length_lt_searched hreg) (hgo.2.1 hreg)

theorem searchFile_full (hs : s.Searchable) {r : (UInt32 × PathSearchRecord) × Fs}
    (h : (searchFile part junk path).run s = .ok r)
    : let f := s.search part junk path
      r = ((f.no, ⟨joinPath f.searched, (s.atDir part f.dir).1, f.fileType⟩),
        (s.atDir part f.dir).2)
        ∧ (f.fileType = .regular → ∀ x ∈ (components path).take (f.searched.length + 1), x.length
            ≤ 16)
        ∧ ∀ x ∈ f.searched, x.length < 16 := by
  unfold searchFile at h
  unfold Fs.search
  split at h
  . next hroot =>
    rw [Cmd.pure_run] at h
    rw [if_pos (show IsRootPath path from hroot)]
    exact ⟨h, fun h => by contradiction, fun x hx => by contradiction⟩
  . next hroot =>
    rw [if_neg (show ¬ IsRootPath path from hroot)]
    simp only [Cmd.bind_run, Cmd.assert_run] at h
    obtain ⟨_, _, ⟨-, h1⟩, ⟨name, sub⟩, s1, h2, h3⟩ := h
    cases h1
    obtain ⟨hrem, hs1⟩ := parseName_run h2
    dsimp only at hrem hs1
    rw [hs1] at h3
    have hgo := @searchFile.go_run part s s _ _ none [] _ hs rfl hrem rfl _ h3
    exact ⟨hgo.1, hgo.2.1, hgo.2.2 fun x hx => by contradiction⟩

theorem searchFile_run (hs : s.Searchable) {r : (UInt32 × PathSearchRecord) × Fs}
    (h : (searchFile part junk path).run s = .ok r)
    : let f := s.search part junk path
      r = ((f.no, ⟨joinPath f.searched, (s.atDir part f.dir).1, f.fileType⟩),
        (s.atDir part f.dir).2) :=
  (searchFile_full hs h).1

theorem searchFile_short (hs : s.Searchable) {r : (UInt32 × PathSearchRecord) × Fs}
    (h : (searchFile part junk path).run s = .ok r)
    (hreg : (s.search part junk path).fileType = .regular)
    : ∀ x ∈ (components path).take ((s.search part junk path).searched.length + 1), x.length ≤ 16 :=
  (searchFile_full hs h).2.1 hreg

theorem searchFile_searched_short (hs : s.Searchable) {r : (UInt32 × PathSearchRecord) × Fs}
    (h : (searchFile part junk path).run s = .ok r)
    : ∀ x ∈ (s.search part junk path).searched, x.length < 16 :=
  (searchFile_full hs h).2.2

section Walk

variable {d n : UInt32} {c : List UInt8} {cs pre post : List (List UInt8)} {e : DirEntry}

inductive Fs.Walks (part : Partition) (s : Fs) : UInt32 → List (List UInt8) → UInt32 → Prop
  | nil {d : UInt32} : Walks part s d [] d
  | cons {d n : UInt32} {c : List UInt8} {cs : List (List UInt8)} {e : DirEntry}
      (look : s.look part d c = some e) (dir : e.fType = FileType.directory.code)
      (rest : Walks part s e.iNo cs n) : Walks part s d (c :: cs) n

theorem Fs.Walks.snoc (h : s.Walks part d cs n) (hlook : s.look part n c = some e)
    (hdir : e.fType = FileType.directory.code) : s.Walks part d (cs ++ [c]) e.iNo := by
  induction h with
  | nil => exact .cons hlook hdir .nil
  | cons look dir rest ih => exact .cons look dir (ih hlook)

theorem Fs.Walks.next {m : UInt32} (h : s.Walks part d (pre ++ c :: post) n)
    (hpre : s.Walks part d pre m)
    : ∃ e, s.look part m c = some e ∧ e.fType = FileType.directory.code := by
  induction hpre with
  | nil =>
    cases h with
    | cons look dir rest => exact ⟨_, look, dir⟩
  | cons look dir rest ih =>
    cases h with
    | cons look' dir' rest' =>
      rw [look, Option.some.injEq] at look'
      subst look'
      exact ih rest'

structure Fs.DirTree (part : Partition) (s : Fs) (D : UInt32 → Prop) : Prop where
  root : D 0
  rootDir : s.dirView part none = s.view part 0
  dots : ∀ c, c = [46] ∨ c = [46, 46] → ∃ e, s.look part 0 c = some e ∧ e.iNo = 0
  iNo : ∀ d, D d → (s.view part d).iNo = d
  lt : ∀ d, D d → d.toNat < 4096
  inBlocks : ∀ d, D d → (s.vol.image part).InBlocks part (s.view part d)
  child : ∀ d c e, D d → IsName c → s.look part d c = some e →
    e.iNo.toNat < 4096 ∧ (e.fType = FileType.regular.code ∨ e.fType = FileType.directory.code
      ∧ D e.iNo)

inductive Fs.Resolved (part : Partition) (s : Fs) (D : UInt32 → Prop) (names : List (List UInt8))
    : Found → Prop
  | missing {pre post : List (List UInt8)} {c : List UInt8} {dir : Option UInt32}
      (split : names = pre ++ c :: post) (walks : s.Walks part 0 pre (dir.getD 0))
        (isDir : D (dir.getD 0))
      (look : s.look part (dir.getD 0) c = none)
    : Resolved part s D names ⟨notFound, dir, pre ++ [c], .unknown⟩
  | regular {pre post : List (List UInt8)} {c : List UInt8} {dir : Option UInt32} {e : DirEntry}
      (split : names = pre ++ c :: post) (walks : s.Walks part 0 pre (dir.getD 0))
        (isDir : D (dir.getD 0))
      (look : s.look part (dir.getD 0) c = some e) (type : e.fType = FileType.regular.code)
    : Resolved part s D names ⟨e.iNo, dir, pre ++ [c], .regular⟩
  | directory {pre : List (List UInt8)} {c : List UInt8} {d : UInt32} {e : DirEntry}
      (split : names = pre ++ [c]) (walks : s.Walks part 0 pre d) (isDir : D d)
      (look : s.look part d c = some e) (type : e.fType = FileType.directory.code)
    : Resolved part s D names ⟨e.iNo, some d, pre ++ [c], .directory⟩

theorem Fs.DirTree.resolve {D : UInt32 → Prop} {prev last : UInt32} {dir : Option UInt32}
    {done names : List (List UInt8)} (hT : s.DirTree part D) (hdir : D (dir.getD 0))
    (hwalk : s.Walks part 0 done (dir.getD 0)) (hne : names ≠ []) (hnames : ∀ c ∈ names, IsName c)
    : s.Resolved part D (done ++ names) (s.resolve part prev last dir done names) := by
  induction names generalizing prev last dir done with
  | nil => contradiction
  | cons c cs ih =>
    have hview : s.dirView part dir = s.view part (dir.getD 0) := by
      cases dir with
      | none => exact hT.rootDir
      | some d => rfl
    have hlookAt : s.lookAt part dir c = s.look part (dir.getD 0) c := by
      unfold Fs.look Fs.lookAt
      rw [hview]
      rfl
    simp only [Fs.resolve]
    rw [hlookAt, hview]
    cases hlook : s.look part (dir.getD 0) c with
    | none => exact .missing rfl hwalk hdir hlook
    | some e =>
      dsimp only
      obtain ⟨-, hty⟩ := hT.child _ _ _ hdir (hnames c List.mem_cons_self) hlook
      split
      . next h2 =>
        cases hty with
        | inl h1 =>
          rw [h1] at h2
          contradiction
        | inr hD =>
          by_cases hcs : cs = []
          . subst hcs
            rw [Fs.resolve, hT.iNo _ hdir]
            exact .directory rfl hwalk hdir hlook h2
          . have hrec := @ih (s.view part (dir.getD 0)).iNo e.iNo (some e.iNo) (done ++ [c]) hD.2
              (hwalk.snoc hlook h2) hcs (fun x hx => hnames x (List.mem_cons_of_mem c hx))
            rw [List.append_assoc, List.singleton_append] at hrec
            exact hrec
      . next h2 =>
        rw [if_pos (hty.resolve_right fun h => h2 h.1)]
        exact .regular rfl hwalk hdir hlook (hty.resolve_right fun h => h2 h.1)

theorem Fs.DirTree.search {D : UInt32 → Prop} (hT : s.DirTree part D) (hroot : ¬ IsRootPath path)
    (hne : components path ≠ []) (hnul : 0 ∉ path)
    : s.Resolved part D (components path) (s.search part junk path) := by
  unfold Fs.search
  rw [if_neg hroot]
  exact @Fs.DirTree.resolve part s D 0 junk none [] (components path) hT hT.root .nil hne
    (fun _ hc => isName_of_mem_components hnul hc)

end Walk

end RogOS
