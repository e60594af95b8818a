import RogOS.Fs.Lemmas.Syscall

/-!
Searches that return: in directories whose blocks are in the partition, `search_file` comes to its
end if the names that it parses fit into its array.
-/

namespace RogOS

variable {part : Partition} {s t : Fs} {D : UInt32 → Prop} {junk d n : UInt32} {p x : List UInt8}
  {dir : Option UInt32} {done names pre post : List (List UInt8)} {e : DirEntry}

section Length

theorem length_joinPath {cs : List (List UInt8)} : cs.length ≤ (joinPath cs).length := by
  induction cs with
  | nil => exact Nat.le_refl _
  | cons c cs ih =>
    rw [joinPath, List.flatMap_cons] at *
    simp only [List.length_append, List.length_cons] at *
    omega

theorem length_joinPath_cons {c : List UInt8} {cs : List (List UInt8)}
    : (joinPath (c :: cs)).length = c.length + 1 + (joinPath cs).length := by
  simp only [joinPath, List.flatMap_cons, List.length_append, List.length_cons]

theorem length_joinPath_components {p : List UInt8} (h : p.head? = some 47)
    : (joinPath (components p)).length ≤ p.length := by
  have hpos : ∀ (n : Nat) (c r : List UInt8), c ≠ [] → 47 ∉ c →
      (List.replicate n 47 ++ (c ++ r)).head? = some 47 → 0 < n := by
    intro n c r h1 h2 h3
    cases n with
    | zero =>
      cases c with
      | nil => contradiction
      | cons x c =>
        simp only [List.replicate_zero, List.nil_append, List.cons_append, List.head?_cons,
          Option.some.injEq] at h3
        rw [h3] at h2
        exact absurd List.mem_cons_self h2
    | succ n => omega
  induction p using path_induction with
  | slashes n =>
    rw [components_replicate]
    exact Nat.zero_le _
  | last n c h1 h2 =>
    have hn := hpos n c [] h1 h2 (by rw [List.append_nil]; exact h)
    rw [components_slashes, components_single h1 h2]
    simp only [joinPath, List.flatMap_cons, List.flatMap_nil, List.length_append, List.length_cons,
      List.length_nil, List.length_replicate]
    omega
  | step n c r h1 h2 ih =>
    have hn := hpos n c _ h1 h2 h
    have hrest := ih rfl
    rw [components_slash] at hrest
    rw [components_slashes, components_append_slash h1 h2]
    simp only [joinPath, List.flatMap_cons, List.length_append, List.length_cons,
      List.length_replicate] at hrest ⊢
    omega

theorem length_components_of_isRootPath {p : List UInt8} (h : IsRootPath p)
    : (components p).length ≤ 1 := by
  obtain rfl | rfl | rfl := h <;> decide

theorem not_isRootPath {p c : List UInt8} (h : components p = names ++ [c]) (h1 : c ≠ [46])
    (h2 : c ≠ [46, 46])
    : ¬ IsRootPath p := by
  have hlast : (components p).getLast? = some c := by
    rw [h, List.getLast?_concat]
  rintro (rfl | rfl | rfl)
  . contradiction
  . cases hlast
    exact h1 rfl
  . cases hlast
    exact h2 rfl

end Length

def PassesAssertion (path : List UInt8) : Prop :=
  IsRootPath path ∨ path.head? = some 47 ∧ 1 < path.length ∧ path.length < 512

instance {path : List UInt8}
    : Decidable (PassesAssertion path) := inferInstanceAs (Decidable (_ ∨ _))

section Steps

theorem parseName_ok {σ : Type} {x : σ} {subPath : Option (List UInt8)}
    (h : ∀ c ∈ (components (subPath.getD [])).head?, c.length ≤ 16)
    : ∃ r, (searchFile.parseName subPath).run x = .ok (r, x) := by
  cases subPath with
  | none => exact ⟨_, Cmd.pure_run.mpr rfl⟩
  | some p =>
    refine ⟨pathParse p, ?_⟩
    simp only [searchFile.parseName, Cmd.bind_run, Cmd.assert_run, Cmd.pure_run]
    refine ⟨_, _, ⟨?_, rfl⟩, rfl⟩
    rw [Option.getD_some, ← remaining_pathParse] at h
    unfold remaining at h
    split at h
    . next hnil =>
      rw [hnil]
      exact Nat.zero_le _
    . exact h _ rfl

theorem dirClose_atDir_ok (hs : s.Searchable)
    : (dirClose (s.atDir part dir).1).run (s.atDir part dir).2 = .ok ((), s) := by
  cases dir with
  | none => exact Cmd.pure_run.mpr rfl
  | some d =>
    obtain ⟨k, hk⟩ := @Fs.AddrNodup.opened_inode? part s d hs.addrs
    rw [Fs.atDir, dirClose, inodeClose_run]
    exact ⟨_, hk, by rw [hs.addrs.closed_opened hs.pos hk]⟩

theorem dirOpen_ok (hd : d.toNat < 4096)
    : (dirOpen part d).run s = .ok (s.atDir part (some d)) := by
  simp only [dirOpen, Cmd.bind_run, inodeOpen_run, Cmd.pure_run]
  exact ⟨_, _, ⟨fun _ => hd, rfl⟩, rfl⟩

theorem searchFile.go_lookup {fuel : Nat} {c : searchFile.Cursor} (hs : s.Searchable)
    (hdir : (c.parentDir, t) = s.atDir part dir)
    (hblocks : (s.vol.image part).InBlocks part (s.dirView part dir)) (hname : c.name ≠ [])
    (hshort : c.name.length < 16) (hlen : (c.searchedPath ++ 47 :: c.name).length < 512)
    : (searchFile.go part (fuel + 1) c).run t
        =
      (match s.lookAt part dir c.name with
      | none => pure (notFound, ⟨c.searchedPath ++ 47 :: c.name, c.parentDir, .unknown⟩)
      | some e => do
        let (name, subPath) ← searchFile.parseName c.subPath
        if e.fType = FileType.directory.code then
          dirClose c.parentDir
          let parentDir ← dirOpen part e.iNo
          searchFile.go part fuel
            ⟨name, subPath, c.searchedPath ++ 47 :: c.name, parentDir, (s.dirView part dir).iNo,
              e.iNo⟩
        else if e.fType = FileType.regular.code then
          pure (e.iNo, ⟨c.searchedPath ++ 47 :: c.name, c.parentDir, .regular⟩)
        else
          searchFile.go part fuel
            ⟨name, subPath, c.searchedPath ++ 47 :: c.name, c.parentDir, c.parentInodeNo, e.iNo⟩
        : FsM (UInt32 × PathSearchRecord)).run t := by
  have hpar : c.parentDir = (s.atDir part dir).1 := congrArg Prod.fst hdir
  have ht : t = (s.atDir part dir).2 := congrArg Prod.snd hdir
  have hvol : t.vol = s.vol := by
    rw [ht]
    exact Fs.atDir_vol
  obtain ⟨k, hk⟩ := @Fs.Searchable.atDir_inode part s hs dir
  rw [← ht, ← hpar] at hk
  have hsearch := @searchDirEntry_run part s.vol _ c.name hblocks
  have hrun : (onVol (searchDirEntry part { s.dirView part dir with iOpenCnts := k } c.name)).run t
      = .ok (s.lookAt part dir c.name, t) := by
    rw [onVol_run]
    refine ⟨s.vol, ?_, by rw [← hvol]⟩
    rw [hvol]
    exact hsearch.trans (congrArg Except.ok (Fs.lookAt_eq hsearch))
  rw [List.length_append] at hlen
  rewrite [searchFile.go, if_neg hname, Cmd.exec_assert_bind, if_pos (by omega),
    Cmd.exec_assert_bind, if_pos ⟨hshort, by rw [List.length_append]; exact hlen⟩,
    Cmd.exec_get_bind, Cmd.exec_bind (derefInode_run.mpr ⟨_, hk, rfl⟩), Cmd.exec_bind hrun]
  cases s.lookAt part dir c.name with
  | none => rfl
  | some e => rfl

end Steps

/--
What a search relies on in the directories it can come to: they are closed under going to a
subdirectory, and their blocks are blocks of the partition.
-/
structure Fs.DirGraph (part : Partition) (s : Fs) (D : UInt32 → Prop) : Prop where
  root : D 0
  rootDir : s.dirView part none = s.view part 0
  iNo : ∀ d, D d → (s.view part d).iNo = d
  lt : ∀ d, D d → d.toNat < 4096
  inBlocks : ∀ d, D d → (s.vol.image part).InBlocks part (s.view part d)
  child : ∀ d c e, D d → IsName c → s.look part d c = some e → e.fType = FileType.directory.code
    → D e.iNo

theorem Fs.DirTree.graph (h : s.DirTree part D) : s.DirGraph part D where
  root := h.root
  rootDir := h.rootDir
  iNo := h.iNo
  lt := h.lt
  inBlocks := h.inBlocks
  child d c e hd hc hlook hdir := by
    obtain ⟨-, h1 | h2⟩ := h.child d c e hd hc hlook
    . rw [hdir] at h1
      contradiction
    . exact h2.2

/--
The names that `search_file` looks up on its way from a directory on leave room for a NUL in the
array, and the one behind a file fits into it.
-/
def Fs.Parses (part : Partition) (s : Fs)
    : (dir : Option UInt32) → (names : List (List UInt8)) → Prop
  | _, [] => True
  | dir, c :: cs =>
    c.length < 16 ∧ match s.lookAt part dir c with
      | none => True
      | some e =>
        if e.fType = FileType.directory.code then
          s.Parses part (some e.iNo) cs
        else if e.fType = FileType.regular.code then
          ∀ y ∈ cs.head?, y.length ≤ 16
        else
          s.Parses part dir cs

theorem Fs.parses_of_short (h : ∀ y ∈ names, y.length < 16) : s.Parses part dir names := by
  induction names generalizing dir with
  | nil => trivial
  | cons c cs ih =>
    have hcs : ∀ y ∈ cs, y.length < 16 := fun y hy => h y (List.mem_cons_of_mem c hy)
    refine ⟨h c List.mem_cons_self, ?_⟩
    split
    . trivial
    . split
      . exact ih hcs
      . split
        . exact fun y hy => Nat.le_of_lt (hcs y (List.mem_of_mem_head? hy))
        . exact ih hcs

theorem Fs.Parses.head {y : List UInt8} (h : s.Parses part dir names) (hy : y ∈ names.head?)
    : y.length < 16 := by
  cases names with
  | nil => contradiction
  | cons c cs =>
    cases hy
    exact h.1

theorem Fs.Parses.next {y : List UInt8} (h : s.Parses part dir (x :: names))
    (hlook : s.lookAt part dir x = some e) (hy : y ∈ names.head?) : y.length ≤ 16 := by
  obtain ⟨-, h⟩ := h
  rw [hlook] at h
  dsimp only at h
  split at h
  . exact Nat.le_of_lt (h.head hy)
  . split at h
    . exact h y hy
    . exact Nat.le_of_lt (h.head hy)

namespace Fs.DirGraph

variable (hG : s.DirGraph part D)

include hG

theorem dirView_eq : s.dirView part dir = s.view part (dir.getD 0) := by
  cases dir with
  | none => exact hG.rootDir
  | some d => rfl

theorem lookAt_eq : s.lookAt part dir x = s.look part (dir.getD 0) x := by
  unfold Fs.look Fs.lookAt
  rw [hG.dirView_eq]
  rfl

theorem go_returns (hs : s.Searchable) {fuel : Nat} {c : searchFile.Cursor}
    (hdir : (c.parentDir, t) = s.atDir part dir) (hD : D (dir.getD 0))
    (hnames : remaining c.name c.subPath = names)
    (hlen : c.searchedPath.length + (joinPath names).length < 512) (hfuel : names.length < fuel)
    (hprev : c.parentInodeNo.toNat < 4096) (hproper : ∀ y ∈ names, IsName y)
    (hshort : s.Parses part dir names)
    : ∃ r, (searchFile.go part fuel c).run t = .ok r := by
  induction fuel generalizing c t dir names with
  | zero => omega
  | succ fuel ih =>
    by_cases hname : c.name = []
    . -- the path is used up
      have hpar : c.parentDir = (s.atDir part dir).1 := congrArg Prod.fst hdir
      have ht : t = (s.atDir part dir).2 := congrArg Prod.snd hdir
      rw [searchFile.go, if_pos hname, searchFile.finish, hpar, ht,
        Cmd.exec_bind (dirClose_atDir_ok hs), Cmd.exec_bind (dirOpen_ok hprev)]
      exact ⟨_, rfl⟩
    . rw [remaining, if_neg hname] at hnames
      subst hnames
      rw [length_joinPath_cons] at hlen
      have hlen' : (c.searchedPath ++ 47 :: c.name).length < 512 := by
        rw [List.length_append, List.length_cons]
        omega
      have hblocks := hG.inBlocks _ hD
      rw [← hG.dirView_eq] at hblocks
      rw [searchFile.go_lookup hs hdir hblocks hname hshort.1 hlen']
      cases hlook : s.lookAt part dir c.name with
      | none => exact ⟨_, rfl⟩
      | some e =>
        obtain ⟨⟨name, subPath⟩, hparse⟩ := @parseName_ok Fs t c.subPath
          fun y hy => hshort.next hlook hy
        obtain ⟨hrem, -⟩ := parseName_run hparse
        dsimp only at hrem ⊢
        rw [Cmd.exec_bind hparse]
        have hproper' : ∀ y ∈ components (c.subPath.getD []), IsName y :=
          fun y hy => hproper y (List.mem_cons_of_mem _ hy)
        rw [List.length_cons] at hfuel
        have hlen'' :
            (c.searchedPath ++ 47 :: c.name).length
            + (joinPath (components (c.subPath.getD []))).length < 512 := by
          rw [List.length_append, List.length_cons]
          omega
        dsimp only
        split
        . next hty =>
          simp only [Fs.Parses, hlook, hty, ↓reduceIte] at hshort
          have hpar : c.parentDir = (s.atDir part dir).1 := congrArg Prod.fst hdir
          have ht : t = (s.atDir part dir).2 := congrArg Prod.snd hdir
          have hD' : D e.iNo := by
            rw [hG.lookAt_eq] at hlook
            exact hG.child _ _ _ hD (hproper _ List.mem_cons_self) hlook hty
          rw [hpar, ht, Cmd.exec_bind (dirClose_atDir_ok hs),
            Cmd.exec_bind (dirOpen_ok (hG.lt _ hD'))]
          apply @ih _ (some e.iNo) _ _ rfl hD' hrem hlen'' (by omega) _ hproper' hshort.2
          rw [hG.dirView_eq, hG.iNo _ hD]
          exact hG.lt _ hD
        . next hty =>
          split
          . exact ⟨_, rfl⟩
          . next hty' =>
            simp only [Fs.Parses, hlook, hty, hty', ↓reduceIte] at hshort
            exact ih hdir hD hrem hlen'' (by omega) hprev hproper' hshort.2

theorem walks (hwalk : s.Walks part d names n) (hd : D d) (hproper : ∀ c ∈ names, IsName c)
    : D n := by
  induction hwalk with
  | nil => exact hd
  | cons look type rest ih =>
    rename_i c cs e
    apply ih _ (fun x hx => hproper x (List.mem_cons_of_mem c hx))
    exact hG.child _ _ _ hd (hproper c List.mem_cons_self) look type

theorem resolve_walks (names : List (List UInt8)) (hwalk : s.Walks part (dir.getD 0) pre d)
    (hD : D (dir.getD 0)) (hproper : ∀ c ∈ pre, IsName c)
    : ∃ dir', dir'.getD 0 = d ∧ (pre = [] → dir' = dir) ∧ (pre ≠ [] → dir' = some d)
        ∧ (∀ prev last done, ∃ prev' last', s.resolve part prev last dir done (pre ++ names)
            = s.resolve part prev' last' dir' (done ++ pre) names)
        ∧ (s.Parses part dir (pre ++ names) ↔ (∀ x ∈ pre, x.length < 16)
            ∧ s.Parses part dir' names) := by
  induction pre generalizing dir with
  | nil =>
    cases hwalk with
    | nil => exact ⟨dir, rfl, fun _ => rfl, fun h => absurd rfl h, fun prev last done =>
        ⟨prev, last, by simp⟩, by simp⟩
  | cons c cs ih =>
    cases hwalk with
    | cons look type rest =>
      rename_i e
      have hlook : s.lookAt part dir c = some e := by
        rw [hG.lookAt_eq]
        exact look
      have hD' := hG.child _ _ _ hD (hproper c List.mem_cons_self) look type
      obtain ⟨dir', h1, h2, h3, h4, h5⟩ :=
        @ih (some e.iNo) rest hD' (fun x hx => hproper x (List.mem_cons_of_mem c hx))
      refine ⟨dir', h1, fun h => absurd h (by simp), fun _ => ?_, ?_, ?_⟩
      . by_cases hcs : cs = []
        . rw [h2 hcs]
          subst hcs
          cases rest
          rfl
        . exact h3 hcs
      . intro prev last done
        obtain ⟨prev', last', h6⟩ := h4 (s.dirView part dir).iNo e.iNo (done ++ [c])
        refine ⟨prev', last', ?_⟩
        rw [List.cons_append, Fs.resolve, hlook]
        simp only [type, ↓reduceIte]
        rw [h6, List.append_assoc, List.singleton_append]
      . rw [List.cons_append, Fs.Parses, hlook]
        simp only [type, ↓reduceIte]
        rw [h5, List.forall_mem_cons, and_assoc]

theorem searchFile_returns (junk : UInt32) (hs : s.Searchable) (hpath : PassesAssertion p)
    (hnul : 0 ∉ p) (hshort : s.Parses part none (components p))
    : ∃ r, (searchFile part junk p).run s = .ok r := by
  unfold searchFile
  split
  . exact ⟨_, rfl⟩
  . next hroot =>
    have hassert := hpath.resolve_left hroot
    have hjoin := length_joinPath_components hassert.1
    have hcount := @length_joinPath (components p)
    obtain ⟨⟨name, subPath⟩, hparse⟩ := @parseName_ok Fs s (some p) fun y hy =>
      Nat.le_of_lt (hshort.head hy)
    obtain ⟨hrem, -⟩ := parseName_run hparse
    rw [Cmd.exec_assert_bind, if_pos hassert, Cmd.exec_bind hparse]
    rw [Option.getD_some] at hrem
    have hlen : ([] : List UInt8).length + (joinPath (components p)).length < 512 := by
      rw [List.length_nil]
      omega
    have hdir : (DirRef.root, s) = s.atDir part none := rfl
    exact hG.go_returns hs hdir hG.root hrem hlen (by omega) (by decide : (0 : UInt32).toNat < 4096)
      (fun _ hy => isName_of_mem_components hnul hy) hshort

end Fs.DirGraph

end RogOS
