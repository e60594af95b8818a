import RogOS.Fs.PathLookup

/-!
The test of `sys_mkdir` that compares depths of paths: when it tells whether the last component of
the path is missing or a directory on the way.
-/

namespace RogOS

variable {part : Partition} {s : Fs} {D : UInt32 → Prop} {junk : UInt32} {path : CStr}
  {names pre pre' post : List (List UInt8)} {c c' : List UInt8} {d d' : UInt32}

def Fs.LastMissing (part : Partition) (s : Fs) (names : List (List UInt8)) : Prop :=
  ∃ pre c d, names = pre ++ [c] ∧ s.Walks part 0 pre d ∧ s.look part d c = none

def mkdirLast (part : Partition) (ialloc balloc : VolM (Option UInt32)) (rec : PathSearchRecord)
    : FsM Int := do
  let dirname ← lastName rec.searchedPath
  let s ← get
  let ok ← onInode (s.dirInode rec.parentDir) (fun i => makeDir part ialloc balloc i dirname)
  dirClose rec.parentDir
  pure (if ok then 0 else -1)

/--
For a path that `search_file` does not find, the depths of the path and of the path searched are the
same if and only if the last component is what is missing, and `sys_mkdir` goes on in this case
only.
-/
structure DepthTest (part : Partition) (s : Fs) (path : CStr) : Prop where
  depth : ∀ junk r, (searchFile part junk path.chars).run s = .ok r → r.1.1 = notFound →
    ∃ m n, (pathDepthCnt path.chars).run () = .ok (m, ()) ∧ (pathDepthCnt r.1.2.searchedPath).run ()
      = .ok (n, ())
      ∧ (m = n ↔ s.LastMissing part (components path.chars))
  mkdir : ∀ ialloc balloc junk r, (searchFile part junk path.chars).run s = .ok r → r.1.1 = notFound
    →
    (s.LastMissing part (components path.chars) →
      (sysMkdirWith part ialloc balloc junk path).run s
        = (mkdirLast part ialloc balloc r.1.2).run r.2)
    ∧ (¬ s.LastMissing part (components path.chars) →
      (sysMkdirWith part ialloc balloc junk path).run s
        = (do dirClose r.1.2.parentDir; pure (-1) : FsM Int).run r.2)

/--
The path has a component, or is the root directory; behind a component that is missing no component
is too long, and no slash follows if it is the last one.
-/
structure DepthSafe (part : Partition) (s : Fs) (path : CStr) : Prop where
  named : IsRootPath path.chars ∨ components path.chars ≠ []
  behind : ∀ pre c post d, components path.chars = pre ++ c :: post → s.Walks part 0 pre d →
    s.look part d c = none → (∀ x ∈ pre ++ [c], x.length < 16) →
      (∀ x ∈ post, x.length ≤ 16) ∧ (post = [] → path.chars.getLast? ≠ some 47)

section Missing

theorem lastMissing_iff (hsplit : names = pre ++ c :: post) (hwalk : s.Walks part 0 pre d)
    (hlook : s.look part d c = none) : s.LastMissing part names ↔ post = [] := by
  constructor
  . rintro ⟨pre', c', d', hsplit', hwalk', -⟩
    by_contra hpost
    rw [← List.dropLast_append_getLast hpost, ← List.cons_append, ← List.append_assoc] at hsplit
    rw [hsplit, List.append_singleton_inj] at hsplit'
    rw [← hsplit'.1] at hwalk'
    obtain ⟨e, he, -⟩ := hwalk'.next hwalk
    rw [hlook] at he
    contradiction
  . rintro rfl
    exact ⟨pre, c, d, hsplit, hwalk, hlook⟩

theorem Fs.DirTree.search_missing (hT : s.DirTree part D)
    (hnamed : IsRootPath path.chars ∨ components path.chars ≠ [])
    (hno : (s.search part junk path.chars).no = notFound)
    : ∃ pre c post d, components path.chars = pre ++ c :: post ∧ s.Walks part 0 pre d
        ∧ s.look part d c = none
        ∧ (s.search part junk path.chars).searched = pre ++ [c] := by
  have hroot : ¬ IsRootPath path.chars := by
    intro hroot
    rw [Fs.search, if_pos hroot] at hno
    exact absurd hno (by decide)
  have hne := hnamed.resolve_left hroot
  have hproper : ∀ x ∈ components path.chars, IsName x := fun x hx =>
    isName_of_mem_components path.nulFree hx
  have hres := @Fs.DirTree.search part s junk path.chars D hT hroot hne path.nulFree
  have hfound : ∀ {d e c}, D d → c ∈ components path.chars → s.look part d c = some e
      → e.iNo ≠ notFound := by
    intro d e c hd hc hlook h0
    have hlt := (hT.child d c e hd (hproper c hc) hlook).1
    rw [h0] at hlt
    exact absurd hlt (by decide)
  generalize s.search part junk path.chars = f at hno hres
  cases hres with
  | missing split walks isDir look => exact ⟨_, _, _, _, split, walks, look, rfl⟩
  | regular split walks isDir look type =>
    exact absurd hno (hfound isDir (by rw [split]; simp) look)
  | directory split walks isDir look type =>
    exact absurd hno (hfound isDir (by rw [split]; simp) look)

theorem Fs.DirTree.searchFile_missing (hT : s.DirTree part D) (hs : s.Searchable)
    (hpath : PassesAssertion path.chars) (hsplit : components path.chars = pre ++ c :: post)
    (hwalk : s.Walks part 0 pre d) (hlook : s.look part d c = none)
    (hshort : ∀ x ∈ pre ++ [c], x.length < 16)
    : ∃ r, (searchFile part junk path.chars).run s = .ok r ∧ r.1.1 = notFound
        ∧ r.1.2.searchedPath = joinPath (pre ++ [c]) := by
  have hproper : ∀ x ∈ components path.chars, IsName x := fun x hx =>
    isName_of_mem_components path.nulFree hx
  rw [hsplit] at hproper
  obtain ⟨dir, hdir, -, -, hres, hparsed⟩ :=
    hT.graph.resolve_walks (c :: post)
      (show s.Walks part ((none : Option UInt32).getD 0) pre d from hwalk) hT.root
      (fun x hx => hproper x (List.mem_append_left _ hx))
  have hlook' : s.lookAt part dir c = none := by
    rw [hT.graph.lookAt_eq, hdir]
    exact hlook
  obtain ⟨r, hr⟩ := hT.graph.searchFile_returns junk hs hpath path.nulFree (by
    rw [hsplit, hparsed, Fs.Parses, hlook']
    exact ⟨fun x hx => hshort x (List.mem_append_left _ hx), hshort c (by simp), trivial⟩)
  have hroot : ¬ IsRootPath path.chars := by
    intro hroot
    have hl := length_components_of_isRootPath hroot
    have hdots : components path.chars = [] ∨ components path.chars = [[46]] ∨ components path.chars
        = [[46, 46]] := by
      obtain h | h | h := hroot <;> rw [h] <;> decide
    have hpre : pre = [] := by
      rw [hsplit, List.length_append, List.length_cons] at hl
      exact List.length_eq_zero_iff.mp (by omega)
    subst hpre
    cases hwalk
    rw [hsplit] at hdots
    have hc : c = [46] ∨ c = [46, 46] := by
      obtain h | h | h := hdots
      . contradiction
      . cases h
        exact .inl rfl
      . cases h
        exact .inr rfl
    obtain ⟨e, he, -⟩ := hT.dots c hc
    rw [hlook] at he
    contradiction
  obtain ⟨_, _, hf⟩ := hres 0 junk []
  refine ⟨r, hr, ?_⟩
  rw [searchFile_run hs hr, Fs.search, if_neg hroot, hsplit, hf, Fs.resolve, hlook']
  exact ⟨rfl, rfl⟩

end Missing

section Depth

theorem pathDepth_joinPath (h : ∀ x ∈ pre ++ [c], x ≠ [] ∧ 47 ∉ x)
    : pathDepth (joinPath (pre ++ [c])) = pre.length := by
  obtain ⟨h1, h2⟩ := h c (by simp)
  rw [pathDepth_of_getLast? (joinPath_getLast? h1 h2), components_joinPath h, List.length_append,
    List.length_singleton, Nat.add_sub_cancel]

theorem DepthSafe.depth (h : DepthSafe part s path) (hs : s.Searchable) (hT : s.DirTree part D)
    {r : (UInt32 × PathSearchRecord) × Fs} (hr : (searchFile part junk path.chars).run s = .ok r)
    (hno : r.1.1 = notFound)
    : ∃ m n, (∀ {σ : Type} (t : σ), (pathDepthCnt path.chars).run t = .ok (m, t))
        ∧ (∀ {σ : Type} (t : σ), (pathDepthCnt r.1.2.searchedPath).run t = .ok (n, t))
        ∧ (m = n ↔ s.LastMissing part (components path.chars)) := by
  have hshort := searchFile_searched_short hs hr
  rw [searchFile_run hs hr] at hno ⊢
  obtain ⟨pre, c, post, d, hsplit, hwalk, hlook, hsearched⟩ := hT.search_missing h.named hno
  rw [hsearched] at hshort
  obtain ⟨hpost, hlast⟩ := h.behind pre c post d hsplit hwalk hlook hshort
  have hall : ∀ x ∈ components path.chars, x.length ≤ 16 := by
    intro x hx
    rw [hsplit, show pre ++ c :: post = pre ++ [c] ++ post by simp] at hx
    cases List.mem_append.mp hx with
    | inl hx => exact Nat.le_of_lt (hshort x hx)
    | inr hx => exact hpost x hx
  have hseg : ∀ x ∈ pre ++ [c], x ≠ [] ∧ 47 ∉ x := by
    intro x hx
    have hmem : x ∈ components path.chars := by
      rw [hsplit, show pre ++ c :: post = pre ++ [c] ++ post by simp]
      exact List.mem_append_left _ hx
    exact ⟨(mem_components hmem).1, (mem_components hmem).2.1⟩
  refine ⟨pathDepth path.chars, pre.length, ?_, ?_, ?_⟩
  . intro σ t
    rw [pathDepthCnt_eq, if_pos hall]
  . intro σ t
    dsimp only
    rw [hsearched, pathDepthCnt_eq, components_joinPath hseg, if_pos fun x hx =>
      Nat.le_of_lt (hshort x hx), pathDepth_joinPath hseg]
  . rw [lastMissing_iff hsplit hwalk hlook, pathDepth, hsplit, List.length_append, List.length_cons]
    constructor
    . intro heq
      apply List.length_eq_zero_iff.mp
      split at heq <;> omega
    . intro hpost
      rw [if_neg (hlast hpost), hpost]
      rfl

theorem DepthSafe.test (h : DepthSafe part s path) (hs : s.Searchable) (hT : s.DirTree part D)
    : DepthTest part s path := by
  constructor
  . intro junk r hr hno
    obtain ⟨m, n, hm, hn, hiff⟩ := h.depth hs hT hr hno
    exact ⟨m, n, hm (), hn (), hiff⟩
  . intro ialloc balloc junk r hr hno
    obtain ⟨m, n, hm, hn, hiff⟩ := h.depth hs hT hr hno
    have hnot : ¬ r.1.1 ≠ notFound := fun hne => hne hno
    have hrun : (sysMkdirWith part ialloc balloc junk path).run s
        = (if m ≠ n then (do dirClose r.1.2.parentDir; pure (-1) : FsM Int)
          else mkdirLast part ialloc balloc r.1.2).run r.2 := by
      rw [sysMkdirWith, Cmd.exec_bind hr]
      dsimp only
      rw [if_neg hnot, Cmd.exec_bind (hm r.2), Cmd.exec_bind (hn r.2)]
      rfl
    rw [hrun]
    constructor
    . intro hlast
      rw [if_neg fun hne => hne (hiff.mpr hlast)]
    . intro hlast
      rw [if_pos fun heq => hlast (hiff.mp heq)]

theorem DepthTest.safe (h : DepthTest part s path) (hs : s.Searchable) (hT : s.DirTree part D)
    (hpath : PassesAssertion path.chars) : DepthSafe part s path := by
  constructor
  . by_contra hcon
    rw [not_or, not_not] at hcon
    obtain ⟨r, hr, hno⟩ := @searchFile_no_component part s _ hpath hcon.1 hcon.2 notFound
    obtain ⟨m, n, hm, hn, hiff⟩ := h.depth notFound r hr hno
    rw [searchFile_run hs hr, Fs.search, if_neg hcon.1, hcon.2] at hn
    cases pathDepthCnt_run hm
    cases pathDepthCnt_run hn
    have hdepth : pathDepth path.chars = 0 := by
      rw [pathDepth, hcon.2]
      split <;> rfl
    obtain ⟨pre, c, d, hsplit, -⟩ := hiff.mp hdepth
    rw [hcon.2] at hsplit
    exact absurd hsplit (by simp)
  . intro pre c post d hsplit hwalk hlook hshort
    obtain ⟨r, hr, hno, hsearched⟩ :=
      @Fs.DirTree.searchFile_missing part s D 0 path pre post c d hT hs hpath hsplit hwalk
      hlook hshort
    obtain ⟨m, n, hm, hn, hiff⟩ := h.depth 0 r hr hno
    have hall : ∀ x ∈ components path.chars, x.length ≤ 16 := by
      by_contra hlong
      rw [pathDepthCnt_eq, if_neg hlong] at hm
      contradiction
    refine ⟨fun x hx => hall x (by rw [hsplit]; simp [hx]), ?_⟩
    intro hpost hslash
    have heq := hiff.mpr ((lastMissing_iff hsplit hwalk hlook).mpr hpost)
    have hseg : ∀ x ∈ pre ++ [c], x ≠ [] ∧ 47 ∉ x := by
      rw [hpost] at hsplit
      rw [← hsplit]
      exact fun x hx => ⟨(mem_components hx).1, (mem_components hx).2.1⟩
    rw [hsearched] at hn
    cases pathDepthCnt_run hm
    cases pathDepthCnt_run hn
    rw [pathDepth_joinPath hseg, pathDepth, if_pos hslash, hsplit, hpost, List.length_append,
      List.length_singleton] at heq
    omega

/-- The comparison of the depths does what it is for exactly on the paths that are safe for it. -/
theorem depthTest_iff (hs : s.Searchable) (hT : s.DirTree part D)
    (hpath : PassesAssertion path.chars)
    : DepthTest part s path ↔ DepthSafe part s path := by
  constructor
  . intro h
    exact h.safe hs hT hpath
  . intro h
    exact h.test hs hT

end Depth

section Fixed

theorem depthTest_pathABC
    : DepthTest smallPartition nestedFs ⟨[47, 97, 47, 98, 47, 99], by decide⟩ := by
  apply (depthTest_iff searchable_nestedFs dirTree_nestedFs (.inr (by decide))).mpr
  refine ⟨.inr (by decide), ?_⟩
  intro pre c post d hsplit _ _ _
  refine ⟨?_, fun _ => by decide⟩
  intro x hx
  have hmem : x ∈ components [47, 97, 47, 98, 47, 99] := by
    rw [hsplit]
    exact List.mem_append_right _ (List.mem_cons_of_mem _ hx)
  have hshort : ∀ x ∈ components [47, 97, 47, 98, 47, 99], x.length ≤ 16 := by decide
  exact hshort x hmem

/--
The name of a new directory may not have a slash behind it, although `sys_mkdir` is made for that.
-/
theorem not_depthTest_slash
    : ¬ ∀ (part : Partition) (s : Fs) (D : UInt32 → Prop) (path : CStr), s.Searchable
        → s.DirTree part D →
        PassesAssertion path.chars → DepthTest part s path := by
  intro h
  let pathASlash : CStr := ⟨[47, 97, 47], by decide⟩
  have hpass : PassesAssertion pathASlash.chars := .inr (by decide)
  have hsafe :=
    (h _ _ _ pathASlash searchable_smallFs dirTree_smallFs hpass).safe searchable_smallFs
      dirTree_smallFs
    hpass
  have hlook : smallFs.look smallPartition 0 [97] = none := by decide +kernel
  have hbehind := hsafe.behind [] [97] [] 0 (by decide) .nil hlook (by decide)
  exact hbehind.2 rfl (by decide)

end Fixed

end RogOS
