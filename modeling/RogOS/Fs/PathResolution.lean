import RogOS.Fs.Lemmas.Format
import RogOS.Fs.Lemmas.Listing

/-!
When the number that `search_file` returns is the number of the object that the path denotes.
-/

namespace RogOS

variable {part : Partition} {s : Fs} {D : UInt32 → Prop} {junk : UInt32} {path : CStr}

def Fs.Denotes (part : Partition) (s : Fs) (names : List (List UInt8)) (n : UInt32) : Prop :=
  names = [] ∧ n = 0
    ∨ ∃ pre c d e, names = pre ++ [c] ∧ s.Walks part 0 pre d ∧ s.look part d c = some e ∧ e.iNo = n

/--
What the path denotes is what `search_file` returns, `sys_stat` reports and `sys_unlink` deletes,
whatever is in the uninitialised variable of `search_file`.
-/
structure PathSound (part : Partition) (s : Fs) (path : CStr) : Prop where
  search : ∀ junk r, (searchFile part junk path.chars).run s = .ok r → r.1.1 ≠ notFound →
    s.Denotes part (components path.chars) r.1.1
  stat : ∀ junk st s', (sysStat part junk path).run s = .ok (some st, s') →
    s.Denotes part (components path.chars) st.stIno
  unlink : ∀ junk k s', (sysUnlink part junk path).run s = .ok (k, s') →
    ∀ m, s.vol.inodeBits.bit m = true → s'.vol.inodeBits.bit m = false →
      ∃ n, n.toNat = m ∧ s.Denotes part (components path.chars) n

/--
The path has a component, or is the root directory; and none of its components is a regular file
with a component behind it, as far as the components up to the file leave room for a NUL in the
array for a name and the one behind it fits into the array.
-/
structure PathSafe (part : Partition) (s : Fs) (path : CStr) : Prop where
  named : IsRootPath path.chars ∨ components path.chars ≠ []
  through : ∀ pre c next post d e, components path.chars = pre ++ c :: next :: post →
    s.Walks part 0 pre d → s.look part d c = some e → e.fType = FileType.regular.code →
      (∃ x ∈ pre ++ [c], 16 ≤ x.length) ∨ 16 < next.length

section Sound

theorem denotes_root (hT : s.DirTree part D) {p : List UInt8} (hroot : IsRootPath p)
    : s.Denotes part (components p) 0 := by
  obtain rfl | rfl | rfl := hroot
  . exact .inl ⟨rfl, rfl⟩
  . obtain ⟨e, h1, h2⟩ := hT.dots [46] (.inl rfl)
    exact .inr ⟨[], [46], 0, e, rfl, .nil, h1, h2⟩
  . obtain ⟨e, h1, h2⟩ := hT.dots [46, 46] (.inr rfl)
    exact .inr ⟨[], [46, 46], 0, e, rfl, .nil, h1, h2⟩

theorem PathSafe.search_denotes (hp : PathSafe part s path) (hs : s.Searchable)
    (hT : s.DirTree part D) {r : (UInt32 × PathSearchRecord) × Fs}
    (h : (searchFile part junk path.chars).run s = .ok r)
    (hfound : (s.search part junk path.chars).no ≠ notFound)
    : s.Denotes part (components path.chars) (s.search part junk path.chars).no := by
  have hshort := searchFile_short hs h
  have hsearched := searchFile_searched_short hs h
  by_cases hroot : IsRootPath path.chars
  . rw [Fs.search, if_pos hroot]
    exact denotes_root hT hroot
  . have hne := hp.named.resolve_left hroot
    have hres := @Fs.DirTree.search part s junk path.chars D hT hroot hne path.nulFree
    generalize s.search part junk path.chars = f at hshort hsearched hfound hres ⊢
    cases hres with
    | missing split walks isDir look => contradiction
    | directory split walks isDir look type => exact .inr ⟨_, _, _, _, split, walks, look, rfl⟩
    | regular split walks isDir look type =>
      rename_i pre post c dir e
      cases post with
      | nil => exact .inr ⟨_, _, _, _, split, walks, look, rfl⟩
      | cons next post =>
        exfalso
        obtain ⟨x, hx, hlong⟩ | hlong := hp.through pre c next post _ e split walks look type
        . have hlt := hsearched x hx
          omega
        . have htake : (components path.chars).take ((pre ++ [c]).length + 1)
              = pre ++ [c, next] := by
            rw [split, show pre ++ c :: next :: post = pre ++ [c, next] ++ post by simp]
            apply List.take_left'
            simp
          have hle := hshort rfl next (by
            rw [htake]
            simp)
          omega

theorem sysStat_search (hroot : ¬ IsRootPath path.chars) {r : Option Stat × Fs}
    (h : (sysStat part junk path).run s = .ok r)
    : ∃ q, (searchFile part junk path.chars).run s = .ok q := by
  unfold sysStat at h
  split at h
  . contradiction
  . simp only [Cmd.bind_run] at h
    obtain ⟨x, s1, h1, -⟩ := h
    exact ⟨_, h1⟩

theorem sysUnlink_search {r : Int × Fs} (h : (sysUnlink part junk path).run s = .ok r)
    : ∃ q, (searchFile part junk path.chars).run s = .ok q := by
  simp only [sysUnlink, Cmd.bind_run, Cmd.assert_run] at h
  obtain ⟨_, _, ⟨-, h0⟩, x, s1, h1, -⟩ := h
  cases h0
  exact ⟨_, h1⟩

theorem releaseInode_inodeBits {ino : Inode} {n : UInt32} {v : Vol} {r : Unit × Vol}
    (h : (releaseInode part ino n).run v = .ok r)
    : r.2.inodeBits = v.inodeBits.setBit n.toNat false := by
  simp only [releaseInode, Cmd.bind_run, Cmd.assert_run] at h
  obtain ⟨_, _, ⟨-, h1⟩, _, v1, h2, _, v2, h3, _, v3, h4, _, v4, h5, _, v5, h6, h7⟩ := h
  cases h1
  rw [inodeDelete_keeps _ _ h7, bitmapSync_keeps _ _ h6]
  rw [setBit_run] at h5
  have hv3 : v3.inodeBits = v.inodeBits := by
    rw [releaseBlocks_keeps _ _ h4, releaseBlock_keeps _ _ h3]
    exact allBlocks_keeps _ _ h2
  have hv4 := congrArg (fun q => q.2.inodeBits) h5.2
  simp only [Vol.setBits, Vol.bitmap, hv3] at hv4
  exact hv4

theorem PathSafe.sound (hp : PathSafe part s path) (hs : s.Searchable) (hT : s.DirTree part D)
    : PathSound part s path := by
  constructor
  . intro junk r h hfound
    rw [searchFile_run hs h] at hfound ⊢
    exact hp.search_denotes hs hT h hfound
  . intro junk st s' h
    obtain ⟨hne, hno⟩ := (sysStat_run hs h).2 st rfl
    by_cases hroot : IsRootPath path.chars
    . rw [hno, Fs.search, if_pos hroot]
      exact denotes_root hT hroot
    . obtain ⟨q, hq⟩ := sysStat_search hroot h
      rw [hno] at hne ⊢
      exact hp.search_denotes hs hT hq hne
  . intro junk k s' h m h1 h2
    obtain ⟨q, hq⟩ := sysUnlink_search h
    have hden := hp.search_denotes hs hT hq
    have hun := sysUnlink_run hs h
    generalize s.search part junk path.chars = f at hden hun
    cases hun with
    | quit =>
      rw [h1] at h2
      contradiction
    | done found nonzero file unused parent delete release close =>
      refine ⟨f.no, ?_, hden found⟩
      rw [dirClosed_vol close] at h2
      have hbits := releaseInode_inodeBits release
      have hkeep := deleteDirEntry_keeps _ _ delete
      dsimp only at hbits hkeep
      rw [hkeep] at hbits
      have h2' := h2
      simp only [Fs.dirSet, Fs.updInode] at h2'
      rw [hbits, Mem.bit_setBit] at h2'
      by_contra hne
      rw [if_neg hne, h1] at h2'
      contradiction

end Sound

section Complete

theorem searchFile_through_file (hs : s.Searchable) (hT : s.DirTree part D) {p x next : List UInt8}
    {pre post : List (List UInt8)} {d : UInt32} {e : DirEntry} (hpath : PassesAssertion p)
    (hnames : components p = pre ++ x :: next :: post) (hwalk : s.Walks part 0 pre d)
    (hlook : s.look part d x = some e) (hreg : e.fType = FileType.regular.code)
    (hshort : ∀ y ∈ pre ++ [x], y.length < 16) (hnext : next.length ≤ 16) (hnul : 0 ∉ p)
    : ∃ r, (searchFile part 0 p).run s = .ok r ∧ r.1.1 = e.iNo := by
  have hroot : ¬ IsRootPath p := by
    intro hroot
    have hl := length_components_of_isRootPath hroot
    rw [hnames, List.length_append, List.length_cons, List.length_cons] at hl
    omega
  have hproper : ∀ y ∈ pre, IsName y :=
    fun y hy => isName_of_mem_components hnul (by rw [hnames]; exact List.mem_append_left _ hy)
  obtain ⟨dir, hdir, -, -, hres, hparsed⟩ :=
    hT.graph.resolve_walks (x :: next :: post)
      (show s.Walks part ((none : Option UInt32).getD 0) pre d from hwalk)
      hT.root hproper
  have hlook' : s.lookAt part dir x = some e := by
    rw [hT.graph.lookAt_eq, hdir]
    exact hlook
  have hne : e.fType ≠ FileType.directory.code := by
    rw [hreg]
    decide
  obtain ⟨r, hr⟩ := hT.graph.searchFile_returns 0 hs hpath hnul (by
    rw [hnames, hparsed, Fs.Parses, hlook']
    dsimp only
    rw [if_neg hne, if_pos hreg]
    refine ⟨fun y hy => hshort y (List.mem_append_left _ hy), hshort x (by simp), ?_⟩
    rintro y hy
    cases hy
    exact hnext)
  refine ⟨r, hr, ?_⟩
  obtain ⟨_, _, hf⟩ := hres 0 0 []
  rw [searchFile_run hs hr, Fs.search, if_neg hroot, hnames, hf, Fs.resolve, hlook']
  dsimp only
  rw [if_neg hne, if_pos hreg]

theorem searchFile_no_component {p : List UInt8} (hpath : PassesAssertion p)
    (hroot : ¬ IsRootPath p) (hnil : components p = []) (junk : UInt32)
    : ∃ r, (searchFile part junk p).run s = .ok r ∧ r.1.1 = junk := by
  obtain ⟨q, hq⟩ := @parseName_ok Fs s (some p) (by
    rw [Option.getD_some, hnil]
    intro c hc
    contradiction)
  obtain ⟨hrem, -⟩ := parseName_run hq
  rw [Option.getD_some, hnil] at hrem
  have hname : q.1 = [] := by
    by_contra hne
    dsimp only at hrem
    rw [remaining, if_neg hne] at hrem
    contradiction
  refine ⟨((junk, ⟨[], (s.atDir part (some 0)).1, .directory⟩), (s.atDir part (some 0)).2), ?_, rfl⟩
  unfold searchFile
  rw [if_neg (show ¬ (_ ∨ _ ∨ _) from hroot)]
  simp only [Cmd.bind_run, Cmd.assert_run]
  refine ⟨_, _, ⟨hpath.resolve_left hroot, rfl⟩, _, _, hq, ?_⟩
  unfold searchFile.go
  rw [if_pos hname]
  simp only [searchFile.finish, Cmd.bind_run, Cmd.pure_run]
  exact ⟨_, _, Cmd.pure_run.mpr rfl, _, _, dirOpen_ok (by decide), rfl⟩

theorem PathSound.safe (h : PathSound part s path) (hs : s.Searchable) (hT : s.DirTree part D)
    (hpath : PassesAssertion path.chars) : PathSafe part s path := by
  constructor
  . by_contra hcon
    rw [not_or, not_not] at hcon
    obtain ⟨r, hrun, hno⟩ := @searchFile_no_component part s _ hpath hcon.1 hcon.2 1
    have hden := h.search 1 r hrun (by rw [hno]; decide)
    rw [hno, hcon.2] at hden
    cases hden with
    | inl h => exact absurd h.2 (by decide)
    | inr h =>
      obtain ⟨pre, c, _, _, h1, -⟩ := h
      exact absurd h1 (by simp)
  . intro pre c next post d e hnames hwalk hlook hreg
    by_contra hcon
    push Not at hcon
    obtain ⟨r, hrun, hno⟩ :=
      searchFile_through_file hs hT hpath hnames hwalk hlook hreg hcon.1 hcon.2 path.nulFree
    have hproper : ∀ x ∈ components path.chars, IsName x :=
      fun x hx => isName_of_mem_components path.nulFree hx
    rw [hnames] at hproper
    have hd := hT.graph.walks hwalk hT.root (fun x hx => hproper x (List.mem_append_left _ hx))
    have hlt := (hT.child _ _ _ hd (hproper c (by simp)) hlook).1
    have hfound : r.1.1 ≠ notFound := by
      rw [hno]
      intro h0
      rw [h0] at hlt
      exact absurd hlt (by decide)
    cases h.search 0 r hrun hfound with
    | inl h =>
      rw [hnames] at h
      exact absurd h.1 (by simp)
    | inr h =>
      obtain ⟨pre', c', d', e', h1, h2, -⟩ := h
      have hlast : pre ++ c :: next :: post = (pre ++ c :: (next :: post).dropLast)
          ++ [(next :: post).getLast (by simp)] := by
        rw [List.append_assoc, List.cons_append, List.dropLast_append_getLast]
      rw [hnames, hlast, List.append_singleton_inj] at h1
      rw [← h1.1] at h2
      obtain ⟨e'', h3, h4⟩ := h2.next hwalk
      rw [hlook, Option.some.injEq] at h3
      rw [← h3, hreg] at h4
      contradiction

/--
A path stands for what the search finds if and only if it names something and goes through no file,
in every tree of directories.
-/
theorem pathSound_iff (hs : s.Searchable) (hT : s.DirTree part D)
    (hpath : PassesAssertion path.chars)
    : PathSound part s path ↔ PathSafe part s path := by
  constructor
  . intro h
    exact h.safe hs hT hpath
  . intro h
    exact h.sound hs hT

end Complete

section Fixed

instance {lim : Nat} {lba : UInt32}
    : Decidable (part.InArea lim lba) := inferInstanceAs (Decidable (_ ∧ _))

theorem Fs.searchable_of_all
    (h : (s.openInodes.map Prod.fst).Nodup
      ∧ s.openInodes.all (fun p => 0 < p.2.iOpenCnts) = true
      ∧ (s.inode? s.rootDir).isSome = true)
    : s.Searchable where
  addrs := h.1
  pos addr ino hino := by simpa using List.all_eq_true.mp h.2.1 _ (Assoc.mem_of_lookup hino)
  root := Option.isSome_iff_exists.mp h.2.2

theorem searchable_smallFs : smallFs.Searchable :=
  Fs.searchable_of_all (by decide +kernel)

def rootSlots (_ : UInt32) : Slots := [([46], 0, .directory), ([46, 46], 0, .directory)]

theorem slotsOk_smallFs
    : ∀ d ∈ ([0] : List UInt32), smallFs.SlotsOk smallPartition [0] rootSlots d := by
  simp only [List.mem_singleton, forall_eq]
  exact Fs.slotsOk_of_reads 676 (by decide +kernel) (by decide) (by decide) (by decide)
    (by decide) (by decide)

theorem dirTree_smallFs : smallFs.DirTree smallPartition (· ∈ ([0] : List UInt32)) :=
  Fs.dirTree_of_slots (Fs.listing_of_slots (by decide) rfl slotsOk_smallFs) slotsOk_smallFs
    (by simp [rootSlots]) rfl rfl

/-- The path `//` is taken for whatever is in the uninitialised variable of `search_file`. -/
theorem not_pathSound_slashes
    : ¬ ∀ (part : Partition) (s : Fs) (D : UInt32 → Prop) (path : CStr), s.Searchable
        → s.DirTree part D →
        PassesAssertion path.chars → PathSound part s path := by
  intro h
  let slashes : CStr := ⟨[47, 47], by decide⟩
  have hpass : PassesAssertion slashes.chars := .inr (by decide)
  have hsafe :=
    (h _ _ _ slashes searchable_smallFs dirTree_smallFs hpass).safe searchable_smallFs
      dirTree_smallFs
    hpass
  cases hsafe.named with
  | inl hroot => exact absurd hroot (by decide)
  | inr hne => exact hne (by decide)

end Fixed

end RogOS
