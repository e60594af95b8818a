import RogOS.Fs.Lemmas.Lookup

/-!
The directories of a volume, slot by slot, and what searching them for a path finds.
-/

namespace RogOS

variable {part : Partition} {s : Fs} {D : UInt32 → Prop} {junk d n : UInt32} {p c : List UInt8}
  {names : List (List UInt8)} {e e' : DirEntry}

def Fs.Lists (part : Partition) (s : Fs) (d : UInt32) (c : List UInt8) (e : DirEntry) : Prop :=
  ∃ i < 140, ∃ k < 21, (s.vol.image part).dirent (s.view part d) i k = some e ∧ e.HasName c

structure Fs.Listing (part : Partition) (s : Fs) (D : UInt32 → Prop) : Prop where
  root : D 0
  rootDir : s.dirView part none = s.view part 0
  iNo : ∀ d, D d → (s.view part d).iNo = d
  lt : ∀ d, D d → d.toNat < 4096
  inBlocks : ∀ d, D d → (s.vol.image part).InBlocks part (s.view part d)
  proper : ∀ d, D d → (s.vol.image part).ProperEntries (s.view part d)
  child : ∀ d c e, D d → IsName c → s.Lists part d c e → e.fType = FileType.directory.code → D e.iNo

def Fs.UniqueNames (part : Partition) (s : Fs) (D : UInt32 → Prop) : Prop :=
  ∀ d, D d → ∀ c, IsName c → ∀ i < 140, ∀ k < 21, ∀ j < 140, ∀ l < 21,
    (s.vol.image part).Named (s.view part d) c i k → (s.vol.image part).Named (s.view part d) c j l
      → i = j ∧ k = l

inductive Fs.Leads (part : Partition) (s : Fs) : UInt32 → List (List UInt8) → UInt32 → Prop
  | nil {d : UInt32} : Leads part s d [] d
  | cons {d n : UInt32} {c : List UInt8} {cs : List (List UInt8)} {e : DirEntry}
      (entry : s.Lists part d c e)
      (dir : e.fType = FileType.directory.code) (rest : Leads part s e.iNo cs n)
      : Leads part s d (c :: cs) n

theorem Fs.Leads.snoc (h : s.Leads part d names n) (hentry : s.Lists part n c e)
    (hdir : e.fType = FileType.directory.code) : s.Leads part d (names ++ [c]) e.iNo := by
  induction h with
  | nil => exact .cons hentry hdir .nil
  | cons entry dir rest ih => exact .cons entry dir (ih hentry)

theorem Fs.Leads.of_snoc (h : s.Leads part d (names ++ [c]) n)
    : ∃ m e, s.Leads part d names m ∧ s.Lists part m c e ∧ e.fType = FileType.directory.code
        ∧ e.iNo = n := by
  induction names generalizing d with
  | nil =>
    cases h with
    | cons entry dir rest =>
      cases rest
      exact ⟨d, _, .nil, entry, dir, rfl⟩
  | cons c cs ih =>
    cases h with
    | cons entry dir rest =>
      obtain ⟨m, e, h1, h2⟩ := ih rest
      exact ⟨m, e, .cons entry dir h1, h2⟩

namespace Fs.Listing

theorem look_eq (hL : s.Listing part D) (hd : D d)
    : s.look part d c = (s.vol.image part).lookup (s.view part d) c := by
  have hrun := @Fs.lookAt_eq part s c (some d) _ (searchDirEntry_run (hL.inBlocks d hd))
  exact (congrArg Prod.fst hrun).symm

theorem lists_of_look (hL : s.Listing part D) (hd : D d) (hc : IsName c)
    (h : s.look part d c = some e)
    : s.Lists part d c e := by
  rw [hL.look_eq hd] at h
  exact Image.lookup_eq_some (hL.proper d hd) hc.2 h

theorem look_eq_none (hL : s.Listing part D) (hd : D d) (hc : IsName c)
    : s.look part d c = none ↔ ∀ e, ¬ s.Lists part d c e := by
  rw [hL.look_eq hd, Image.lookup_eq_none (hL.proper d hd) hc.2]
  constructor
  . rintro h e ⟨i, hi, k, hk, hent, hname⟩
    exact h i hi k hk ⟨e, hent, hname⟩
  . rintro h i hi k hk ⟨e, hent, hname⟩
    exact h e ⟨i, hi, k, hk, hent, hname⟩

theorem type_of_lists (hL : s.Listing part D) (hd : D d) (hc : IsName c) (h : s.Lists part d c e)
    : e.fType = FileType.regular.code ∨ e.fType = FileType.directory.code := by
  obtain ⟨i, hi, k, hk, hent, hname⟩ := h
  obtain ⟨hle, hblank⟩ := hL.proper d hd i hi k hk e hent
  have hne : e.fType ≠ 0 := by
    intro h0
    rw [hblank h0] at hname
    exact DirEntry.not_hasName_blank hc.2 hc.1 hname
  have hle' : e.fType.toNat ≤ 2 := hle
  have hne' : e.fType.toNat ≠ 0 := fun h0 => hne (UInt32.toNat_inj.mp h0)
  by_cases h1 : e.fType.toNat = 1
  . exact .inl (UInt32.toNat_inj.mp h1)
  . exact .inr (UInt32.toNat_inj.mp (show e.fType.toNat = 2 by omega))

theorem graph (hL : s.Listing part D) : s.DirGraph part D where
  root := hL.root
  rootDir := hL.rootDir
  iNo := hL.iNo
  lt := hL.lt
  inBlocks := hL.inBlocks
  child d c e hd hc hlook hdir := hL.child d c e hd hc (hL.lists_of_look hd hc hlook) hdir

theorem leads (hL : s.Listing part D) (h : s.Leads part d names n) (hd : D d)
    (hnames : ∀ c ∈ names, IsName c)
    : D n := by
  induction h with
  | nil => exact hd
  | cons entry dir rest ih =>
    rename_i c cs e
    apply ih _ (fun x hx => hnames x (List.mem_cons_of_mem c hx))
    exact hL.child _ _ _ hd (hnames c List.mem_cons_self) entry dir

theorem look_of_unique (hL : s.Listing part D) (hd : D d) (hc : IsName c) (h : s.Lists part d c e)
    (hu : ∀ e', s.Lists part d c e' → e' = e) : s.look part d c = some e := by
  cases hlook : s.look part d c with
  | none => exact absurd h ((hL.look_eq_none hd hc).mp hlook e)
  | some e' => rw [hu e' (hL.lists_of_look hd hc hlook)]

end Fs.Listing

theorem Fs.UniqueNames.lists (hu : s.UniqueNames part D) (hd : D d) (hc : IsName c)
    (h : s.Lists part d c e) (h' : s.Lists part d c e') : e' = e := by
  obtain ⟨i, hi, k, hk, hent, hname⟩ := h
  obtain ⟨j, hj, l, hl, hent', hname'⟩ := h'
  obtain ⟨rfl, rfl⟩ := hu d hd c hc i hi k hk j hj l hl ⟨e, hent, hname⟩ ⟨e', hent', hname'⟩
  rw [hent', Option.some.injEq] at hent
  exact hent

theorem Fs.Listing.look_of_lists (hL : s.Listing part D) (hu : s.UniqueNames part D) (hd : D d)
    (hc : IsName c) (h : s.Lists part d c e) : s.look part d c = some e :=
  hL.look_of_unique hd hc h fun _ h' => hu.lists hd hc h h'

theorem Fs.Leads.walks (h : s.Leads part d names n) (hL : s.Listing part D)
    (hu : s.UniqueNames part D) (hd : D d)
    (hnames : ∀ c ∈ names, IsName c) : s.Walks part d names n := by
  induction h with
  | nil => exact .nil
  | cons entry dir rest ih =>
    rename_i c cs e
    have hc := hnames c List.mem_cons_self
    apply Fs.Walks.cons (hL.look_of_lists hu hd hc entry) dir
    exact ih (hL.child _ _ _ hd hc entry dir) fun x hx => hnames x (List.mem_cons_of_mem c hx)

/--
A path that `search_file` takes: absolute, shorter than `MAX_PATH_LEN`, the root directory or with a
component, and every component shorter than the array for it.
-/
structure WellFormed (path : List UInt8) : Prop where
  absolute : path.head? = some 47
  length : path.length < 512
  named : IsRootPath path ∨ components path ≠ []
  short : ∀ c ∈ components path, c.length ≤ 15
  nulFree : 0 ∉ path

instance {path : List UInt8} : Decidable (WellFormed path) :=
  decidable_of_iff (path.head? = some 47 ∧ path.length < 512
    ∧ (IsRootPath path ∨ components path ≠ [])
      ∧ (∀ c ∈ components path, c.length ≤ 15) ∧ 0 ∉ path)
    ⟨fun ⟨h1, h2, h3, h4, h5⟩ => ⟨h1, h2, h3, h4, h5⟩, fun ⟨h1, h2, h3, h4, h5⟩ =>
      ⟨h1, h2, h3, h4, h5⟩⟩

theorem WellFormed.passes (h : WellFormed p) : PassesAssertion p := by
  cases h.named with
  | inl hroot => exact .inl hroot
  | inr hne =>
    refine .inr ⟨h.absolute, ?_, h.length⟩
    by_contra hlen
    apply hne
    cases p with
    | nil => exact absurd h.absolute (by simp)
    | cons x q =>
      have hx := h.absolute
      rw [List.head?_cons, Option.some.injEq] at hx
      have hq : q = [] := by
        rw [List.length_cons] at hlen
        exact List.length_eq_zero_iff.mp (by omega)
      rw [hx, hq, components_slash, components_nil]

def Fs.foundIn (part : Partition) (s : Fs) (dir : Option UInt32) (searched : List (List UInt8))
    (c : List UInt8)
    : Found :=
  match s.look part (dir.getD 0) c with
  | none => ⟨notFound, dir, searched, .unknown⟩
  | some e =>
    if e.fType = FileType.directory.code then
      ⟨e.iNo, some (dir.getD 0), searched, .directory⟩
    else
      ⟨e.iNo, dir, searched, .regular⟩

theorem Fs.Listing.search (hL : s.Listing part D) (hp : WellFormed p) (hroot : ¬ IsRootPath p)
    (hnames : components p = names ++ [c]) (hwalk : s.Walks part 0 names d)
    : ∃ dir : Option UInt32, dir.getD 0 = d ∧ s.search part junk p
        = s.foundIn part dir (components p) c := by
  have hproper : ∀ x ∈ components p, IsName x := fun x hx => isName_of_mem_components hp.nulFree hx
  rw [hnames] at hproper
  obtain ⟨dir, h1, -, -, h2, -⟩ :=
    hL.graph.resolve_walks [c]
      (show s.Walks part ((none : Option UInt32).getD 0) names d from hwalk)
    hL.root (fun x hx => hproper x (List.mem_append_left _ hx))
  have hd : D (dir.getD 0) := by
    rw [h1]
    exact hL.graph.walks hwalk hL.root (fun x hx => hproper x (List.mem_append_left _ hx))
  refine ⟨dir, h1, ?_⟩
  obtain ⟨prev, last, h3⟩ := h2 0 junk []
  rw [Fs.search, if_neg hroot, hnames, h3, Fs.resolve, hL.graph.lookAt_eq, Fs.foundIn,
    List.nil_append]
  cases hlook : s.look part (dir.getD 0) c with
  | none => rfl
  | some e =>
    dsimp only
    split
    . rw [Fs.resolve, hL.graph.dirView_eq, hL.iNo _ hd]
    . next hdir =>
      have hlist := hL.lists_of_look hd (hproper c (by simp)) hlook
      rw [if_pos ((hL.type_of_lists hd (hproper c (by simp)) hlist).resolve_right hdir)]

theorem Fs.Listing.searchFile_run (hL : s.Listing part D) (hs : s.Searchable) (hp : WellFormed p)
    : let f := s.search part junk p
      (searchFile part junk p).run s
        = .ok ((f.no, ⟨joinPath f.searched, (s.atDir part f.dir).1, f.fileType⟩),
            (s.atDir part f.dir).2) := by
  obtain ⟨r, hr⟩ := hL.graph.searchFile_returns junk hs hp.passes hp.nulFree
    (Fs.parses_of_short fun y hy => Nat.lt_succ_of_le (hp.short y hy))
  intro f
  rw [hr, RogOS.searchFile_run hs hr]

section Slots

abbrev Slots := List (List UInt8 × UInt32 × FileType)

def Fs.HasSlots (part : Partition) (s : Fs) (d : UInt32) (es : Slots) : Prop :=
  ∀ i < 140, ∀ k < 21, (s.vol.image part).dirent (s.view part d) i k
    = if i = 0 then some ((es[k]?).elim .blank fun x => DirEntry.new x.1 x.2.1 x.2.2) else none

structure Fs.SlotsOk (part : Partition) (s : Fs) (ds : List UInt32) (es : UInt32 → Slots)
    (d : UInt32) : Prop where
  slots : s.HasSlots part d (es d)
  iNo : (s.view part d).iNo = d
  lt : d.toNat < 4096
  table : (s.view part d).sector 12 = 0
  first : part.InArea part.bitLen ((s.view part d).sector 0)
  entry : ∀ x ∈ es d, (x.1.length < 16 ∧ 0 ∉ x.1 ∧ x.1 ≠ []) ∧ x.2.2 ≠ .unknown
    ∧ (x.2.2 = .directory → x.2.1 ∈ ds)
  nodup : ((es d).map Prod.fst).Nodup

variable {ds : List UInt32} {es : UInt32 → Slots} {c : List UInt8} {i k : Nat} {e : DirEntry}

theorem Fs.hasSlots_of_first {es : Slots}
    (hfirst : ∀ k < 21, (s.vol.image part).dirent (s.view part d) 0 k
      = some ((es[k]?).elim .blank fun x => DirEntry.new x.1 x.2.1 x.2.2))
    (hrest : ∀ j < 13, j ≠ 0 → (s.view part d).sector j = 0) : s.HasSlots part d es := by
  intro i hi k hk
  split
  . next h0 =>
    rw [h0]
    exact hfirst k hk
  . next h0 =>
    unfold Image.dirent
    rw [if_pos]
    by_cases hlt : i < 12
    . rw [Image.ref_direct hlt]
      exact hrest i (by omega) h0
    . rw [Image.ref_of_lt hi, Image.block_of_ge (by omega), hrest 12 (by omega) (by omega)]
      simp

/-- The bytes of a block of a directory with these entries. -/
def Slots.byte (es : Slots) (i : Nat) : UInt8 :=
  (es[i / 24]?).elim 0 fun x => (DirEntry.new x.1 x.2.1 x.2.2).encode (i % 24)

theorem Slots.at_byte {buf : Mem} {es : Slots} (hk : k < 21)
    (h : ∀ i < 504, buf i = Slots.byte es i)
    : DirEntry.at buf k = (es[k]?).elim .blank fun x => DirEntry.new x.1 x.2.1 x.2.2 := by
  have hbyte : ∀ i < 24, buf (k * 24 + i)
      = (es[k]?).elim 0 fun x => (DirEntry.new x.1 x.2.1 x.2.2).encode i := by
    intro i hi
    rw [h (k * 24 + i) (by omega), Slots.byte, show (k * 24 + i) / 24 = k by omega,
      show (k * 24 + i) % 24 = i by omega]
  cases hx : es[k]? with
  | none =>
    rw [Option.elim_none, ← DirEntry.at_zero (k := 0)]
    apply DirEntry.at_congr
    intro i hi
    rw [hbyte i hi, hx]
    rfl
  | some x =>
    rw [Option.elim_some, ← DirEntry.decode_encode (e := DirEntry.new x.1 x.2.1 x.2.2)]
    apply DirEntry.decode_congr
    intro i hi
    exact (hbyte i hi).trans (by rw [hx]; rfl)

/-- What is to be read of the volume for a directory whose only block is at `lba`. -/
def Fs.ReadsSlots (part : Partition) (s : Fs) (d : UInt32) (lba : Nat) (es : Slots) : Prop :=
  ((s.view part d).iNo = d ∧ ((s.view part d).sector 0).toNat = lba
    ∧ ∀ j < 13, j ≠ 0 → (s.view part d).sector j = 0)
    ∧ ∀ i < 504, s.vol.disk (lba * 512 + i) = Slots.byte es i

instance {lba : Nat} {es : Slots}
    : Decidable (s.ReadsSlots part d lba es) := inferInstanceAs (Decidable (_ ∧ _))

theorem Fs.ReadsSlots.first {lba : Nat} {es : Slots} (h : s.ReadsSlots part d lba es)
    (h0 : part.sb.dataStartLba.toNat ≤ lba) (hpos : 0 < lba) (hk : k < 21)
    : (s.vol.image part).dirent (s.view part d) 0 k
        = some ((es[k]?).elim .blank fun x => DirEntry.new x.1 x.2.1 x.2.2) := by
  obtain ⟨⟨-, hlba, -⟩, hbytes⟩ := h
  have hne : (s.view part d).sector 0 ≠ 0 := by
    intro hz
    rw [hz] at hlba
    exact absurd hlba.symm (by rw [UInt32.toNat_zero]; omega)
  unfold Image.dirent
  rw [Image.ref_direct (by omega), if_neg hne, Option.some.injEq]
  apply Slots.at_byte hk
  intro i hi
  rw [hlba]
  show (if part.sb.dataStartLba.toNat ≤ lba then s.vol.disk.block 512 lba else Mem.zero) i = _
  rw [if_pos h0, Mem.block, Mem.clip_of_lt (by omega), Mem.shift_apply]
  exact hbytes i hi

theorem Fs.slotsOk_of_reads {ds : List UInt32} {es : UInt32 → Slots} (lba : Nat)
    (hread : s.ReadsSlots part d lba (es d)) (hpos : 0 < lba) (hlt : d.toNat < 4096)
    (hin : part.sb.dataStartLba.toNat ≤ lba ∧ lba < part.sb.dataStartLba.toNat + part.bitLen)
    (hentry : (es d).all (fun x => decide (x.1.length < 16) && !x.1.contains 0 && !x.1.isEmpty
      && x.2.2 != .unknown
      && (x.2.2 != .directory || ds.contains x.2.1)) = true)
    (hnodup : ((es d).map Prod.fst).Nodup) : s.SlotsOk part ds es d where
  slots := Fs.hasSlots_of_first (fun k hk => hread.first hin.1 hpos hk) hread.1.2.2
  iNo := hread.1.1
  lt := hlt
  table := hread.1.2.2 12 (by omega) (by omega)
  first := by
    obtain ⟨⟨-, hlba, -⟩, -⟩ := hread
    rw [← hlba] at hin
    exact hin
  entry := by
    intro x hx
    have h := List.all_eq_true.mp hentry x hx
    simp only [Bool.and_eq_true, decide_eq_true_eq, Bool.not_eq_true', List.contains_eq_mem,
      decide_eq_false_iff_not, bne_iff_ne, Bool.or_eq_true, List.isEmpty_eq_false_iff] at h
    refine ⟨⟨h.1.1.1.1, h.1.1.1.2, h.1.1.2⟩, h.1.2, fun hdir => ?_⟩
    exact h.2.resolve_left fun hne => hne hdir
  nodup := hnodup

namespace Fs.SlotsOk

theorem dirent {n : UInt32} {t : FileType} (h : s.SlotsOk part ds es d) (hk : k < 21)
    (hx : (es d)[k]? = some (c, n, t))
    : (s.vol.image part).dirent (s.view part d) 0 k = some (DirEntry.new c n t) := by
  rw [h.slots 0 (by omega) k hk, if_pos rfl, hx, Option.elim_some]

theorem block (h : s.SlotsOk part ds es d) (hi : i < 140)
    : i = 0 ∨ (s.vol.image part).block (s.view part d) i = 0 := by
  by_cases h0 : i = 0
  . exact .inl h0
  . right
    by_contra hne
    have hd := Image.dirent_of_ne_zero (k := 0) hi hne
    rw [h.slots i hi 0 (by omega), if_neg h0] at hd
    contradiction

theorem named (h : s.SlotsOk part ds es d) (hi : i < 140) (hk : k < 21) (hc : IsName c)
    (hent : (s.vol.image part).dirent (s.view part d) i k = some e) (hname : e.HasName c)
    : i = 0 ∧ ∃ x, (es d)[k]? = some x ∧ x.1 = c ∧ e = DirEntry.new x.1 x.2.1 x.2.2 := by
  rw [h.slots i hi k hk] at hent
  split at hent
  . next h0 =>
    refine ⟨h0, ?_⟩
    rw [Option.some.injEq] at hent
    cases hx : (es d)[k]? with
    | none =>
      rw [hx, Option.elim_none] at hent
      rw [← hent] at hname
      exact absurd hname (DirEntry.not_hasName_blank hc.2 hc.1)
    | some x =>
      rw [hx, Option.elim_some] at hent
      obtain ⟨⟨h1, h2, -⟩, -⟩ := h.entry x (List.mem_of_getElem? hx)
      rw [← hent, DirEntry.new_hasName_iff h1 h2 hc.2] at hname
      exact ⟨x, rfl, hname.symm, hent.symm⟩
  . contradiction

end Fs.SlotsOk

theorem Fs.listing_of_slots (hroot : 0 ∈ ds) (hview : s.dirView part none = s.view part 0)
    (h : ∀ d ∈ ds, s.SlotsOk part ds es d) : s.Listing part (· ∈ ds) where
  root := hroot
  rootDir := hview
  iNo d hd := (h d hd).iNo
  lt d hd := (h d hd).lt
  inBlocks d hd := by
    constructor
    . intro h0
      exact absurd (h d hd).table h0
    . intro i hi h0
      cases (h d hd).block hi with
      | inl hi0 =>
        rw [hi0, Image.block_of_lt (by omega)]
        exact (h d hd).first
      | inr hzero => exact absurd hzero h0
  proper d hd := by
    intro i hi k hk e hent
    rw [(h d hd).slots i hi k hk] at hent
    split at hent
    . rw [Option.some.injEq] at hent
      rw [← hent]
      cases hx : (es d)[k]? with
      | none => exact ⟨by decide, fun _ => rfl⟩
      | some x =>
        refine ⟨DirEntry.fType_code_le, fun h0 => ?_⟩
        have htype := ((h d hd).entry x (List.mem_of_getElem? hx)).2.1
        rw [Option.elim_some, DirEntry.new_fType] at h0
        cases hty : x.2.2 with
        | unknown => exact absurd hty htype
        | regular =>
          rw [hty] at h0
          contradiction
        | directory =>
          rw [hty] at h0
          contradiction
    . contradiction
  child d c e hd hc := by
    rintro ⟨i, hi, k, hk, hent, hname⟩ hdir
    obtain ⟨-, x, hx, -, rfl⟩ := (h d hd).named hi hk hc hent hname
    apply ((h d hd).entry x (List.mem_of_getElem? hx)).2.2
    cases hty : x.2.2 with
    | directory => rfl
    | unknown =>
      rw [DirEntry.new_fType, hty] at hdir
      contradiction
    | regular =>
      rw [DirEntry.new_fType, hty] at hdir
      contradiction

theorem Fs.uniqueNames_of_slots (h : ∀ d ∈ ds, s.SlotsOk part ds es d)
    : s.UniqueNames part (· ∈ ds) := by
  rintro d hd c hc i hi k hk j hj l hl ⟨e, hent, hname⟩ ⟨e', hent', hname'⟩
  obtain ⟨rfl, x, hx, hxc, -⟩ := (h d hd).named hi hk hc hent hname
  obtain ⟨rfl, y, hy, hyc, -⟩ := (h d hd).named hj hl hc hent' hname'
  refine ⟨rfl, ?_⟩
  obtain ⟨hk', -⟩ := List.getElem?_eq_some_iff.mp hx
  apply (List.getElem?_inj (by simpa using hk') (h d hd).nodup).mp
  rw [List.getElem?_map, List.getElem?_map, hx, hy, Option.map_some, Option.map_some, hxc, hyc]

theorem Fs.look_of_slots {n : UInt32} {t : FileType} (hL : s.Listing part (· ∈ ds))
    (h : ∀ d ∈ ds, s.SlotsOk part ds es d) (hd : d ∈ ds) (hk : k < 21)
    (hx : (es d)[k]? = some (c, n, t)) : s.look part d c = some (DirEntry.new c n t) := by
  obtain ⟨⟨hshort, hnul, hne⟩, -⟩ := (h d hd).entry _ (List.mem_of_getElem? hx)
  apply hL.look_of_lists (Fs.uniqueNames_of_slots h) hd ⟨hne, hnul⟩
  exact ⟨0, by omega, k, hk, (h d hd).dirent hk hx,
    (DirEntry.new_hasName_iff hshort hnul hnul).mpr rfl⟩

theorem Fs.dirTree_of_slots (hL : s.Listing part (· ∈ ds)) (h : ∀ d ∈ ds, s.SlotsOk part ds es d)
    (hno : ∀ d ∈ ds, ∀ x ∈ es d, x.2.1.toNat < 4096)
    (hdot : (es 0)[0]? = some ([46], 0, .directory))
    (hdotdot : (es 0)[1]? = some ([46, 46], 0, .directory))
    : s.DirTree part (· ∈ ds) := by
  have hdots : ∀ c, c = [46] ∨ c = [46, 46] → ∃ e, s.look part 0 c = some e ∧ e.iNo = 0 := by
    rintro c (rfl | rfl)
    . exact ⟨_, Fs.look_of_slots hL h hL.root (by omega) hdot, rfl⟩
    . exact ⟨_, Fs.look_of_slots hL h hL.root (by omega) hdotdot, rfl⟩
  refine ⟨hL.root, hL.rootDir, hdots, hL.iNo, hL.lt, hL.inBlocks, ?_⟩
  intro d c e hd hc hlook
  have hlists := hL.lists_of_look hd hc hlook
  obtain ⟨i, hi, k, hk, hent, hname⟩ := hlists
  obtain ⟨-, x, hx, -, rfl⟩ := (h d hd).named hi hk hc hent hname
  have hmem := List.mem_of_getElem? hx
  refine ⟨hno d hd x hmem, ?_⟩
  cases hty : x.2.2 with
  | unknown => exact absurd hty ((h d hd).entry x hmem).2.1
  | regular => exact .inl (by rw [DirEntry.new_fType])
  | directory => exact .inr ⟨by rw [DirEntry.new_fType], ((h d hd).entry x hmem).2.2 hty⟩

end Slots

end RogOS
