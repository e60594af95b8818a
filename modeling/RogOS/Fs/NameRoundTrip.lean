import RogOS.Fs.PathLookup

/-!
What `search_dir_entry` makes of the names that `create_dir_entry` puts in the slots of a directory.
-/

namespace RogOS

variable {part : Partition} {v : Vol} {ino : Inode} {name u : List UInt8} {no : UInt32}
  {t : FileType} {e : DirEntry}
  {i j k l : Nat} {buf : Mem} {a : Image}

def DirEntry.nameStr (e : DirEntry) : List UInt8 := e.encode.chars 0 16

def DirEntry.Matches (e : DirEntry) (u : List UInt8) : Prop :=
  e.nameStr = u ∧ (u.length = 16 → e.iNo.toNat % 256 = 0)

def Image.Stores (a : Image) (ino : Inode) (u : List UInt8) : Prop :=
  ∃ i < 140, ∃ k < 21, ∃ e, a.dirent ino i k = some e ∧ e.nameStr = u

def Before (j l i k : Nat) : Prop := j < i ∨ j = i ∧ l < k

/--
`search_dir_entry` finds the number and the type under the name, and nothing under any other name
that the directory does not store.
-/
structure NameFound (part : Partition) (v : Vol) (ino : Inode) (name : List UInt8) (no : UInt32)
    (t : FileType)
    : Prop where
  found : ∃ e, (searchDirEntry part ino name).run v = .ok (some e, v) ∧ e.iNo = no
    ∧ e.fType = t.code
  others : ∀ u, 0 ∉ u → u.length ≤ 16 → u ≠ name → ¬ (v.image part).Stores ino u →
    (searchDirEntry part ino u).run v = .ok (none, v)

def Image.Unshadowed (a : Image) (ino : Inode) (i k : Nat) (name : List UInt8) (no : UInt32)
    (t : FileType) : Prop :=
  ∀ j l e, l < 21 → Before j l i k → a.dirent ino j l = some e → e.Matches name →
    (∀ j' l' e', l' < 21 → Before j' l' j l → a.dirent ino j' l' = some e' → ¬ e'.Matches name) →
      e.iNo = no ∧ e.fType = t.code

section Match

theorem DirEntry.nameEq_iff_matches (hu : 0 ∉ u) (hlen : u.length ≤ 16)
    : nameEq buf k u = true ↔ (DirEntry.at buf k).Matches u := by
  have hbytes : buf.strEq (k * 24) u = (DirEntry.at buf k).encode.strEq 0 u := by
    apply Mem.strEq_congr
    intro i hi
    rw [Nat.zero_add, at_apply (by omega)]
  have hno : (DirEntry.at buf k).encode (0 + 16) = 0 ↔ (DirEntry.at buf k).iNo.toNat % 256 = 0 := by
    have hbyte : (DirEntry.at buf k).encode (0 + 16)
        = UInt8.ofNat (DirEntry.at buf k).iNo.toNat := by
      simp [encode, Mem.ofWord]
    rw [hbyte, ← UInt8.toNat_inj, UInt8.toNat_ofNat', UInt8.toNat_zero]
  rw [nameEq, size, hbytes, Mem.strEq_iff_chars hu hlen, hno]
  rfl

theorem DirEntry.nameStr_new (hname : 0 ∉ name) (hlen : name.length ≤ 16)
    : (DirEntry.new name no t).nameStr = name := by
  have hbyte : ∀ i < 16, (DirEntry.new name no t).encode (0 + i) = name.getD i 0 := by
    intro i hi
    simp [encode, DirEntry.new, hi]
  rw [nameStr, Mem.chars_eq_iff hname hlen]
  constructor
  . intro i hi
    rw [hbyte i (by omega), List.getD_eq_getElem _ _ hi]
  . intro hlt
    rw [hbyte _ hlt, List.getD_eq_default _ _ (Nat.le_refl _)]

theorem DirEntry.new_matches_iff (hname : 0 ∉ name) (hlen : name.length ≤ 16)
    : (DirEntry.new name no t).Matches name ↔ name.length < 16 ∨ no.toNat % 256 = 0 := by
  rw [Matches, nameStr_new hname hlen, new_iNo]
  constructor
  . intro h
    by_cases hlt : name.length < 16
    . exact .inl hlt
    . exact .inr (h.2 (by omega))
  . intro h
    exact ⟨rfl, fun h16 => h.resolve_left (by omega)⟩

theorem Image.hit_iff_matches (hi : i < 140) (hu : 0 ∉ u) (hlen : u.length ≤ 16)
    : a.hit ino u i k = true ↔ ∃ e, a.dirent ino i k = some e ∧ e.Matches u := by
  unfold hit
  by_cases h0 : a.block ino i = 0
  . simp [dirent, ref_of_lt hi, h0]
  . simp only [dirent_of_ne_zero hi h0, Option.some.injEq, exists_eq_left', bne_iff_ne, ne_eq, h0,
      not_false_eq_true, Bool.and_eq_true, true_and]
    exact DirEntry.nameEq_iff_matches hu hlen

theorem Image.not_matches_of_hit (hi : i < 140) (hu : 0 ∉ u) (hlen : u.length ≤ 16)
    (h : a.hit ino u i k = false) (he : a.dirent ino i k = some e) : ¬ e.Matches u := by
  intro hm
  rw [(hit_iff_matches hi hu hlen).mpr ⟨e, he, hm⟩] at h
  contradiction

end Match

section Search

theorem Image.lookup_eq_first (hu : 0 ∉ u) (hlen : u.length ≤ 16) (h : a.lookup ino u = some e)
    : ∃ i < 140, ∃ k < 21, a.dirent ino i k = some e ∧ e.Matches u
        ∧ ∀ j l e', l < 21 → Before j l i k → a.dirent ino j l = some e' → ¬ e'.Matches u := by
  rw [lookup, Option.map_eq_some_iff] at h
  obtain ⟨⟨i, k⟩, hpos, he⟩ := h
  obtain ⟨-, hi, hk, hhit⟩ := findPos_eq_some hpos
  rw [Nat.zero_add] at hi
  obtain ⟨e', he', hm⟩ := (hit_iff_matches hi hu hlen).mp hhit
  have h0 : a.block ino i ≠ 0 := by
    simp only [hit, Bool.and_eq_true, bne_iff_ne] at hhit
    exact hhit.1
  rw [dirent_of_ne_zero hi h0, he, Option.some.injEq] at he'
  subst he'
  refine ⟨i, hi, k, hk, by rw [dirent_of_ne_zero hi h0, he], hm, ?_⟩
  intro j l e' hl hbefore hent
  dsimp only at hi
  have hj : j < 140 := by
    obtain h | ⟨h, -⟩ := hbefore <;> omega
  exact not_matches_of_hit hj hu hlen (findPos_first hpos (Nat.zero_le j) hl hbefore) hent

theorem Image.lookup_ne_none (hi : i < 140) (hk : k < 21) (hu : 0 ∉ u) (hlen : u.length ≤ 16)
    (he : a.dirent ino i k = some e) (hm : e.Matches u) : a.lookup ino u ≠ none := by
  intro h
  rw [lookup, Option.map_eq_none_iff, findPos_eq_none] at h
  exact not_matches_of_hit hi hu hlen (h i (Nat.zero_le _) (by omega) k hk) he hm

theorem Image.lookup_of_not_stores (hu : 0 ∉ u) (hlen : u.length ≤ 16) (h : ¬ a.Stores ino u)
    : a.lookup ino u = none := by
  cases hlook : a.lookup ino u with
  | none => rfl
  | some e =>
    obtain ⟨i, hi, k, hk, he, hm, -⟩ := lookup_eq_first hu hlen hlook
    exact absurd ⟨i, hi, k, hk, e, he, hm.1⟩ h

end Search

section RoundTrip

theorem NameFound.matches (h : NameFound part v ino name no t)
    (hino : (v.image part).InBlocks part ino) (hnul : 0 ∉ name)
    (hlen : name.length ≤ 16) : (DirEntry.new name no t).Matches name := by
  obtain ⟨e, hrun, hno, -⟩ := h.found
  rw [searchDirEntry_run hino, Except.ok.injEq, Prod.mk.injEq] at hrun
  obtain ⟨-, -, -, -, -, hm, -⟩ := Image.lookup_eq_first hnul hlen hrun.1
  rw [DirEntry.new_matches_iff hnul hlen, ← hno]
  by_cases hlt : name.length < 16
  . exact .inl hlt
  . exact .inr (hm.2 (by omega))

theorem NameFound.unshadowed (h : NameFound part v ino name no t)
    (hino : (v.image part).InBlocks part ino) (hnul : 0 ∉ name)
    (hlen : name.length ≤ 16) : (v.image part).Unshadowed ino i k name no t := by
  obtain ⟨e, hrun, hno, htype⟩ := h.found
  rw [searchDirEntry_run hino, Except.ok.injEq, Prod.mk.injEq] at hrun
  obtain ⟨i', hi', k', hk', he, hm, hfirst⟩ := Image.lookup_eq_first hnul hlen hrun.1
  intro j l e' hl hbefore hent hm' hfirst'
  -- both slots are the first one that matches
  have hjl : j = i' ∧ l = k' := by
    have h1 : ¬ Before j l i' k' := fun h => hfirst j l e' hl h hent hm'
    have h2 : ¬ Before i' k' j l := fun h => hfirst' i' k' e hk' h he hm
    unfold Before at h1 h2
    omega
  obtain ⟨rfl, rfl⟩ := hjl
  rw [hent, Option.some.injEq] at he
  rw [he]
  exact ⟨hno, htype⟩

theorem nameFound_of_matches (hino : (v.image part).InBlocks part ino) (hi : i < 140) (hk : k < 21)
    (hnul : 0 ∉ name) (hlen : name.length ≤ 16)
    (hstored : (v.image part).dirent ino i k = some (DirEntry.new name no t))
    (hmatch : (DirEntry.new name no t).Matches name)
    (hunshadowed : (v.image part).Unshadowed ino i k name no t)
    : NameFound part v ino name no t := by
  constructor
  . cases hlook : (v.image part).lookup ino name with
    | none => exact absurd hlook (Image.lookup_ne_none hi hk hnul hlen hstored hmatch)
    | some e =>
      refine ⟨e, by rw [searchDirEntry_run hino, hlook], ?_⟩
      obtain ⟨j, hj, l, hl, he, hm, hfirst⟩ := Image.lookup_eq_first hnul hlen hlook
      by_cases hbefore : Before j l i k
      . exact hunshadowed j l e hl hbefore he hm hfirst
      . have hjl : j = i ∧ l = k := by
          have h1 : ¬ Before i k j l := fun h => hfirst i k _ hk h hstored hmatch
          unfold Before at h1 hbefore
          omega
        obtain ⟨rfl, rfl⟩ := hjl
        rw [hstored, Option.some.injEq] at he
        rw [← he]
        exact ⟨rfl, rfl⟩
  . intro u hu hlen' _ hstores
    rw [searchDirEntry_run hino, Image.lookup_of_not_stores hu hlen' hstores]

/--
An entry that `create_dir_entry` made and that is in a slot of the directory is found if and only if
its name leaves room for a NUL, or the byte behind it is 0, and no slot before it has the same name
for something else.
-/
theorem nameFound_iff {name : CStr} (hino : (v.image part).InBlocks part ino) (hi : i < 140)
    (hk : k < 21) (hcreate : (createDirEntry name.chars no t).run () = .ok (e, ()))
    (hstored : (v.image part).dirent ino i k = some e)
    : NameFound part v ino name.chars no t
        ↔
      (name.chars.length < 16 ∨ no.toNat % 256 = 0)
        ∧ (v.image part).Unshadowed ino i k name.chars no t := by
  simp only [createDirEntry, Cmd.bind_run, Cmd.assert_run, Cmd.pure_run] at hcreate
  obtain ⟨_, _, ⟨hlen, -⟩, h⟩ := hcreate
  cases h
  rw [← @DirEntry.new_matches_iff name.chars no t name.nulFree hlen]
  constructor
  . intro h
    exact ⟨h.matches hino name.nulFree hlen, h.unshadowed hino name.nulFree hlen⟩
  . rintro ⟨hmatch, hunshadowed⟩
    exact nameFound_of_matches hino hi hk name.nulFree hlen hstored hmatch hunshadowed

end RoundTrip

section Fixed

theorem nameFound_dirFs
    : NameFound smallPartition dirFs.vol (dirFs.view smallPartition 0) [97] 1 .directory := by
  let name : CStr := ⟨[97], by decide⟩
  have hent : (dirFs.vol.image smallPartition).dirent (dirFs.view smallPartition 0) 0 2
      = some (DirEntry.new [97] 1 .directory) :=
    (slotsOk_dirFs 0 (by decide)).dirent (by omega) rfl
  have hblocks := listing_dirFs.inBlocks 0 (by decide)
  have hcreate : (createDirEntry name.chars 1 .directory : Cmd Fault Unit DirEntry).run ()
      = .ok (DirEntry.new [97] 1 .directory, ()) := rfl
  apply (nameFound_iff hblocks (by decide) (by decide) hcreate hent).mpr
  refine ⟨.inl (by decide), ?_⟩
  intro j l e hl hbefore he hm
  have hslots := (slotsOk_dirFs 0 (by decide)).slots
  obtain ⟨rfl, hl2⟩ : j = 0 ∧ l < 2 := by
    unfold Before at hbefore
    omega
  have hother : ∀ l < 2, ¬ (((dirSlots 0)[l]?).elim DirEntry.blank fun x =>
      DirEntry.new x.1 x.2.1 x.2.2).nameStr = [97] := by
    decide
  rw [hslots 0 (by decide) l hl, if_pos rfl, Option.some.injEq] at he
  rw [← he] at hm
  exact absurd hm.1 (hother l hl2)

def longName : CStr := ⟨List.replicate 16 97, by decide⟩

def longVol : Vol :=
  (syncDirEntry smallPartition (smallFs.view smallPartition 0)
    (DirEntry.new longName.chars 1 .regular)).after smallFs.vol

/-- A name that passes the assertion of `create_dir_entry` is not always found. -/
theorem not_nameFound_longName
    : ¬ ∀ (part : Partition) (v : Vol) (ino : Inode) (i k : Nat) (name : CStr) (no : UInt32) (t :
        FileType) (e : DirEntry),
        (v.image part).InBlocks part ino → i < 140 → k < 21
          → (createDirEntry name.chars no t).run () = .ok (e, ()) →
          (v.image part).dirent ino i k = some e → NameFound part v ino name.chars no t := by
  intro h
  have hblocks : (longVol.image smallPartition).InBlocks smallPartition
      (smallFs.view smallPartition 0) := by
    constructor
    . decide +kernel
    . decide +kernel
  have hent : (longVol.image smallPartition).dirent (smallFs.view smallPartition 0) 0 2
      = some (DirEntry.new longName.chars 1 .regular) := by
    decide +kernel
  have hfound := h smallPartition longVol (smallFs.view smallPartition 0) 0 2 longName 1 .regular
    (DirEntry.new longName.chars 1 .regular) hblocks (by decide) (by decide) rfl hent
  have hm := hfound.matches hblocks longName.nulFree (by decide)
  rw [DirEntry.new_matches_iff longName.nulFree (by decide)] at hm
  exact absurd hm (by decide)

end Fixed

end RogOS
