import RogOS.Fs.Invariant.Steps
import RogOS.Fs.Lemmas.DeleteRun

/-!
Entering an inode in a directory and deleting its entry keep the invariant of the tree.
-/

namespace RogOS

variable {part : Partition} {strict : Bool} {a a' : Image} {T : Tree} {d n w : Nat} {p p' : Inode}
  {e : DirEntry}

structure Image.Added (a : Image) (p : Inode) (e : DirEntry) (w i : Nat) (new : Nat → Prop)
    (a' : Image) (p' : Inode) : Prop where
  lt : i < 140
  here : ∀ k < 21, new k → a'.dirent p' i k = some e
  other : ∀ j < 140, (∀ l < 21, ¬ (j = i ∧ new l) → a'.dirent p' j l = a.dirent p j l)
      ∧ (j = i → ∀ l < 21, new l → ∀ e', a.dirent p j l = some e' → e'.fType = 0)
    ∨ (∀ l < 21, ¬ (j = i ∧ new l) → a'.dirent p' j l = none ∨ a'.dirent p' j l
        = some DirEntry.blank)
      ∧ (12 ≤ j ∧ a.FullBelow p 12 ∨ ∀ l < 21, a.dirent p j l = none)
  used : ∃ l < 21, new l
  count : w = 1 ∨ w = 2 ∧ new 0 ∧ new 1
  size : p'.iSize = p.iSize + 24 * UInt32.ofNat w

theorem Image.Inserted.added (h : a.Inserted part p e a' p') (how : a.Owns part p)
    : ∃ w i new, a.Added p e w i new a' p' := by
  cases h with
  | slot i k hi hfull hblock hk =>
    refine ⟨1, i, fun l => l = k, ?_⟩
    have hent : ∀ j < 140, ∀ l < 21, _ := fun j hj l hl =>
      how.dirent_slot (e := e) (k := k) hi hblock hj hl
    have hfree := (findSlot_eq_some hk).2.2.1
    constructor
    . omega
    . intro l hl hlk
      rw [hent i (by omega) l hl, if_pos ⟨rfl, hlk⟩]
    . intro j hj
      left
      constructor
      . intro l hl hne
        rw [hent j hj l hl, if_neg hne]
      . intro hji l hl hlk e' he'
        rw [hji, hlk] at he'
        unfold dirent at he'
        rw [ref_direct hi, if_neg hblock, Option.some.injEq] at he'
        rw [← he']
        simpa [FileType.code] using hfree
    . exact ⟨k, (findSlot_eq_some hk).2.1, rfl⟩
    . exact .inl rfl
    . rfl
  | block i b hi hfull hblock hb =>
    refine ⟨2, i, fun l => l < 2, ?_⟩
    have hent : ∀ j < 140, ∀ l < 21, _ := fun j hj l hl => how.dirent_block hb (e := e) hi hj hl
    have hnone : ∀ l, a.dirent p i l = none := by
      intro l
      unfold dirent
      rw [ref_direct hi, if_pos hblock]
    constructor
    . omega
    . intro l hl hlk
      rw [hent i (by omega) l hl, if_pos rfl, if_pos hlk]
    . intro j hj
      by_cases hji : j = i
      . right
        refine ⟨?_, .inr fun l _ => by rw [hji]; exact hnone l⟩
        intro l hl hne
        right
        rw [hent j hj l hl, if_pos hji, if_neg (fun hlt => hne ⟨hji, hlt⟩)]
      . left
        refine ⟨?_, fun heq => absurd heq hji⟩
        intro l hl _
        rw [hent j hj l hl, if_neg hji]
    . exact ⟨0, by omega, by omega⟩
    . exact .inr ⟨rfl, by omega, by omega⟩
    . simp only [Inode.grow_iSize, Inode.setSector_iSize, UInt32.add_assoc]
      rfl
  | table b c hfull hb hc =>
    refine ⟨2, 12, fun l => l < 2, ?_⟩
    have hent : ∀ j < 140, ∀ l < 21, _ := fun j hj l hl => how.dirent_table hb hc (e := e) hj hl
    constructor
    . omega
    . intro l hl hlk
      rw [hent 12 (by omega) l hl, if_neg (by omega), if_pos rfl, if_pos hlk]
    . intro j hj
      by_cases hlt : j < 12
      . left
        refine ⟨?_, fun heq => by omega⟩
        intro l hl _
        rw [hent j hj l hl, if_pos hlt]
      . right
        refine ⟨?_, .inl ⟨by omega, hfull⟩⟩
        intro l hl hne
        rw [hent j hj l hl, if_neg hlt]
        by_cases hj12 : j = 12
        . rw [if_pos hj12, if_neg (fun h2 => hne ⟨hj12, h2⟩)]
          exact .inr rfl
        . rw [if_neg hj12]
          exact .inl rfl
    . exact ⟨0, by omega, by omega⟩
    . exact .inr ⟨rfl, by omega, by omega⟩
    . simp only [Inode.grow_iSize, Inode.setSector_iSize, UInt32.add_assoc]
      rfl

theorem Tree.ChildEntry.change {pend pend' : Option Nat} {c m : Nat} (he : T.ChildEntry pend c e)
    (hd : T.node d = some p) (hp : pend' ≠ some e.iNo.toNat)
    : (T.change d p' m w).ChildEntry pend' c e where
  name := he.name
  node := by
    rw [T.change_isSome hd]
    exact he.node
  nonzero := he.nonzero
  parent := he.parent
  known := hp

theorem TreeInv.change_size {pend : Option Nat} (h : TreeInv part strict pend a T)
    (hd : T.node d = some p) (hn : (T.node n).isSome) (h0 : n ≠ 0) (hpar : T.parent n = d)
    : (T.change d p' n w).size d + T.entries n = T.size d + w := by
  have hlt : n < 256 := by
    obtain ⟨ino, hino⟩ := Option.isSome_iff_exists.mp hn
    exact (h.lt n ino hino).1
  have h1 : T.share d n = T.entries n := by
    unfold Tree.share
    rw [if_pos ⟨hn, h0, hpar⟩]
  have h2 : (T.change d p' n w).share d n = w := by
    unfold Tree.share
    rw [T.change_isSome hd, if_pos ⟨hn, h0, hpar⟩, T.change_entries_self]
  have h3 : (T.change d p' n w).size d + T.share d n = T.size d + (T.change d p' n w).share d n :=
    Tree.size_change hlt (fun m hm => T.change_share_of_ne hd hm)
  rw [h1, h2] at h3
  exact h3

theorem TreeInv.fType_child {pend pend' : Option Nat} {c : Nat} (h : TreeInv part strict pend a T)
    (he : T.ChildEntry pend' c e) : e.fType ≠ 0 := by
  obtain ⟨name, -, heq⟩ := he.name
  obtain ⟨ino, hino⟩ := Option.isSome_iff_exists.mp he.node
  rw [heq, DirEntry.new_fType]
  cases h.type _ ino hino with
  | inl hty =>
    rw [hty]
    decide
  | inr hty =>
    rw [hty]
    decide

theorem TreeInv.properEntries {pend : Option Nat} (h : TreeInv part strict pend a T)
    (hok : T.DirOk pend a d p)
    : a.ProperEntries p := by
  intro i hi k hk e he
  by_cases ho : OtherSlot i k
  . cases hok.child i hi k hk ho e he with
    | inl hb =>
      rw [hb]
      exact ⟨by decide, fun _ => rfl⟩
    | inr hc =>
      refine ⟨?_, fun h0 => absurd h0 (h.fType_child hc)⟩
      obtain ⟨name, -, heq⟩ := hc.name
      rw [heq, DirEntry.new_fType]
      exact DirEntry.fType_code_le
  . unfold OtherSlot at ho
    rw [not_not] at ho
    have hdir : e.fType = FileType.directory.code := by
      rw [ho.1] at he
      have : k = 0 ∨ k = 1 := by omega
      cases this with
      | inl hk0 =>
        rw [hk0, hok.dot, Option.some.injEq] at he
        rw [← he, DirEntry.new_fType]
      | inr hk1 =>
        rw [hk1, hok.dotdot, Option.some.injEq] at he
        rw [← he, DirEntry.new_fType]
    rw [hdir]
    exact ⟨by decide, fun h0 => absurd h0 (by decide)⟩

section Insert

variable {i : Nat} {new : Nat → Prop}

theorem Image.Added.otherSlot {pend : Option Nat} (h : a.Added p e w i new a' p')
    (hok : T.DirOk pend a d p) {k : Nat} (hk : k < 21) (hnew : new k) : OtherSlot i k := by
  rintro ⟨hi, hk2⟩
  -- the first two slots are taken
  have hdot : ∃ e', a.dirent p i k = some e' ∧ e'.fType ≠ 0 := by
    rw [hi]
    have : k = 0 ∨ k = 1 := by omega
    cases this with
    | inl hk0 => exact ⟨_, by rw [hk0]; exact hok.dot, by simp [FileType.code]⟩
    | inr hk1 => exact ⟨_, by rw [hk1]; exact hok.dotdot, by simp [FileType.code]⟩
  obtain ⟨e', he', hne⟩ := hdot
  cases h.other i h.lt with
  | inl hsame => exact hne (hsame.2 rfl k hk hnew e' he')
  | inr hgone =>
    cases hgone.2 with
    | inl hge => omega
    | inr hnone =>
      rw [hnone k hk] at he'
      contradiction

theorem Image.Added.cases {pend : Option Nat} (h : a.Added p e w i new a' p')
    (hT : TreeInv part strict pend a T) (hok : T.DirOk pend a d p) {j l : Nat} (hj : j < 140)
    (hl : l < 21) (ho : OtherSlot j l) {e' : DirEntry}
    (he' : a'.dirent p' j l = some e')
    : e' = DirEntry.blank
      ∨ j = i ∧ new l ∧ e' = e
      ∨ ¬ (j = i ∧ new l) ∧ a.dirent p j l = some e' ∧ T.ChildEntry pend d e'
        ∧ ∀ l' < 21, ∀ e'', a.dirent p j l' = some e'' → e''.iNo = e'.iNo → a'.dirent p' j l'
            = some e'' := by
  by_cases hin : j = i ∧ new l
  . right
    left
    have := h.here l hl hin.2
    rw [← hin.1, he', Option.some.injEq] at this
    exact ⟨hin.1, hin.2, this⟩
  . cases h.other j hj with
    | inl hsame =>
      rw [hsame.1 l hl hin] at he'
      cases hok.child j hj l hl ho e' he' with
      | inl hb => exact .inl hb
      | inr hc =>
        refine .inr (.inr ⟨hin, he', hc, ?_⟩)
        intro l' hl' e'' he'' hno
        rw [hsame.1 l' hl' ?_]
        . exact he''
        . rintro ⟨hji, hnew⟩
          have hfree := hsame.2 hji l' hl' hnew e'' he''
          have ho' : OtherSlot j l' := by
            rw [hji]
            exact h.otherSlot hok hl' hnew
          cases hok.child j hj l' hl' ho' e'' he'' with
          | inl hb =>
            rw [hb] at hno
            exact hc.nonzero hno.symm
          | inr hc' => exact hT.fType_child hc' hfree
    | inr hgone =>
      left
      cases hgone.1 l hl hin with
      | inl hnone =>
        rw [hnone] at he'
        contradiction
      | inr hblank =>
        rw [hblank, Option.some.injEq] at he'
        exact he'.symm

theorem Image.Added.dots {pend : Option Nat} (h : a.Added p e w i new a' p')
    (hok : T.DirOk pend a d p) {k : Nat} (hk : k < 2) : a'.dirent p' 0 k = a.dirent p 0 k := by
  have hin : ¬ (0 = i ∧ new k) := by
    rintro ⟨hi, hnew⟩
    exact h.otherSlot hok (by omega) hnew ⟨hi.symm, hk⟩
  cases h.other 0 (by omega) with
  | inl hsame => exact hsame.1 k (by omega) hin
  | inr hgone =>
    cases hgone.2 with
    | inl hge => omega
    | inr hnone =>
      have := hnone 0 (by omega)
      rw [hok.dot] at this
      contradiction

theorem Image.Added.otherNew (h : a.Added p e w i new a' p') (hw : w ≠ 1) (l : Nat)
    : ∃ l' < 21, l' ≠ l ∧ new l' := by
  have hboth : new 0 ∧ new 1 := by
    cases h.count with
    | inl h1 => exact absurd h1 hw
    | inr h2 => exact h2.2
  by_cases hl0 : l = 0
  . exact ⟨1, by omega, by omega, hboth.2⟩
  . exact ⟨0, by omega, by omega, hboth.1⟩

theorem Image.Added.dirOk (h : a.Added p e w i new a' p') (hT : TreeInv part strict (some n) a T)
    (hd : T.node d = some p) (hok : T.DirOk (some n) a d p) (hn : (T.node n).isSome) (h0 : n ≠ 0)
    (hpar : T.parent n = d) (hent : T.entries n = 0) (hno : e.iNo = UInt32.ofNat n)
    (he : ∃ name, ProperName name ∧ e = DirEntry.new name e.iNo (T.type n))
    (hlive : a'.BlocksLive p')
    : (T.change d p' n w).DirOk none a' d p' := by
  have hlt : n < 256 := by
    obtain ⟨ino, hino⟩ := Option.isSome_iff_exists.mp hn
    exact (hT.lt n ino hino).1
  have hnat : e.iNo.toNat = n := by
    rw [hno]
    exact UInt32.toNat_ofNat_of_lt' (by rw [UInt32.size]; omega)
  have hchild : (T.change d p' n w).ChildEntry none d e := by
    constructor
    . rw [hnat]
      exact he
    . rw [T.change_isSome hd, hnat]
      exact hn
    . intro heq
      rw [heq] at hnat
      exact h0 hnat.symm
    . rw [hnat]
      exact hpar
    . simp
  have hne : ∀ e', T.ChildEntry (some n) d e' → e'.iNo ≠ e.iNo := by
    intro e' he' heq
    apply he'.known
    rw [heq, hnat]
  constructor
  . rw [h.dots hok (by omega), hok.dot]
  . rw [h.dots hok (by omega), hok.dotdot]
    rfl
  . intro j hj l hl ho e' he'
    obtain hb | ⟨-, -, heq⟩ | ⟨-, -, hc, -⟩ := h.cases hT hok hj hl ho he'
    . exact .inl hb
    . rw [heq]
      exact .inr hchild
    . exact .inr (hc.change hd (by simp))
  . intro j hj l hl j' hj' l' hl' ho ho' e1 e2 he1 he2 hnz heq
    have hnb : ∀ x : DirEntry, x.iNo ≠ 0 → x ≠ DirEntry.blank := by
      rintro x hx rfl
      exact hx rfl
    obtain hb | ⟨hji, -, rfl⟩ | ⟨-, hold, hc, -⟩ := h.cases hT hok hj hl ho he1
    . exact absurd hb (hnb e1 hnz)
    . obtain hb | ⟨hji', -, -⟩ | ⟨-, -, hc', -⟩ := h.cases hT hok hj' hl' ho' he2
      . exact absurd hb (hnb e2 (by rw [← heq]; exact hnz))
      . rw [hji, hji']
      . exact absurd heq.symm (hne e2 hc')
    . obtain hb | ⟨-, -, rfl⟩ | ⟨-, hold', -, -⟩ := h.cases hT hok hj' hl' ho' he2
      . exact absurd hb (hnb e2 (by rw [← heq]; exact hnz))
      . exact absurd heq (hne e1 hc)
      . exact hok.once j hj l hl j' hj' l' hl' ho ho' e1 e2 hold hold' hnz heq
  . intro j hj l hl ho e1 he1 hnz h2
    obtain rfl | ⟨hji, hnew, rfl⟩ | ⟨-, hold, hc, hkept⟩ := h.cases hT hok hj hl ho he1
    . exact absurd rfl hnz
    . -- the entry was made twice
      rw [hnat, T.change_entries_self] at h2
      obtain ⟨l', hl', hne', hnew'⟩ := h.otherNew (by omega) l
      refine ⟨l', hl', hne', ?_, e1, ?_, rfl⟩
      . rw [hji]
        exact h.otherSlot hok hl' hnew'
      . rw [hji]
        exact h.here l' hl' hnew'
    . rw [T.change_entries_of_ne] at h2
      . obtain ⟨l', hl', hne', ho', e2, he2, heq⟩ := hok.twice j hj l hl ho e1 hold hnz h2
        exact ⟨l', hl', hne', ho', e2, hkept l' hl' e2 he2 heq, heq⟩
      . intro heq
        exact hc.known (by rw [heq])
  . have hsize : (T.change d p' n w).size d + T.entries n = T.size d + w :=
      hT.change_size hd hn h0 hpar
    have hle := hT.size_le (d := d)
    have hold := hok.size
    have hw : w = 1 ∨ w = 2 := by
      cases h.count with
      | inl h1 => exact .inl h1
      | inr h2 => exact .inr h2.1
    have hgrow : (24 * UInt32.ofNat w).toNat = 24 * w := by
      cases hw with
      | inl h1 => rw [h1]; rfl
      | inr h2 => rw [h2]; rfl
    rw [h.size, UInt32.toNat_add, hgrow]
    omega
  . exact hlive

theorem Image.Added.hasEntry {pend : Option Nat} {x : Nat} (h : a.Added p e w i new a' p')
    (hT : TreeInv part strict pend a T) (hok : T.DirOk pend a d p)
    (htab : ¬ (a.FullBelow p 12 ∧ p.sector 12 ≠ 0))
    (hx0 : x ≠ 0) (hlt : x < 256) (hx : a.HasEntry p x) : a'.HasEntry p' x := by
  apply hx.mono
  intro j hj l hl ho e' he' hno
  have hnz : e'.iNo ≠ 0 := by
    intro heq
    apply hx0
    have hnat : (UInt32.ofNat x).toNat = x := UInt32.toNat_ofNat_of_lt' (by rw [UInt32.size]; omega)
    rw [← hnat, ← hno, heq]
    rfl
  cases h.other j hj with
  | inl hsame =>
    rw [hsame.1 l hl]
    . exact he'
    . rintro ⟨hji, hnew⟩
      have hfree := hsame.2 hji l hl hnew e' he'
      cases hok.child j hj l hl ho e' he' with
      | inl hb =>
        rw [hb] at hnz
        exact hnz rfl
      | inr hc => exact hT.fType_child hc hfree
  | inr hgone =>
    exfalso
    cases hgone.2 with
    | inl hge =>
      have h12 : p.sector 12 = 0 := by
        by_contra hne
        exact htab ⟨hge.2, hne⟩
      have href : a.ref p j = 0 := by
        rw [Image.ref_of_lt hj, Image.block_of_ge hge.1, h12]
        rfl
      unfold Image.dirent at he'
      rw [if_pos href] at he'
      contradiction
    | inr hnone =>
      rw [hnone l hl] at he'
      contradiction

theorem Image.Inserted.iNo (h : a.Inserted part p e a' p') : p'.iNo = p.iNo := by
  cases h <;> rfl

theorem Image.Inserted.blocksLive (h : a.Inserted part p e a' p') (how : a.Owns part p)
    (he : e.fType ≠ 0) (hlive : a.BlocksLive p) : a'.BlocksLive p' := by
  cases h with
  | slot i k hi hfull hblock hk =>
    have hent : ∀ j < 140, ∀ l < 21, _ := fun j hj l hl =>
      how.dirent_slot (e := e) (k := k) hi hblock hj hl
    have hk21 := (findSlot_eq_some hk).2.1
    constructor
    . intro j hj h0 e' he'
      by_cases hji : j = i
      . exact ⟨k, hk21, e, by rw [hent j hj k hk21, if_pos ⟨hji, rfl⟩], he⟩
      . rw [hent j hj 0 (by omega), if_neg fun h => hji h.1] at he'
        obtain ⟨l, hl, e'', he'', hne⟩ := hlive.entry j hj h0 e' he'
        exact ⟨l, hl, e'', by rw [hent j hj l hl, if_neg fun h => hji h.1]; exact he'', hne⟩
    . intro h12
      rw [hent 12 (by omega) 0 (by omega), if_neg (by omega)]
      exact hlive.table h12
  | block i b hi hfull hblock hb =>
    have hent : ∀ j < 140, ∀ l < 21, _ := fun j hj l hl => how.dirent_block hb (e := e) hi hj hl
    constructor
    . intro j hj h0 e' he'
      by_cases hji : j = i
      . exact ⟨0, by omega, e, by rw [hent j hj 0 (by omega), if_pos hji, if_pos (by omega)], he⟩
      . rw [hent j hj 0 (by omega), if_neg hji] at he'
        obtain ⟨l, hl, e'', he'', hne⟩ := hlive.entry j hj h0 e' he'
        exact ⟨l, hl, e'', by rw [hent j hj l hl, if_neg hji]; exact he'', hne⟩
    . intro h12
      rw [hent 12 (by omega) 0 (by omega), if_neg (by omega)]
      apply hlive.table
      have hsec : ((p.setSector i (part.blockLba b)).grow 24).sector 12 = p.sector 12 := by
        have hset := @Inode.sector_setSector p i 12 (part.blockLba b) (by omega)
        rw [if_neg (by omega)] at hset
        exact hset
      rw [← hsec]
      exact h12
  | table b c hfull hb hc =>
    have hent : ∀ j < 140, ∀ l < 21, _ := fun j hj l hl => how.dirent_table hb hc (e := e) hj hl
    have h12 : ∀ l < 21, _ := fun l hl => hent 12 (by omega) l hl
    constructor
    . intro j hj h0 e' he'
      rw [hent j hj 0 (by omega)] at he'
      by_cases hlt : j < 12
      . rw [if_pos hlt] at he'
        obtain ⟨l, hl, e'', he'', hne⟩ := hlive.entry j hj h0 e' he'
        exact ⟨l, hl, e'', by rw [hent j hj l hl, if_pos hlt]; exact he'', hne⟩
      . rw [if_neg hlt] at he'
        split at he'
        . next hj12 =>
            exact ⟨0, by omega, e, by rw [hent j hj 0 (by omega), if_neg hlt, if_pos hj12,
            if_pos (by omega)], he⟩
        . contradiction
    . intro _
      rw [hent 12 (by omega) 0 (by omega), if_neg (by omega), if_pos rfl]
      simp

theorem TreeInv.insert (h : TreeInv part strict (some n) a T) (hd : T.node d = some p)
    (hty : T.type d = .directory) (hn : (T.node n).isSome) (h0 : n ≠ 0) (hpar : T.parent n = d)
    (hent : T.entries n = 0) {name : List UInt8} (hname : ProperName name)
    (hins : a.Inserted part p (DirEntry.new name (UInt32.ofNat n) (T.type n)) a' p')
    (htab : strict = true → ¬ (a.FullBelow p 12 ∧ p.sector 12 ≠ 0))
    : ∃ w, TreeInv part strict none a' (T.change d p' n w) := by
  have how := h.owns hd
  obtain ⟨w, i, new, hadd⟩ := hins.added how
  have hw : 0 < w ∧ w ≤ 2 := by
    cases hadd.count with
    | inl h1 => omega
    | inr h2 => omega
  refine ⟨w, ?_⟩
  apply h.change_of_extends hd (hins.extends how h.tail) (fun hs =>
    hins.keeps how (htab hs)) hins.iNo
  . refine .inl ⟨hpar, fun _ => hw.1, hw.2, fun x _ => by simp, ?_⟩
    intro x hx heq
    rw [Option.some.injEq] at heq
    exact hx heq.symm
  . intro hreg
    rw [hty] at hreg
    contradiction
  . intro _
    apply hadd.dirOk h hd (h.dir d p hd hty) hn h0 hpar hent rfl ⟨name, hname, rfl⟩
    apply hins.blocksLive how _ (h.dir d p hd hty).blocks
    obtain ⟨y, hy⟩ := Option.isSome_iff_exists.mp hn
    rw [DirEntry.new_fType]
    cases h.type n y hy with
    | inl hreg =>
      rw [hreg]
      decide
    | inr hdir =>
      rw [hdir]
      decide
  . intro hs x hx hx0 _ hxd
    by_cases hxn : x = n
    . obtain ⟨l, hl, hnew⟩ := hadd.used
      rw [hxn]
      exact ⟨i, hadd.lt, l, hl, hadd.otherSlot (h.dir d p hd hty) hl hnew, _, hadd.here l hl hnew,
        rfl⟩
    . obtain ⟨y, hy⟩ := Option.isSome_iff_exists.mp hx
      apply hadd.hasEntry h (h.dir d p hd hty) (htab hs) hx0 (h.lt x y hy).1
      apply h.linked hs x p hx hx0
      . intro heq
        rw [Option.some.injEq] at heq
        exact hxn heq.symm
      . rw [hxd]
        exact hd

end Insert

section Delete

variable {i k : Nat} {m : UInt32} {pend : Option Nat}

theorem TreeInv.ordinary_iff (h : TreeInv part strict pend a T) (hok : T.DirOk pend a d p)
    (hi : i < 140) (hk : k < 21) (hblock : a.block p i ≠ 0)
    : Ordinary (a.blockSec p i) k ↔ OtherSlot i k ∧ T.ChildEntry pend d (a.entry p i k) := by
  have hent : a.dirent p i k = some (a.entry p i k) := a.dirent_of_ne_zero hi hblock
  have hle : (DirEntry.at (a.blockSec p i) k).fType ≤ 2 := (h.properEntries hok i hi k hk _ hent).1
  have hname : ∀ name : List UInt8, 0 ∉ name →
      (nameEq (a.blockSec p i) k name = true ↔ (a.entry p i k).HasName name) :=
    fun name hn => DirEntry.nameEq_iff hn hle
  constructor
  . rintro ⟨hlive, hdot, hdotdot⟩
    have ho : OtherSlot i k := by
      rintro ⟨rfl, hk2⟩
      have : k = 0 ∨ k = 1 := by omega
      cases this with
      | inl hk0 =>
        subst hk0
        rw [hok.dot, Option.some.injEq] at hent
        rw [← Bool.not_eq_true, hname [46] (by decide), ← hent,
          DirEntry.new_hasName_iff (by decide) (by decide) (by decide)] at hdot
        exact hdot rfl
      | inr hk1 =>
        subst hk1
        rw [hok.dotdot, Option.some.injEq] at hent
        rw [← Bool.not_eq_true, hname [46, 46] (by decide), ← hent,
          DirEntry.new_hasName_iff (by decide) (by decide) (by decide)] at hdotdot
        exact hdotdot rfl
    refine ⟨ho, ?_⟩
    cases hok.child i hi k hk ho _ hent with
    | inl hb =>
      exfalso
      apply hlive
      rw [show DirEntry.at (a.blockSec p i) k = DirEntry.blank from hb]
      rfl
    | inr hc => exact hc
  . rintro ⟨-, hc⟩
    obtain ⟨name, hp, heq⟩ := hc.name
    refine ⟨h.fType_child hc, ?_, ?_⟩
    . rw [← Bool.not_eq_true, hname _ (by decide), heq,
        DirEntry.new_hasName_iff hp.short hp.nulFree (by decide)]
      exact fun h => hp.notDot h.symm
    . rw [← Bool.not_eq_true, hname _ (by decide), heq,
        DirEntry.new_hasName_iff hp.short hp.nulFree (by decide)]
      exact fun h => hp.notDotDot h.symm

theorem Image.Deleted.iNo {b : Bool} (h : a.Deleted part p m a' (b, p')) : p'.iNo = p.iNo := by
  cases h <;> rfl

structure Image.Erased (a : Image) (p : Inode) (i k : Nat) (a' : Image) (p' : Inode) : Prop where
  here : a'.dirent p' i k = none ∨ a'.dirent p' i k = some DirEntry.blank
  other : ∀ j < 140, (∀ l < 21, ¬ (j = i ∧ l = k) → a'.dirent p' j l = a.dirent p j l)
    ∨ j = i ∧ (∀ l < 21, a'.dirent p' j l = none) ∧ ∀ l < 21, Ordinary (a.blockSec p i) l → l = k
  first : i = 0 → ∀ l < 21, l ≠ k → a'.dirent p' 0 l = a.dirent p 0 l
  size : 24 ≤ p.iSize.toNat ∧ p'.iSize.toNat = p.iSize.toNat - 24

structure Image.DeletedAt (T : Tree) (pend : Option Nat) (a : Image) (d : Nat) (p : Inode)
    (m : UInt32) (i k : Nat) (e : DirEntry) : Prop where
  block : i < 140
  slot : k < 21
  other : OtherSlot i k
  entry : a.dirent p i k = some e
  child : T.ChildEntry pend d e
  number : e.iNo = m
  only : ∀ l < 21, OtherSlot i l → ∀ e', a.dirent p i l = some e' → e'.iNo = m → l = k

theorem TreeInv.deletedAt (h : TreeInv part strict pend a T) (hok : T.DirOk pend a d p)
    (hi : i < 140) (hblock : a.block p i ≠ 0) (hk : k < 21) (hord : Ordinary (a.blockSec p i) k)
    (hno : (a.entry p i k).iNo = m)
    (honly : ∀ l < 21, Ordinary (a.blockSec p i) l → (a.entry p i l).iNo = m → l = k)
    : a.DeletedAt T pend d p m i k (a.entry p i k) := by
  rw [h.ordinary_iff hok hi hk hblock] at hord
  refine ⟨hi, hk, hord.1, a.dirent_of_ne_zero hi hblock, hord.2, hno, ?_⟩
  intro l hl ho e' he' hno'
  have hent : a.dirent p i l = some (a.entry p i l) := a.dirent_of_ne_zero hi hblock
  rw [he', Option.some.injEq] at hent
  rw [hent] at he' hno'
  refine honly l hl ?_ hno'
  rw [h.ordinary_iff hok hi hl hblock]
  refine ⟨ho, ?_⟩
  cases hok.child i hi l hl ho _ he' with
  | inl hb =>
    exfalso
    rw [hb] at hno'
    rw [← hno] at hno'
    exact hord.2.nonzero hno'.symm
  | inr hc => exact hc

theorem TreeInv.erased (h : TreeInv part strict pend a T) (hd : T.node d = some p)
    (hok : T.DirOk pend a d p)
    (hm : ∃ i < 140, ∃ k < 21, OtherSlot i k ∧ ∃ e, a.dirent p i k = some e ∧ T.ChildEntry pend d e
      ∧ e.iNo = m)
    {b : Bool} (hdel : a.Deleted part p m a' (b, p'))
    : b = true ∧ ∃ i k e, a.DeletedAt T pend d p m i k e ∧ a.Erased p i k a' p' := by
  have how := h.owns hd
  cases hdel with
  | absent hnone =>
    exfalso
    obtain ⟨i, hi, k, hk, ho, e, he, hc, hno⟩ := hm
    have hblock : a.block p i ≠ 0 := by
      intro h0
      unfold Image.dirent at he
      rw [Image.ref_of_lt hi, if_pos h0] at he
      contradiction
    rw [Image.dirent_of_ne_zero hi hblock, Option.some.injEq] at he
    apply hnone i hi hblock k hk
    . rw [h.ordinary_iff hok hi hk hblock, he]
      exact ⟨ho, hc⟩
    . rw [he, hno]
  | slot hi hblock hk hord hno honly hsize =>
    rename_i i k
    refine ⟨rfl, i, k, _, h.deletedAt hok hi hblock hk hord hno honly, ?_⟩
    have hent : ∀ j < 140, ∀ l < 21, ¬ (j = i ∧ l = k) →
        (a.setSec (a.block p i).toNat ((a.blockSec p i).blit (k * 24) 24 Mem.zero)).dirent p j l
          =
        a.dirent p j l := by
      intro j hj l hl hne
      rw [how.dirent_clear hi hblock hj hl, if_neg hne]
    constructor
    . right
      exact (how.dirent_clear hi hblock hi hk).trans (if_pos ⟨rfl, rfl⟩)
    . intro j hj
      left
      intro l hl hne
      exact hent j hj l hl hne
    . intro _ l hl hne
      exact hent 0 (by omega) l hl (fun h => hne h.2)
    . exact Inode.toNat_shrink hsize
  | block hi hblock hk hord hno hsingle hnoDot hsize =>
    rename_i i k
    have hblock' : a.block p i ≠ 0 := by
      rw [Image.block_of_lt hi]
      exact hblock
    refine ⟨rfl, i, k, _, h.deletedAt hok (by omega) hblock' hk hord hno (fun l hl ho _ =>
      hsingle l hl ho), ?_⟩
    have hent : ∀ j l, a.dirent (p.setSector i 0) j l = if j = i then none else a.dirent p j l :=
      fun j l => Image.dirent_setSector_zero hi
    constructor
    . left
      exact (hent i k).trans (if_pos rfl)
    . intro j hj
      by_cases hji : j = i
      . right
        exact ⟨hji, fun l _ => (hent j l).trans (if_pos hji), hsingle⟩
      . left
        intro l _ _
        exact (hent j l).trans (if_neg hji)
    . intro hi0
      exfalso
      -- the block with the entry `.` is kept
      apply hnoDot 0 (by omega)
      have hdot : a.dirent p i 0 = some (a.entry p i 0) := a.dirent_of_ne_zero (by omega) hblock'
      rw [hi0, hok.dot, Option.some.injEq] at hdot
      rw [hi0]
      have hat : DirEntry.at (a.blockSec p 0) 0 = DirEntry.new [46] (UInt32.ofNat d) .directory :=
        hdot.symm
      constructor
      . rw [hat, DirEntry.new_fType]
        decide
      . rw [DirEntry.nameEq_iff (by decide) (by rw [hat, DirEntry.new_fType]; decide), hat,
          DirEntry.new_hasName_iff (by decide) (by decide) (by decide)]
    . exact @Inode.toNat_shrink (p.setSector i 0) hsize

theorem Image.DeletedAt.entries_eq (h : a.DeletedAt T none d p m i k e)
    (hT : TreeInv part strict none a T) (hok : T.DirOk none a d p) : T.entries m.toNat = 1 := by
  have hno := h.number
  obtain ⟨ino, hino⟩ := Option.isSome_iff_exists.mp h.child.node
  have hent := hT.entries _ ino hino
  have hpos := hent.2 (fun h0 => h.child.nonzero (UInt32.toNat_inj.mp h0)) (by simp)
  have h2 : T.entries e.iNo.toNat ≠ 2 := by
    intro h2
    obtain ⟨l, hl, hlk, ho, e', he', heq⟩ :=
      hok.twice i h.block k h.slot h.other e h.entry h.child.nonzero h2
    exact hlk (h.only l hl ho e' he' (heq.trans hno))
  rw [hno] at hent hpos h2
  omega

/-- An entry of a child after the deletion was there before, in a block that was kept. -/
theorem Image.Erased.cases (h : a.Erased p i k a' p') (hok : T.DirOk none a d p)
    (hat : a.DeletedAt T none d p m i k e) {j l : Nat} (hj : j < 140) (hl : l < 21)
    (ho : OtherSlot j l) {e' : DirEntry} (he' : a'.dirent p' j l = some e')
    : e' = DirEntry.blank
      ∨ a.dirent p j l = some e' ∧ T.ChildEntry none d e' ∧ e'.iNo ≠ m
        ∧ ∀ l' < 21, ¬ (j = i ∧ l' = k) → a'.dirent p' j l' = a.dirent p j l' := by
  by_cases hin : j = i ∧ l = k
  . left
    rw [hin.1, hin.2] at he'
    cases h.here with
    | inl hnone =>
      rw [hnone] at he'
      contradiction
    | inr hblank =>
      rw [hblank, Option.some.injEq] at he'
      exact he'.symm
  . cases h.other j hj with
    | inl hsame =>
      have hold := he'
      rw [hsame l hl hin] at hold
      cases hok.child j hj l hl ho e' hold with
      | inl hb => exact .inl hb
      | inr hc =>
        refine .inr ⟨hold, hc, ?_, hsame⟩
        intro heq
        have hji :=
          hok.once j hj l hl i hat.block k hat.slot ho hat.other e' e hold hat.entry hc.nonzero
            (heq.trans hat.number.symm)
        rw [hji] at hold ho
        exact hin ⟨hji, hat.only l hl ho e' hold heq⟩
    | inr hgone =>
      rw [hgone.2.1 l hl] at he'
      contradiction

theorem Image.Erased.dots (h : a.Erased p i k a' p') (ho : OtherSlot i k) {l : Nat} (hl : l < 2)
    : a'.dirent p' 0 l = a.dirent p 0 l := by
  by_cases hi0 : i = 0
  . apply h.first hi0 l (by omega)
    rintro rfl
    exact ho ⟨hi0, hl⟩
  . cases h.other 0 (by omega) with
    | inl hsame => exact hsame l (by omega) (fun h => hi0 h.1.symm)
    | inr hgone => exact absurd hgone.1.symm hi0

theorem Image.Erased.dirOk (h : a.Erased p i k a' p') (hT : TreeInv part strict none a T)
    (hd : T.node d = some p) (hok : T.DirOk none a d p) (hat : a.DeletedAt T none d p m i k e)
    (hlive : a'.BlocksLive p') : (T.change d p' m.toNat 0).DirOk (some m.toNat) a' d p' := by
  have hne : ∀ e' : DirEntry, e'.iNo ≠ m → e'.iNo.toNat ≠ m.toNat :=
    fun e' hne heq => hne (UInt32.toNat_inj.mp heq)
  constructor
  . rw [h.dots hat.other (by omega), hok.dot]
  . rw [h.dots hat.other (by omega), hok.dotdot]
    rfl
  . intro j hj l hl ho e' he'
    obtain hb | ⟨-, hc, hno, -⟩ := h.cases hok hat hj hl ho he'
    . exact .inl hb
    . right
      apply hc.change hd
      intro heq
      rw [Option.some.injEq] at heq
      exact hne e' hno heq.symm
  . intro j hj l hl j' hj' l' hl' ho ho' e1 e2 he1 he2 hnz heq
    obtain rfl | ⟨hold, -, -, -⟩ := h.cases hok hat hj hl ho he1
    . exact absurd rfl hnz
    . obtain rfl | ⟨hold', -, -, -⟩ := h.cases hok hat hj' hl' ho' he2
      . exact absurd heq hnz
      . exact hok.once j hj l hl j' hj' l' hl' ho ho' e1 e2 hold hold' hnz heq
  . intro j hj l hl ho e1 he1 hnz h2
    obtain rfl | ⟨hold, hc, hno, hsame⟩ := h.cases hok hat hj hl ho he1
    . exact absurd rfl hnz
    . rw [T.change_entries_of_ne (hne e1 hno)] at h2
      obtain ⟨l', hl', hne', ho', e2, he2, heq⟩ := hok.twice j hj l hl ho e1 hold hnz h2
      refine ⟨l', hl', hne', ho', e2, ?_, heq⟩
      rw [hsame l' hl' ?_]
      . exact he2
      . rintro ⟨rfl, rfl⟩
        rw [hat.entry, Option.some.injEq] at he2
        rw [← he2, hat.number] at heq
        exact hno heq.symm
  . have hsize : (T.change d p' m.toNat 0).size d + T.entries m.toNat = T.size d + 0 :=
      hT.change_size hd (by rw [← hat.number]; exact hat.child.node)
      (fun h0 => hat.child.nonzero (by rw [hat.number]; exact UInt32.toNat_inj.mp h0))
      (by rw [← hat.number]; exact hat.child.parent)
    rw [hat.entries_eq hT hok] at hsize
    have := h.size
    have := hok.size
    omega
  . exact hlive

theorem Tree.refs_freeBlock (hd : T.node d = some p) (hi : i < 12) (b lba : Nat) (ino : Inode)
    (q : Nat × Nat)
    : (T.change d (p.setSector i 0).shrink m.toNat 0).refs
        ((a.setBlockUsed b false).setSlot lba ino) q
        =
      if q = (d, i) then 0 else T.refs a q := by
  by_cases hq : q.1 = d
  . have h1 : T.refs a q = a.refs p q.2 := by
      rw [← T.refs_of_node hd, ← hq]
    have h2 : (T.change d (p.setSector i 0).shrink m.toNat 0).refs
        ((a.setBlockUsed b false).setSlot lba ino) q
        = a.refs (p.setSector i 0) q.2 := by
      rw [← hq]
      exact Tree.refs_of_node Tree.change_node_self
    rw [h1, h2]
    unfold Image.refs
    rw [Image.ref_setSector_zero hi]
    by_cases hqi : q.2 = i
    . rw [if_pos hqi, if_pos (Prod.ext hq hqi), if_pos (by omega)]
    . rw [if_neg hqi, if_neg (fun h => hqi (congrArg Prod.snd h))]
  . rw [if_neg (fun h => hq (congrArg Prod.fst h))]
    unfold Tree.refs
    rw [T.change_node_of_ne hq]
    rfl

theorem TreeInv.blocks_delete (h : TreeInv part strict pend a T) (hd : T.node d = some p)
    (hdel : a.Deleted part p m a' (true, p'))
    : T.Frame d a a' ∧ a'.TailUsed part
      ∧ Ownership part part.bitLen a'.blockUsed ((T.change d p' m.toNat 0).refs a')
      ∧ (strict = true → NoLeak part a'.blockUsed ((T.change d p' m.toNat 0).refs a')) := by
  have how := h.owns hd
  cases hdel with
  | slot hi hblock =>
    rename_i i k _ _ _ _ _
    let a1 := a.setSec (a.block p i).toNat ((a.blockSec p i).blit (k * 24) 24 Mem.zero)
    have href : a.ref p i ≠ 0 := by
      rw [Image.ref_of_lt hi]
      exact hblock
    have hrefs : a1.refs p.shrink = a.refs p := by
      funext j
      have := how.ref_setSec hi href (j := j) (m := (a.blockSec p i).blit (k * 24) 24 Mem.zero)
      rw [Image.ref_of_lt hi] at this
      exact congrArg (fun x => if j < 141 then x else 0) this
    have hext : Extends part part.bitLen a a1 (a.refs p) (a1.refs p.shrink) := by
      have := Extends.write (Image.owns_iff.mp how) (j := i)
        (m := (a.blockSec p i).blit (k * 24) 24 Mem.zero)
          (by rw [Image.refs_of_lt (by omega)]; exact href)
      rw [Image.refs_of_lt (by omega), Image.ref_of_lt hi] at this
      rw [hrefs]
      exact this
    have hold : a.refs p = fun j => T.refs a (d, j) := funext fun j => (T.refs_of_node hd).symm
    have hkeeps : Keeps (a.refs p) (a1.refs p.shrink) := by
      rw [hrefs]
      exact Keeps.refl
    rw [hold] at hext hkeeps
    have hnode : (T.change d p.shrink m.toNat 0).node = Function.update T.node d (some p.shrink) :=
      rfl
    have hframe := h.frame hext
    have htail := hext.tailUsed h.tail
    have hown := h.own_extend hext hnode
    have hleak := fun hs => h.noLeak_extend hs hext hkeeps hnode
    exact ⟨hframe, htail, hown, hleak⟩
  | block hi hblock =>
    rename_i i k _ _ _ _ _ _
    have hrefs := Tree.refs_freeBlock (a := a) (m := m) hd hi (part.blockIdx (p.sector i))
      (p.iNo.toNat % 256)
      (p.setSector i 0).shrink.pure
    have hlba : T.refs a (d, i) = p.sector i := by
      rw [T.refs_of_node hd, Image.refs_of_lt (by omega), Image.ref_direct hi]
    have hlba0 : T.refs a (d, i) ≠ 0 := by
      rw [hlba]
      exact hblock
    have hidx := part.blockIdx_lt (h.own.inArea _ hlba0)
    have hused : ∀ c,
        ((a.setBlockUsed (part.blockIdx (p.sector i)) false).setSlot (p.iNo.toNat % 256)
        (p.setSector i 0).shrink.pure).blockUsed c = if c = part.blockIdx (p.sector i) then false
          else a.blockUsed c :=
      fun c => Image.blockUsed_setBlockUsed
    rw [hlba] at hidx
    refine ⟨fun _ _ _ _ => rfl, ?_, ?_, ?_⟩
    . intro c hc hc'
      rw [hused, if_neg (by omega)]
      exact h.tail c hc hc'
    . apply h.own.drop
      . intro q hq
        rw [hrefs] at hq ⊢
        split at hq
        . contradiction
        . next hne => rw [if_neg hne]
      . intro q hq
        rw [hrefs] at hq ⊢
        split at hq
        . contradiction
        . next hne =>
          rw [if_neg hne, hused, if_neg]
          . exact h.own.used q hq
          . rw [← hlba]
            exact h.own.blockIdx_ne hq hlba0 hne
    . intro hs c hc hcu
      rw [hused] at hcu
      split at hcu
      . contradiction
      . next hne =>
        obtain ⟨q, hq⟩ := h.noLeak hs c hc hcu
        refine ⟨q, ?_⟩
        rw [hrefs, if_neg]
        . exact hq
        . rintro rfl
          apply hne
          rw [← hlba, hq, Partition.blockIdx_blockLba]
          have := part.bitLen_le
          omega

theorem TreeInv.delete (h : TreeInv part strict none a T) (hd : T.node d = some p)
    (hty : T.type d = .directory)
    (hm : ∃ i < 140, ∃ k < 21, OtherSlot i k ∧ ∃ e, a.dirent p i k = some e ∧ T.ChildEntry none d e
      ∧ e.iNo = m)
    {b : Bool} (hdel : a.Deleted part p m a' (b, p')) (hlive : a'.BlocksLive p')
    : b = true ∧ TreeInv part strict (some m.toNat) a' (T.change d p' m.toNat 0) := by
  have hok := h.dir d p hd hty
  obtain ⟨hb, i, k, e, hat, her⟩ := h.erased hd hok hm hdel
  refine ⟨hb, ?_⟩
  rw [hb] at hdel
  obtain ⟨hframe, htail, hown, hleak⟩ := h.blocks_delete hd hdel
  apply h.change hd hframe htail hown hleak hdel.iNo
  . refine .inl ⟨?_, fun hne => absurd rfl hne, by omega, ?_, fun x _ => by simp⟩
    . rw [← hat.number]
      exact hat.child.parent
    . intro x hx heq
      rw [Option.some.injEq] at heq
      exact hx heq.symm
  . intro hreg
    rw [hty] at hreg
    contradiction
  . intro _
    exact her.dirOk h hd hok hat hlive
  . intro hs x hx hx0 hxm hxd
    obtain ⟨y, hy⟩ := Option.isSome_iff_exists.mp hx
    have hlt := (h.lt x y hy).1
    have hold := h.linked hs x p hx hx0 (by simp) (by rw [hxd]; exact hd)
    apply hold.mono
    intro j hj l hl ho e' he' hno
    have hne : e'.iNo ≠ m := by
      rintro rfl
      apply hxm
      rw [hno, UInt32.toNat_ofNat_of_lt' (by rw [UInt32.size]; omega)]
    cases her.other j hj with
    | inl hsame =>
      rw [hsame l hl]
      . exact he'
      . rintro ⟨rfl, rfl⟩
        rw [hat.entry, Option.some.injEq] at he'
        rw [← he'] at hne
        exact hne hat.number
    | inr hgone =>
      exfalso
      obtain ⟨rfl, -, honly⟩ := hgone
      have hblock : a.block p j ≠ 0 := by
        intro h0
        unfold Image.dirent at he'
        rw [Image.ref_of_lt hj, if_pos h0] at he'
        contradiction
      have hent : a.dirent p _ l = some (a.entry p _ l) := a.dirent_of_ne_zero hj hblock
      rw [he', Option.some.injEq] at hent
      have hchild : T.ChildEntry none d e' := by
        cases hok.child j hj l hl ho e' he' with
        | inl hb =>
          exfalso
          apply hx0
          have hnat : (UInt32.ofNat x).toNat = x :=
            UInt32.toNat_ofNat_of_lt' (by rw [UInt32.size]; omega)
          rw [← hnat, ← hno, hb]
          rfl
        | inr hc => exact hc
      rw [hent] at hchild
      have hlk := honly l hl ((h.ordinary_iff hok hj hl hblock).mpr ⟨ho, hchild⟩)
      rw [hlk, hat.entry, Option.some.injEq] at he'
      rw [← he'] at hne
      exact hne hat.number

theorem exists_live_of_not_alone {buf : Mem} (hk : Ordinary buf k) (h : ¬ Alone buf k)
    : ∃ l < 21, l ≠ k ∧ (DirEntry.at buf l).fType ≠ 0 := by
  unfold Alone at h
  push Not at h
  by_cases hall : ∀ l < 21, Ordinary buf l → l = k
  . obtain ⟨l, hl, hdot⟩ := h hall
    refine ⟨l, hl, ?_, hdot.1⟩
    rintro rfl
    exact hk.not_isDot hdot
  . push Not at hall
    obtain ⟨l, hl, hord, hne⟩ := hall
    exact ⟨l, hl, hne, hord.1⟩

theorem Image.DeletedAt.held (h : a.DeletedAt T pend d p m i k e)
    (hT : TreeInv part strict pend a T)
    (hok : T.DirOk pend a d p) : a.Held p m i k ∧ a.HeldOnce p m := by
  have hblock : a.block p i ≠ 0 := by
    intro h0
    have he := h.entry
    unfold Image.dirent at he
    rw [Image.ref_of_lt h.block, if_pos h0] at he
    contradiction
  have hentry : a.entry p i k = e := by
    have he := h.entry
    rw [Image.dirent_of_ne_zero h.block hblock, Option.some.injEq] at he
    exact he
  have honly : ∀ j l, a.Held p m j l → j = i ∧ l = k := by
    intro j l hheld
    have hent : a.dirent p j l = some (a.entry p j l) :=
      a.dirent_of_ne_zero hheld.block hheld.present
    have hno : (a.entry p j l).iNo = m := hheld.holds.2
    obtain ⟨ho, hc⟩ := (hT.ordinary_iff hok hheld.block hheld.slot hheld.present).mp hheld.holds.1
    have hji :=
      hok.once j hheld.block l hheld.slot i h.block k h.slot ho h.other _ e hent h.entry hc.nonzero
      (hno.trans h.number.symm)
    rw [hji] at hent ho hno
    exact ⟨hji, h.only l hheld.slot ho _ hent hno⟩
  constructor
  . refine ⟨h.block, h.slot, hblock, ?_, ?_⟩
    . rw [hT.ordinary_iff hok h.block h.slot hblock, hentry]
      exact ⟨h.other, h.child⟩
    . exact (congrArg DirEntry.iNo hentry).trans h.number
  . intro i₁ j₁ k₁ l₁ h₁ h₂
    obtain ⟨hi₁, hk₁⟩ := honly i₁ k₁ h₁
    obtain ⟨hj₁, hl₁⟩ := honly j₁ l₁ h₂
    exact ⟨hi₁.trans hj₁.symm, hk₁.trans hl₁.symm⟩

end Delete

end RogOS
