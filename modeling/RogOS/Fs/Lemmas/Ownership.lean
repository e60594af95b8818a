import RogOS.Fs.Lemmas.Insert

/-!
References to blocks, from places of any kind: every reference is to a block in use, and no block is
referred to from two places. Allocating a block for a new reference and dropping references keep
this.
-/

namespace RogOS

variable {ι : Type} {part : Partition} {lim : Nat} {used used' : Nat → Bool} {r r' : ι → UInt32}
  {b : Nat}

structure Ownership (part : Partition) (lim : Nat) (used : Nat → Bool) (r : ι → UInt32) : Prop where
  le : lim ≤ 163840
  inArea : ∀ p, r p ≠ 0 → part.InArea lim (r p)
  used : ∀ p, r p ≠ 0 → used (part.blockIdx (r p)) = true
  inj : ∀ p q, r p ≠ 0 → r p = r q → p = q

def NoLeak (part : Partition) (used : Nat → Bool) (r : ι → UInt32) : Prop :=
  ∀ b < part.bitLen, used b = true → ∃ p, r p = part.blockLba b

namespace Ownership

theorem ne_free (h : Ownership part lim used r) (hb : b < lim) (hfree : used b = false) (p : ι)
    : r p ≠ part.blockLba b := by
  intro heq
  have hle := h.le
  have hne := (part.isData_blockLba (show b < 163840 by omega)).ne_zero
  rw [← heq] at hne
  have hu := h.used p hne
  rw [heq, Partition.blockIdx_blockLba (by omega), hfree] at hu
  contradiction

theorem alloc (h : Ownership part lim used r) (hb : b < lim) (hfree : used b = false) (p₀ : ι)
    (h₀ : r' p₀ = part.blockLba b) (hr : ∀ p, p ≠ p₀ → r' p = r p)
    : Ownership part lim (Function.update used b true) r' := by
  have hle := h.le
  constructor
  . exact hle
  . intro p hp
    by_cases heq : p = p₀
    . rw [heq, h₀]
      exact part.inArea_blockLba hb hle
    . rw [hr p heq] at hp ⊢
      exact h.inArea p hp
  . intro p hp
    by_cases heq : p = p₀
    . rw [heq, h₀, Partition.blockIdx_blockLba (by omega), Function.update_self]
    . rw [hr p heq] at hp ⊢
      rw [Function.update_apply]
      split
      . rfl
      . exact h.used p hp
  . intro p q hp hpq
    by_cases hp₀ : p = p₀
    . by_cases hq₀ : q = p₀
      . rw [hp₀, hq₀]
      . rw [hp₀, h₀, hr q hq₀] at hpq
        exact absurd hpq.symm (h.ne_free hb hfree q)
    . by_cases hq₀ : q = p₀
      . rw [hq₀, h₀, hr p hp₀] at hpq
        exact absurd hpq (h.ne_free hb hfree p)
      . rw [hr p hp₀] at hp
        rw [hr p hp₀, hr q hq₀] at hpq
        exact h.inj p q hp hpq

theorem drop (h : Ownership part lim used r) (hr : ∀ p, r' p ≠ 0 → r' p = r p)
    (hu : ∀ p, r' p ≠ 0 → used' (part.blockIdx (r' p)) = true) : Ownership part lim used' r' := by
  constructor
  . exact h.le
  . intro p hp
    rw [hr p hp]
    apply h.inArea
    rw [← hr p hp]
    exact hp
  . exact hu
  . intro p q hp hpq
    have hq : r' q ≠ 0 := by
      rw [← hpq]
      exact hp
    rw [hr p hp, hr q hq] at hpq
    apply h.inj p q _ hpq
    rw [← hr p hp]
    exact hp

theorem blockIdx_ne (h : Ownership part lim used r) {p q : ι} (hp : r p ≠ 0) (hq : r q ≠ 0)
    (hpq : p ≠ q)
    : part.blockIdx (r p) ≠ part.blockIdx (r q) := by
  intro heq
  apply hpq
  apply h.inj p q hp
  rw [← part.blockLba_blockIdx (h.inArea p hp).isData, heq,
    part.blockLba_blockIdx (h.inArea q hq).isData]

end Ownership

namespace Image

variable {a : Image} {ino : Inode}

def refs (a : Image) (ino : Inode) (j : Nat) : UInt32 := if j < 141 then a.ref ino j else 0

theorem refs_of_lt {j : Nat} (h : j < 141) : a.refs ino j = a.ref ino j := by
  simp [refs, h]

theorem refs_inodeInit {no : UInt32} {k j : Nat}
    : a.refs { inodeInit no with iOpenCnts := k } j = 0 := by
  have hsec : ∀ i, Inode.sector { inodeInit no with iOpenCnts := k } i = 0 := fun i =>
    @inodeInit_sector no i
  unfold refs ref block
  simp only [hsec]
  grind

theorem owns_iff : a.Owns part ino ↔ Ownership part part.bitLen a.blockUsed (a.refs ino) := by
  constructor
  . intro h
    constructor
    . exact part.bitLen_le
    . intro p hp
      unfold refs at hp ⊢
      split at hp
      . next hlt =>
        rw [if_pos hlt]
        exact h.isBlock p hlt hp
      . contradiction
    . intro p hp
      unfold refs at hp ⊢
      split at hp
      . next hlt =>
        rw [if_pos hlt]
        exact h.used p hlt hp
      . contradiction
    . intro p q hp hpq
      unfold refs at hp hpq
      split at hp
      . next hlt =>
        rw [if_pos hlt] at hpq
        split at hpq
        . next hlt' => exact h.inj p hlt q hlt' hp hpq
        . contradiction
      . contradiction
  . intro h
    constructor
    . intro j hj h0
      rw [← refs_of_lt hj] at h0 ⊢
      exact h.inArea j h0
    . intro j hj h0
      rw [← refs_of_lt hj] at h0 ⊢
      exact h.used j h0
    . intro i hi j hj h0 heq
      rw [← refs_of_lt hi] at h0 heq
      rw [← refs_of_lt hj] at heq
      exact h.inj i j h0 heq

theorem refs_table : a.refs ino 140 = ino.sector 12 := rfl

def FreeBelow (part : Partition) (lim : Nat) (a : Image) : Prop :=
  ∀ b, b < 4096 * part.sb.blockBitmapSects.toNat → a.blockUsed b = false → b < lim

theorem freeBelow_max : a.FreeBelow part 163840 := by
  intro b hb _
  have := part.sects_le
  omega

theorem TailUsed.freeBelow (h : a.TailUsed part) : a.FreeBelow part part.bitLen := by
  intro b hb hfree
  by_contra hge
  rw [h b (by omega) hb] at hfree
  contradiction

end Image

structure Extends (part : Partition) (lim : Nat) (a a' : Image) (r r' : Nat → UInt32) : Prop where
  own : Ownership part lim a'.blockUsed r'
  old : ∀ j, r' j ≠ 0 → r' j = r j ∨ a.blockUsed (part.blockIdx (r' j)) = false
  used : ∀ b, a.blockUsed b = true → a'.blockUsed b = true
  new : ∀ b, a'.blockUsed b = true → a.blockUsed b = true ∨ ∃ j, r' j ≠ 0 ∧ r' j = part.blockLba b
  sec : ∀ lba, (∀ j, r' j ≠ 0 → (r' j).toNat ≠ lba) → a'.sec lba = a.sec lba
  slot : a'.slot = a.slot
  inodeUsed : a'.inodeUsed = a.inodeUsed

def Keeps (r r' : Nat → UInt32) : Prop := ∀ j, r j ≠ 0 → r' j = r j

namespace Extends

variable {a a' a'' : Image} {r r' r'' : Nat → UInt32}

theorem refl (h : Ownership part lim a.blockUsed r) : Extends part lim a a r r where
  own := h
  old _ _ := .inl rfl
  used _ hb := hb
  new _ hb := .inl hb
  sec _ _ := rfl
  slot := rfl
  inodeUsed := rfl

theorem trans (h1 : Extends part lim a a' r r') (h2 : Extends part lim a' a'' r' r'')
    (hk : Keeps r' r'') : Extends part lim a a'' r r'' where
  own := h2.own
  old j hj := by
    have hfree : ∀ b, a'.blockUsed b = false → a.blockUsed b = false := by
      intro b hb
      by_contra hu
      rw [h1.used b (by simpa using hu)] at hb
      contradiction
    cases h2.old j hj with
    | inl h =>
      rw [h] at hj ⊢
      exact h1.old j hj
    | inr h => exact .inr (hfree _ h)
  used b hb := h2.used b (h1.used b hb)
  new b hb := by
    cases h2.new b hb with
    | inl h =>
      cases h1.new b h with
      | inl h => exact .inl h
      | inr h =>
        right
        obtain ⟨j, h0, hj⟩ := h
        refine ⟨j, ?_, ?_⟩
        . rw [hk j h0]
          exact h0
        . rw [hk j h0, hj]
    | inr h => exact .inr h
  sec lba hlba := by
    rw [h2.sec lba hlba]
    apply h1.sec
    intro j hj
    rw [← hk j hj]
    apply hlba
    rw [hk j hj]
    exact hj
  slot := by rw [h2.slot, h1.slot]
  inodeUsed := by rw [h2.inodeUsed, h1.inodeUsed]

theorem alloc (h : Ownership part lim a.blockUsed r) (hb : a.FreeBlock part b) (hlim : b < lim)
    (p₀ : Nat) (h₀ : r' p₀ = part.blockLba b) (hr : ∀ p, p ≠ p₀ → r' p = r p)
    : Extends part lim a (a.setBlockUsed b true) r r' where
  own := h.alloc hlim hb.clear p₀ h₀ hr
  old j _ := by
    by_cases hj : j = p₀
    . right
      rw [hj, h₀, Partition.blockIdx_blockLba hb.lt_max]
      exact hb.clear
    . exact .inl (hr j hj)
  used c hc := by
    rw [Image.blockUsed_setBlockUsed]
    split
    . rfl
    . exact hc
  new c hc := by
    rw [Image.blockUsed_setBlockUsed] at hc
    split at hc
    . next heq =>
      right
      refine ⟨p₀, ?_, ?_⟩
      . rw [h₀]
        exact (part.isData_blockLba hb.lt_max).ne_zero
      . rw [h₀, heq]
    . exact .inl hc
  sec _ _ := rfl
  slot := rfl
  inodeUsed := rfl

theorem drop (h : Ownership part lim a.blockUsed r) (hr : ∀ p, r' p ≠ 0 → r' p = r p)
    : Extends part lim a a r r' where
  own := by
    apply h.drop hr
    intro p hp
    have heq := hr p hp
    rw [heq] at hp ⊢
    exact h.used p hp
  old j hj := .inl (hr j hj)
  used _ hb := hb
  new _ hb := .inl hb
  sec _ _ := rfl
  slot := rfl
  inodeUsed := rfl

theorem write (h : Ownership part lim a.blockUsed r) {j : Nat} (hj : r j ≠ 0) {m : Mem}
    : Extends part lim a (a.setSec (r j).toNat m) r r where
  own := h
  old _ _ := .inl rfl
  used _ hb := hb
  new _ hb := .inl hb
  sec _ hlba := Image.sec_setSec_of_ne (Ne.symm (hlba j hj))
  slot := rfl
  inodeUsed := rfl

end Extends

namespace Keeps

variable {r r' r'' : Nat → UInt32}

theorem refl : Keeps r r := fun _ _ => rfl

theorem trans (h1 : Keeps r r') (h2 : Keeps r' r'') : Keeps r r'' := by
  intro j hj
  have h := h1 j hj
  rw [h2 j (by rw [h]; exact hj), h]

theorem of_zero (p₀ : Nat) (h₀ : r p₀ = 0) (hr : ∀ p, p ≠ p₀ → r' p = r p) : Keeps r r' := by
  intro j hj
  apply hr
  rintro rfl
  exact hj h₀

end Keeps

section Insert

variable {a a' : Image} {ino ino' : Inode} {e : DirEntry}

namespace Image

theorem Inserted.tailUsed (h : a.Inserted part ino e a' ino') (ht : a.TailUsed part)
    : a'.TailUsed part := by
  cases h with
  | slot => exact ht
  | block => exact ht.setBlockUsed
  | table => exact ht.setBlockUsed.setBlockUsed

section Refs

variable {i b c k : Nat}

theorem Owns.refs_slot (how : a.Owns part ino) (hi : i < 12) (hblock : ino.sector i ≠ 0) {m : Mem}
    : (a.setSec (ino.sector i).toNat m).refs (ino.grow 24) = a.refs ino := by
  rw [← a.ref_direct hi] at hblock ⊢
  funext j
  unfold refs
  split
  . exact how.ref_setSec (by omega) hblock
  . rfl

theorem Owns.refs_block (how : a.Owns part ino) (hb : a.FreeBlock part b) (hi : i < 12)
    : ((a.setBlockUsed b true).setSec (part.blockLba b).toNat (doubleSector e)).refs
        (((ino.setSector i (part.blockLba b)).grow 24).grow 24)
        =
      fun j => if j = i then part.blockLba b else a.refs ino j := by
  funext j
  unfold refs
  by_cases hj : j < 141
  . rw [if_pos hj, how.ref_block hb hi hj, if_pos hj]
  . rw [if_neg hj, if_neg (by omega), if_neg hj]

theorem refs_table_new (hb : a.FreeBlock part b) (hc : (a.setBlockUsed b true).FreeBlock part c)
    : ((((a.setBlockUsed b true).setBlockUsed c true).setSec (part.blockLba b).toNat
        (singleTable (part.blockLba c))).setSec (part.blockLba c).toNat (doubleSector e)).refs
          (((ino.setSector 12 (part.blockLba b)).grow 24).grow 24)
        =
      fun j => if j = 12 then part.blockLba c else if j = 140 then part.blockLba b
        else if j < 12 then a.refs ino j else 0 := by
  funext j
  unfold refs
  by_cases hj : j < 141
  . rw [if_pos hj, ref_table_new hb hc hj]
    by_cases h12 : j = 12
    . rw [if_pos h12, if_pos h12, if_neg (by omega)]
    . rw [if_neg h12, if_neg h12]
      split
      . rfl
      . split
        . next hlt => rw [ref_direct hlt]
        . rfl
  . rw [if_neg hj, if_neg (by omega), if_neg (by omega), if_neg (by omega)]

end Refs

theorem Inserted.extends (h : a.Inserted part ino e a' ino') (how : a.Owns part ino)
    (ht : a.TailUsed part)
    : Extends part part.bitLen a a' (a.refs ino) (a'.refs ino') := by
  have hown := owns_iff.mp how
  cases h with
  | slot i k hi hfull hblock hk =>
    have href : a.refs ino i = ino.sector i := by rw [refs_of_lt (by omega), ref_direct hi]
    rw [how.refs_slot hi hblock]
    have hw := Extends.write hown (j := i) (by rw [href]; exact hblock)
      (m := (a.sec (ino.sector i).toNat).blit (k * 24) 24 e.encode)
    rw [href] at hw
    exact hw
  | block i b hi hfull hblock hb =>
    have href : a.refs ino i = 0 := by rw [refs_of_lt (by omega), ref_direct hi, hblock]
    rw [how.refs_block hb hi]
    have h1 : Extends part part.bitLen a (a.setBlockUsed b true) (a.refs ino)
        (fun j => if j = i then part.blockLba b else a.refs ino j) :=
      Extends.alloc hown hb (hb.lt_bitLen ht) i (if_pos rfl) (fun j hj => if_neg hj)
    have h2 := Extends.write h1.own (j := i) (m := doubleSector e)
      (by rw [if_pos rfl]; exact (part.isData_blockLba hb.lt_max).ne_zero)
    rw [if_pos rfl] at h2
    exact h1.trans h2 Keeps.refl
  | table b c hfull hb hc =>
    rw [refs_table_new hb hc]
    -- the old table is given up; then the new one is allocated, and then its first block
    let r0 : Nat → UInt32 := fun j => if j < 12 then a.refs ino j else 0
    let r1 : Nat → UInt32 := fun j => if j = 140 then part.blockLba b else r0 j
    let r2 : Nat → UInt32 := fun j => if j = 12 then part.blockLba c else r1 j
    have hr1 : ∀ j, j ≠ 140 → r1 j = r0 j := fun j hj => if_neg hj
    have hr2 : ∀ j, j ≠ 12 → r2 j = r1 j := fun j hj => if_neg hj
    have h0 : Extends part part.bitLen a a (a.refs ino) r0 := by
      apply Extends.drop hown
      intro j hj
      by_cases hlt : j < 12
      . exact if_pos hlt
      . exact absurd (if_neg hlt) hj
    have h1 : Extends part part.bitLen a (a.setBlockUsed b true) r0 r1 :=
      Extends.alloc h0.own hb (hb.lt_bitLen ht) 140 rfl hr1
    have h2 : Extends part part.bitLen (a.setBlockUsed b true)
        ((a.setBlockUsed b true).setBlockUsed c true)
        r1 r2 :=
      Extends.alloc h1.own hc (hc.lt_bitLen ht.setBlockUsed) 12 rfl hr2
    have h3 := Extends.write h2.own (j := 140) (m := singleTable (part.blockLba c))
      (part.isData_blockLba hb.lt_max).ne_zero
    have h4 := Extends.write h3.own (j := 12) (m := doubleSector e)
      (part.isData_blockLba hc.lt_max).ne_zero
    have hk1 : Keeps r0 r1 := Keeps.of_zero 140 rfl hr1
    have hk2 : Keeps r1 r2 := Keeps.of_zero 12 rfl hr2
    exact (((h0.trans h1 hk1).trans h2 hk2).trans h3 Keeps.refl).trans h4 Keeps.refl

theorem Inserted.owns (h : a.Inserted part ino e a' ino') (how : a.Owns part ino)
    (ht : a.TailUsed part)
    : a'.Owns part ino' :=
  owns_iff.mpr (h.extends how ht).own

theorem Inserted.keeps (h : a.Inserted part ino e a' ino') (how : a.Owns part ino)
    (htab : ¬ (a.FullBelow ino 12 ∧ ino.sector 12 ≠ 0)) : Keeps (a.refs ino) (a'.refs ino') := by
  cases h with
  | slot i k hi hfull hblock hk =>
    rw [how.refs_slot hi hblock]
    exact Keeps.refl
  | block i b hi hfull hblock hb =>
    rw [how.refs_block hb hi]
    apply Keeps.of_zero i
    . rw [refs_of_lt (by omega), ref_direct hi, hblock]
    . exact fun j hj => if_neg hj
  | table b c hfull hb hc =>
    have h12 : ino.sector 12 = 0 := by
      by_contra hne
      exact htab ⟨hfull, hne⟩
    rw [refs_table_new hb hc]
    intro j hj
    dsimp only
    by_cases hlt : j < 12
    . rw [if_neg (by omega), if_neg (by omega), if_pos hlt]
    . exfalso
      apply hj
      unfold refs
      split
      . unfold ref
        split
        . exact h12
        . rw [block_of_ge (by omega), if_neg (by simpa using h12)]
      . rfl

end Image

end Insert

end RogOS
