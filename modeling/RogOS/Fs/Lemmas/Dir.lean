import RogOS.Fs.Lemmas.Bitmap

/-!
The blocks of an inode and the entries of a directory in the image of a volume, and what looking up
and inserting entries does to them.
-/

namespace RogOS

variable {part : Partition}

namespace Partition

def InArea (part : Partition) (lim : Nat) (lba : UInt32) : Prop :=
  part.sb.dataStartLba.toNat ≤ lba.toNat ∧ lba.toNat < part.sb.dataStartLba.toNat + lim

abbrev IsBlock (part : Partition) (lba : UInt32) : Prop := part.InArea part.bitLen lba

variable {lba : UInt32} {b : Nat}

theorem InArea.isData {lim : Nat} (h : part.InArea lim lba) : part.IsData lba := h.1

theorem InArea.le_maxLba (h : part.IsBlock lba) : lba.toNat ≤ maxLba := by
  have h1 := h.2
  have h2 := part.layout.blocks
  have h3 := part.layout.onDisk
  simp only [maxLba]
  omega

theorem bitLen_le : part.bitLen ≤ 163840 := by
  have h2 := part.layout.blocks
  have h3 := part.layout.onDisk
  omega

theorem isData_blockLba (hb : b < 163840) : part.IsData (part.blockLba b) := by
  rw [IsData, toNat_blockLba hb]
  omega

theorem inArea_blockLba {lim : Nat} (hb : b < lim) (hlim : lim ≤ 163840)
    : part.InArea lim (part.blockLba b) := by
  unfold InArea
  rw [toNat_blockLba (by omega)]
  omega

theorem isBlock_blockLba (hb : b < part.bitLen) : part.IsBlock (part.blockLba b) :=
  inArea_blockLba hb part.bitLen_le

theorem blockIdx_lt (h : part.IsBlock lba) : part.blockIdx lba < part.bitLen := by
  rw [toNat_blockIdx h.1]
  have h1 := h.2
  have h2 := h.1
  omega

theorem blockLba_inj {c : Nat} (hb : b < 163840) (hc : c < 163840)
    (h : part.blockLba b = part.blockLba c) : b = c := by
  have h1 := @blockIdx_blockLba part b hb
  rw [h, blockIdx_blockLba hc] at h1
  exact h1.symm

end Partition

namespace Image

variable {a : Image} {ino : Inode} {i k : Nat}

def block (a : Image) (ino : Inode) (i : Nat) : UInt32 :=
  if i < 12 then ino.sector i
  else if ino.sector 12 ≠ 0 then (a.sec (ino.sector 12).toNat).word (4 * (i - 12))
  else 0

def blockSec (a : Image) (ino : Inode) (i : Nat) : Mem := a.sec (a.block ino i).toNat

def entry (a : Image) (ino : Inode) (i k : Nat) : DirEntry := DirEntry.at (a.blockSec ino i) k

theorem block_of_lt (h : i < 12) : a.block ino i = ino.sector i := by
  simp [block, h]

theorem block_of_ge (h : 12 ≤ i)
    : a.block ino i
        =
      if ino.sector 12 ≠ 0 then (a.sec (ino.sector 12).toNat).word (4 * (i - 12)) else 0 := by
  simp [block, show ¬ i < 12 by omega]

theorem block_congr {a' : Image} {ino' : Inode} (h : ∀ j < 13, ino.sector j = ino'.sector j)
    (hsec : ino.sector 12 ≠ 0 → a.sec (ino.sector 12).toNat = a'.sec (ino.sector 12).toNat)
    : a.block ino i = a'.block ino' i := by
  by_cases hi : i < 12
  . rw [block_of_lt hi, block_of_lt hi, h i (by omega)]
  . rw [block_of_ge (by omega), block_of_ge (by omega), h 12 (by omega)] 
    rw [h 12 (by omega)] at hsec
    split
    . next h12 => rw [hsec h12]
    . rfl

@[simp]
theorem sec_setSec_self {lba : Nat} {m : Mem} : (a.setSec lba m).sec lba = m.clip 512 := by
  simp [setSec]

theorem sec_setSec_of_ne {lba lba' : Nat} {m : Mem} (h : lba' ≠ lba)
    : (a.setSec lba m).sec lba' = a.sec lba' := by
  simp [setSec, h]

@[simp]
theorem sec_setBlockUsed {b : Nat} {u : Bool} : (a.setBlockUsed b u).sec = a.sec := rfl

@[simp]
theorem slot_setBlockUsed {b : Nat} {u : Bool} : (a.setBlockUsed b u).slot = a.slot := rfl

@[simp]
theorem inodeUsed_setBlockUsed {b : Nat} {u : Bool}
    : (a.setBlockUsed b u).inodeUsed = a.inodeUsed := rfl

@[simp]
theorem slot_setSec {lba : Nat} {m : Mem} : (a.setSec lba m).slot = a.slot := rfl

@[simp]
theorem blockUsed_setSec {lba : Nat} {m : Mem} : (a.setSec lba m).blockUsed = a.blockUsed := rfl

@[simp]
theorem inodeUsed_setSec {lba : Nat} {m : Mem} : (a.setSec lba m).inodeUsed = a.inodeUsed := rfl

theorem blockUsed_setBlockUsed {b c : Nat} {u : Bool}
    : (a.setBlockUsed b u).blockUsed c = if c = b then u else a.blockUsed c := by
  simp [setBlockUsed, Function.update_apply]

@[simp]
theorem block_setBlockUsed {b : Nat} {u : Bool}
    : (a.setBlockUsed b u).block ino i = a.block ino i := rfl

end Image

section FindSlot

theorem findSlot_eq_some {p : Nat → Bool} {n i k : Nat} (h : findSlot p n i = some k)
    : i ≤ k ∧ k < i + n ∧ p k = true ∧ ∀ j, i ≤ j → j < k → p j = false := by
  induction n generalizing i with
  | zero => simp [findSlot] at h
  | succ n ih =>
    unfold findSlot at h
    split at h
    . next hi =>
      cases h
      refine ⟨by omega, by omega, hi, ?_⟩
      intro j h1 h2
      omega
    . next hi =>
      obtain ⟨h1, h2, h3, h4⟩ := ih h
      refine ⟨by omega, by omega, h3, ?_⟩
      intro j hj1 hj2
      by_cases hji : j = i
      . rw [hji]
        simpa using hi
      . exact h4 j (by omega) hj2

theorem findSlot_eq_none {p : Nat → Bool} {n i : Nat}
    : findSlot p n i = none ↔ ∀ k, i ≤ k → k < i + n → p k = false := by
  induction n generalizing i with
  | zero =>
    simp only [findSlot, true_iff]
    intro k h1 h2
    omega
  | succ n ih =>
    unfold findSlot
    split
    . next hi =>
      simp only [reduceCtorEq, false_iff]
      intro h
      have := h i (by omega) (by omega)
      rw [hi] at this
      contradiction
    . next hi =>
      rw [ih]
      constructor
      . intro h k h1 h2
        by_cases hk : k = i
        . rw [hk]
          simpa using hi
        . exact h k (by omega) (by omega)
      . intro h k h1 h2
        exact h k (by omega) (by omega)

theorem findSlot_congr {p q : Nat → Bool} {n i : Nat} (h : ∀ k, i ≤ k → k < i + n → p k = q k)
    : findSlot p n i = findSlot q n i := by
  induction n generalizing i with
  | zero => rfl
  | succ n ih =>
    unfold findSlot
    rw [h i (by omega) (by omega), ih (fun k h1 h2 => h k (by omega) (by omega))]

def findPos (p : Nat → Nat → Bool) : (n i : Nat) → Option (Nat × Nat)
  | 0, _ => none
  | n + 1, i =>
    match findSlot (p i) 21 0 with
    | some k => some (i, k)
    | none => findPos p n (i + 1)

theorem findPos_congr {p q : Nat → Nat → Bool} {n i : Nat}
    (h : ∀ j, i ≤ j → j < i + n → ∀ k < 21, p j k = q j k) : findPos p n i = findPos q n i := by
  induction n generalizing i with
  | zero => rfl
  | succ n ih =>
    unfold findPos
    rw [findSlot_congr fun k _ hk => h i (by omega) (by omega) k (by omega),
      ih fun j h1 h2 => h j (by omega) (by omega)]

theorem findPos_eq_some {p : Nat → Nat → Bool} {n i : Nat} {x : Nat × Nat}
    (h : findPos p n i = some x) : i ≤ x.1 ∧ x.1 < i + n ∧ x.2 < 21 ∧ p x.1 x.2 = true := by
  induction n generalizing i with
  | zero => simp [findPos] at h
  | succ n ih =>
    unfold findPos at h
    split at h
    . next k hk =>
      cases h
      obtain ⟨-, h1, h2, -⟩ := findSlot_eq_some hk
      exact ⟨by simp, by simp, by simpa using h1, h2⟩
    . obtain ⟨h1, h2, h3⟩ := ih h
      exact ⟨by omega, by omega, h3⟩

theorem findPos_first {p : Nat → Nat → Bool} {n i : Nat} {x : Nat × Nat}
    (h : findPos p n i = some x) {j l : Nat} (hij : i ≤ j) (hl : l < 21)
    (hlt : j < x.1 ∨ j = x.1 ∧ l < x.2) : p j l = false := by
  induction n generalizing i with
  | zero => contradiction
  | succ n ih =>
    unfold findPos at h
    split at h
    . next k hk =>
      cases h
      obtain ⟨-, -, -, hfirst⟩ := findSlot_eq_some hk
      dsimp only at hlt
      obtain ⟨rfl, hlk⟩ := hlt.resolve_left (by omega)
      exact hfirst l (Nat.zero_le _) hlk
    . next hk =>
      by_cases hji : j = i
      . rw [findSlot_eq_none] at hk
        rw [hji]
        exact hk l (Nat.zero_le _) (by omega)
      . exact ih h (by omega)

theorem findPos_of_first {p : Nat → Nat → Bool} {n i : Nat} {x : Nat × Nat} (hi : i ≤ x.1)
    (hn : x.1 < i + n) (hk : x.2 < 21) (hx : p x.1 x.2 = true)
    (hfirst : ∀ j l, i ≤ j → l < 21 → (j < x.1 ∨ j = x.1 ∧ l < x.2) → p j l = false)
    : findPos p n i = some x := by
  induction n generalizing i with
  | zero => omega
  | succ n ih =>
    unfold findPos
    cases hs : findSlot (p i) 21 0 with
    | some k =>
      obtain ⟨-, h1, h2, h3⟩ := findSlot_eq_some hs
      have hix : i = x.1 := by
        by_contra hne
        rw [hfirst i k (Nat.le_refl i) (by omega) (.inl (by omega))] at h2
        contradiction
      subst hix
      have hkx : k = x.2 := by
        apply Nat.le_antisymm
        . by_contra hlt
          rw [h3 x.2 (Nat.zero_le _) (by omega)] at hx
          contradiction
        . by_contra hlt
          rw [hfirst x.1 k (Nat.le_refl _) (by omega) (.inr ⟨rfl, by omega⟩)] at h2
          contradiction
      rw [hkx]
    | none =>
      have hix : i ≠ x.1 := by
        rintro rfl
        rw [findSlot_eq_none.mp hs x.2 (Nat.zero_le _) (by omega)] at hx
        contradiction
      exact ih (by omega) (by omega) fun j l hj => hfirst j l (by omega)

theorem findPos_eq_none {p : Nat → Nat → Bool} {n i : Nat}
    : findPos p n i = none ↔ ∀ j, i ≤ j → j < i + n → ∀ k < 21, p j k = false := by
  induction n generalizing i with
  | zero =>
    simp only [findPos, true_iff]
    intro j h1 h2
    omega
  | succ n ih =>
    unfold findPos
    cases hk : findSlot (p i) 21 0 with
    | some k =>
      obtain ⟨-, h1, h2, -⟩ := findSlot_eq_some hk
      simp only [reduceCtorEq, false_iff]
      intro h
      have := h i (by omega) (by omega) k (by omega)
      rw [h2] at this
      contradiction
    | none =>
      rw [findSlot_eq_none] at hk
      simp only [ih]
      constructor
      . intro h j h1 h2 k hk'
        by_cases hj : j = i
        . rw [hj]
          exact hk k (by omega) (by omega)
        . exact h j (by omega) (by omega) k hk'
      . intro h j h1 h2
        exact h j (by omega) (by omega)

end FindSlot

section Ide

variable {v : Vol} {lba : UInt32} {buf : Mem}

theorem ideRead_block (h : part.IsBlock lba)
    : (ideRead lba 1).run v = .ok ((v.image part).sec lba.toNat, v) :=
  (ideRead_data h.isData).mpr ⟨h.le_maxLba, rfl⟩

theorem ideWrite_block (h : part.IsBlock lba)
    : ∃ v', (ideWrite lba buf 1).run v = .ok ((), v')
        ∧ v'.image part = (v.image part).setSec lba.toNat buf := by
  have h1 : (ideWrite lba buf 1).run v
      = .ok ((), { v with disk := v.disk.blit (lba.toNat * 512) (1 * 512) buf }) :=
    ideWrite_run.mpr ⟨by simpa using h.le_maxLba, rfl⟩
  exact ⟨_, h1, ideWrite_data h.isData h1⟩

theorem ideWrite_image (h : part.IsBlock lba) {r : Unit × Vol}
    (hr : (ideWrite lba buf 1).run v = .ok r)
    : r.2.image part = (v.image part).setSec lba.toNat buf :=
  ideWrite_data h.isData hr

end Ide

section Search

variable {v : Vol} {ino : Inode} {name : List UInt8}

structure Image.InBlocks (part : Partition) (a : Image) (ino : Inode) : Prop where
  table : ino.sector 12 ≠ 0 → part.IsBlock (ino.sector 12)
  block : ∀ i < 140, a.block ino i ≠ 0 → part.IsBlock (a.block ino i)

theorem allBlocks_run (htab : ino.sector 12 ≠ 0 → part.IsBlock (ino.sector 12))
    : (allBlocks ino).run v = .ok ((v.image part).block ino, v) := by
  unfold allBlocks
  split
  . next h12 =>
    simp only [Cmd.bind_run, ideRead_block (htab h12), Cmd.pure_run]
    refine ⟨_, _, rfl, ?_⟩
    congr
    funext i
    simp only [Image.block, if_pos h12]
  . next h12 =>
    rw [Cmd.pure_run]
    congr
    funext i
    simp only [Image.block, if_neg h12]

def Image.hit (a : Image) (ino : Inode) (name : List UInt8) (i k : Nat) : Bool :=
  a.block ino i != 0 && nameEq (a.blockSec ino i) k name

def Image.lookup (a : Image) (ino : Inode) (name : List UInt8) : Option DirEntry :=
  (findPos (a.hit ino name) 140 0).map fun p => a.entry ino p.1 p.2

theorem searchDirEntry.go_run {n i : Nat} (hn : i + n = 140)
    (hino : (v.image part).InBlocks part ino)
    : (go part name ((v.image part).block ino) n i).run v
        =
      .ok ((findPos ((v.image part).hit ino name) n i).map
        fun p => (v.image part).entry ino p.1 p.2, v) := by
  induction n generalizing i with
  | zero =>
    rw [go, findPos, Cmd.pure_run, Option.map_none]
  | succ n ih =>
    unfold go findPos
    split
    . next h0 =>
      have hnone : findSlot ((v.image part).hit ino name i) 21 0 = none := by
        rw [findSlot_eq_none]
        intro k _ _
        simp [Image.hit, h0]
      simp only [hnone]
      exact ih (by omega)
    . next h0 =>
      have hhit : (v.image part).hit ino name i = fun k =>
          nameEq ((v.image part).blockSec ino i) k name := by
        funext k
        simp [Image.hit, h0]
      simp only [Cmd.bind_run, ideRead_block (hino.block i (by omega) h0),
        Partition.entriesPerSec_eq, hhit]
      refine ⟨_, _, rfl, ?_⟩
      rw [← Image.blockSec]
      cases hk : findSlot (fun k => nameEq ((v.image part).blockSec ino i) k name) 21 0 with
      | some k =>
        rw [Cmd.pure_run]
        simp only [Option.map_some, Image.entry]
      | none => exact ih (by omega)

theorem searchDirEntry_run (hino : (v.image part).InBlocks part ino)
    : (searchDirEntry part ino name).run v = .ok ((v.image part).lookup ino name, v) := by
  simp only [searchDirEntry, Cmd.bind_run]
  exact ⟨_, _, allBlocks_run hino.table, searchDirEntry.go_run (by omega) hino⟩

end Search

section Entries

variable {a a' : Image} {ino ino' : Inode} {i k : Nat}

namespace Image

def ref (a : Image) (ino : Inode) (j : Nat)
    : UInt32 := if j = 140 then ino.sector 12 else a.block ino j

@[simp]
theorem ref_table : a.ref ino 140 = ino.sector 12 := rfl

theorem ref_of_lt (h : i < 140) : a.ref ino i = a.block ino i := by
  simp [ref, show i ≠ 140 by omega]

theorem ref_direct (h : i < 12) : a.ref ino i = ino.sector i := by
  rw [ref_of_lt (by omega), block_of_lt h]

theorem ref_congr (h : ∀ j < 13, ino.sector j = ino'.sector j)
    (hsec : ino.sector 12 ≠ 0 → a.sec (ino.sector 12).toNat = a'.sec (ino.sector 12).toNat)
    : a.ref ino i = a'.ref ino' i := by
  unfold ref
  split
  . exact h 12 (by omega)
  . exact block_congr h hsec

def dirent (a : Image) (ino : Inode) (i k : Nat) : Option DirEntry :=
  if a.ref ino i = 0 then none else some (DirEntry.at (a.sec (a.ref ino i).toNat) k)

theorem dirent_congr (h : a.ref ino i = a'.ref ino' i)
    (hsec : a.ref ino i ≠ 0 → a.sec (a.ref ino i).toNat = a'.sec (a.ref ino i).toNat)
    : a.dirent ino i k = a'.dirent ino' i k := by
  unfold dirent
  rw [h] at hsec ⊢
  split
  . rfl
  . next h0 => rw [hsec h0]

structure Owns (part : Partition) (a : Image) (ino : Inode) : Prop where
  isBlock : ∀ j < 141, a.ref ino j ≠ 0 → part.IsBlock (a.ref ino j)
  used : ∀ j < 141, a.ref ino j ≠ 0 → a.blockUsed (part.blockIdx (a.ref ino j)) = true
  inj : ∀ i < 141, ∀ j < 141, a.ref ino i ≠ 0 → a.ref ino i = a.ref ino j → i = j

theorem Owns.inBlocks (h : a.Owns part ino) : a.InBlocks part ino where
  table := h.isBlock 140 (by omega)
  block := by
    intro i hi h0
    rw [← ref_of_lt hi] at h0 ⊢
    exact h.isBlock i (by omega) h0

theorem Owns.isBlock_sector (h : a.Owns part ino) (hi : i < 12) (h0 : ino.sector i ≠ 0)
    : part.IsBlock (ino.sector i) := by
  rw [← a.ref_direct hi] at h0 ⊢
  exact h.isBlock i (by omega) h0

theorem Owns.ne_free {b : Nat} (h : a.Owns part ino) (hb : a.blockUsed b = false) (hlt : b < 163840)
    (hi : i < 141) (h0 : a.ref ino i ≠ 0) : a.ref ino i ≠ part.blockLba b := by
  intro heq
  have hu := h.used i hi h0
  rw [heq, Partition.blockIdx_blockLba hlt, hb] at hu
  contradiction

def ProperEntries (a : Image) (ino : Inode) : Prop :=
  ∀ i < 140, ∀ k < 21, ∀ d, a.dirent ino i k = some d → d.fType ≤ 2
    ∧ (d.fType = 0 → d = DirEntry.blank)

def Named (a : Image) (ino : Inode) (name : List UInt8) (i k : Nat) : Prop :=
  ∃ d, a.dirent ino i k = some d ∧ d.HasName name

variable {name : List UInt8}

theorem dirent_of_ne_zero (hi : i < 140) (h0 : a.block ino i ≠ 0)
    : a.dirent ino i k = some (a.entry ino i k) := by
  unfold dirent entry blockSec
  rw [ref_of_lt hi, if_neg h0]

theorem hit_iff (hp : a.ProperEntries ino) (hname : 0 ∉ name) (hi : i < 140) (hk : k < 21)
    : a.hit ino name i k = true ↔ a.Named ino name i k := by
  unfold hit Named
  by_cases h0 : a.block ino i = 0
  . simp [dirent, ref_of_lt hi, h0]
  . have hd := dirent_of_ne_zero (k := k) hi h0
    have hle := (hp i hi k hk _ hd).1
    simp only [hd, Option.some.injEq, exists_eq_left', bne_iff_ne, ne_eq, h0, not_false_eq_true,
      Bool.and_eq_true, true_and]
    exact DirEntry.nameEq_iff hname hle

theorem lookup_eq_some {d : DirEntry} (hp : a.ProperEntries ino) (hname : 0 ∉ name)
    (h : a.lookup ino name = some d)
    : ∃ i < 140, ∃ k < 21, a.dirent ino i k = some d ∧ d.HasName name := by
  unfold lookup at h
  rw [Option.map_eq_some_iff] at h
  obtain ⟨⟨i, k⟩, h1, h2⟩ := h
  obtain ⟨-, hi, hk, hhit⟩ := findPos_eq_some h1
  simp only [Nat.zero_add] at hi hk hhit h2
  have h0 : a.block ino i ≠ 0 := by
    simp only [hit, Bool.and_eq_true, bne_iff_ne] at hhit
    exact hhit.1
  have hd := dirent_of_ne_zero (k := k) hi h0
  obtain ⟨d', hd', hn⟩ := (hit_iff hp hname hi hk).mp hhit
  rw [hd, h2] at hd'
  cases hd'
  rw [h2] at hd
  exact ⟨i, hi, k, hk, hd, hn⟩

theorem lookup_eq_none (hp : a.ProperEntries ino) (hname : 0 ∉ name)
    : a.lookup ino name = none ↔ ∀ i < 140, ∀ k < 21, ¬ a.Named ino name i k := by
  unfold lookup
  rw [Option.map_eq_none_iff, findPos_eq_none]
  constructor
  . intro h i hi k hk hnamed
    rw [← hit_iff hp hname hi hk, h i (by omega) (by omega) k hk] at hnamed
    contradiction
  . intro h i _ hi k hk
    rw [← Bool.not_eq_true, hit_iff hp hname (by omega) hk]
    exact h i (by omega) k hk

theorem lookup_congr (hp : a.ProperEntries ino) (hp' : a'.ProperEntries ino') (hname : 0 ∉ name)
    (h : ∀ i < 140, ∀ k < 21, a.Named ino name i k ∨ a'.Named ino' name i k →
      a.dirent ino i k = a'.dirent ino' i k)
    : a.lookup ino name = a'.lookup ino' name := by
  have hnamed : ∀ i < 140, ∀ k < 21, (a.Named ino name i k ↔ a'.Named ino' name i k) := by
    intro i hi k hk
    constructor
    . intro hn
      unfold Named
      rw [← h i hi k hk (.inl hn)]
      exact hn
    . intro hn
      unfold Named
      rw [h i hi k hk (.inr hn)]
      exact hn
  have hpos : findPos (a.hit ino name) 140 0 = findPos (a'.hit ino' name) 140 0 := by
    apply findPos_congr
    intro i _ hi k hk
    rw [Bool.eq_iff_iff, hit_iff hp hname (by omega) hk, hit_iff hp' hname (by omega) hk]
    exact hnamed i (by omega) k hk
  unfold lookup
  rw [← hpos]
  cases hx : findPos (a.hit ino name) 140 0 with
  | none => rw [Option.map_none, Option.map_none]
  | some x =>
    have hx' := findPos_eq_some (hpos ▸ hx)
    obtain ⟨-, hi, hk, hhit⟩ := findPos_eq_some hx
    have h0 : a.block ino x.1 ≠ 0 := by
      simp only [hit, Bool.and_eq_true, bne_iff_ne] at hhit
      exact hhit.1
    have h0' : a'.block ino' x.1 ≠ 0 := by
      simp only [hit, Bool.and_eq_true, bne_iff_ne] at hx'
      exact hx'.2.2.2.1
    have heq := h x.1 (by omega) x.2 hk (.inl ((hit_iff hp hname (by omega) hk).mp hhit))
    rw [dirent_of_ne_zero (by omega) h0, dirent_of_ne_zero (by omega) h0'] at heq
    exact heq

end Image

end Entries

end RogOS
