import Mathlib.Data.Nat.Bitwise
import Mathlib.Data.List.Basic
import Mathlib.Tactic.IntervalCases

/-!
Byte memory as a total map from addresses to bytes: copying ranges, little endian words,
NUL-terminated strings, blocks of a fixed size and single bits.
-/

abbrev Mem := Nat → UInt8

namespace Mem

def zero : Mem := fun _ => 0

def blit (dst : Mem) (off len : Nat) (src : Mem) : Mem :=
  fun i => if off ≤ i ∧ i < off + len then src (i - off) else dst i

def shift (m : Mem) (off : Nat) : Mem := fun i => m (off + i)

def clip (m : Mem) (len : Nat) : Mem := fun i => if i < len then m i else 0

def word (m : Mem) (a : Nat) : UInt32 :=
  UInt32.ofNat <|
    (m a).toNat + 256 * (m (a + 1)).toNat + 65536 * (m (a + 2)).toNat
      + 16777216 * (m (a + 3)).toNat

def ofWord (v : UInt32) : Mem := fun i => UInt8.ofNat (v.toNat / 256 ^ i)

def half (m : Mem) (a : Nat) : UInt16 := UInt16.ofNat ((m a).toNat + 256 * (m (a + 1)).toNat)

def setHalf (m : Mem) (a : Nat) (v : UInt16) : Mem := m.blit a 2 (ofWord v.toUInt32)

def ofWords (f : Nat → UInt32) : Mem := fun i => ofWord (f (i / 4)) (i % 4)

def strEq (m : Mem) (a : Nat) : List UInt8 → Bool
  | [] => m a == 0
  | c :: cs => m a == c && strEq m (a + 1) cs

def chars (m : Mem) (a : Nat) : (n : Nat) → List UInt8
  | 0 => []
  | n + 1 => if m a = 0 then [] else m a :: chars m (a + 1) n

def block (m : Mem) (size k : Nat) : Mem := (m.shift (k * size)).clip size

def bit (m : Mem) (i : Nat) : Bool := (m (i / 8)).toNat.testBit (i % 8)

section Range

variable {m dst src : Mem} {off len a i k size : Nat}

theorem blit_of_mem (h1 : off ≤ i) (h2 : i < off + len)
    : (dst.blit off len src) i = src (i - off) := by
  simp [blit, h1, h2]

theorem blit_of_not_mem (h : i < off ∨ off + len ≤ i) : (dst.blit off len src) i = dst i := by
  unfold blit
  split
  . omega
  . rfl

@[simp]
theorem shift_apply : (m.shift off) i = m (off + i) := rfl

theorem shift_zero : m.shift 0 = m := by
  funext i
  simp

theorem clip_of_lt (h : i < len) : (m.clip len) i = m i := by
  simp [clip, h]

theorem clip_congr {m' : Mem} (h : ∀ i < len, m i = m' i) : m.clip len = m'.clip len := by
  funext i
  simp only [clip]
  split
  . next hi => exact h i hi
  . rfl

theorem block_blit_self : (dst.blit (k * size) size src).block size k = src.clip size := by
  unfold block
  apply clip_congr
  intro i hi
  rw [shift_apply, blit_of_mem]
  . congr 1
    omega
  . omega
  . omega

theorem block_blit_of_disjoint (h : off + len ≤ k * size ∨ k * size + size ≤ off)
    : (dst.blit off len src).block size k = dst.block size k := by
  unfold block
  apply clip_congr
  intro i hi
  rw [shift_apply, blit_of_not_mem, shift_apply]
  omega

theorem blit_readModifyWrite {base : Nat} (h : off + len ≤ size)
    : dst.blit base size (((dst.shift base).clip size).blit off len src)
        =
      dst.blit (base + off) len src := by
  funext i
  simp only [blit, clip, shift]
  grind

theorem clip_blit_clip
    : ((m.clip size).blit off len src).clip size = (m.blit off len src).clip size := by
  apply clip_congr
  intro i hi
  simp only [blit, clip, hi, ↓reduceIte]

end Range

section Word

variable {m m' : Mem} {a : Nat}

theorem word_ofWord (v : UInt32) : (ofWord v).word 0 = v := by
  have hv := v.toNat_lt
  unfold word ofWord
  simp only [UInt8.toNat_ofNat']
  rw [← UInt32.toNat_inj, UInt32.toNat_ofNat']
  simp only [Nat.zero_add, Nat.pow_zero, Nat.pow_one, Nat.reducePow]
  omega

theorem toUInt8_word : (m.word a).toUInt8 = m a := by
  have h0 := (m a).toNat_lt
  apply UInt8.toNat_inj.mp
  rw [UInt32.toNat_toUInt8, word, UInt32.toNat_ofNat']
  omega

theorem word_congr (h : ∀ i < 4, m (a + i) = m' (a + i)) : m.word a = m'.word a := by
  have h0 := h 0 (by omega)
  have h1 := h 1 (by omega)
  have h2 := h 2 (by omega)
  have h3 := h 3 (by omega)
  rw [Nat.add_zero] at h0
  simp only [word, h0, h1, h2, h3]

theorem word_clip {len : Nat} (h : a + 4 ≤ len) : (m.clip len).word a = m.word a := by
  apply word_congr
  intro i hi
  exact clip_of_lt (by omega)

theorem word_shift {off : Nat} : (m.shift off).word a = m.word (off + a) := rfl

theorem word_eq_of_bytes {v : UInt32} (h : ∀ i < 4, m (a + i) = ofWord v i) : m.word a = v := by
  have : (m.shift a).word 0 = (ofWord v).word 0 := by
    apply word_congr
    intro i hi
    simpa using h i hi
  rw [word_shift, word_ofWord, Nat.add_zero] at this
  exact this

theorem word_ofWords (f : Nat → UInt32) (j : Nat) : (ofWords f).word (4 * j) = f j := by
  apply word_eq_of_bytes
  intro i hi
  have h1 : (4 * j + i) / 4 = j := by omega
  have h2 : (4 * j + i) % 4 = i := by omega
  simp only [ofWords, h1, h2]

theorem ofWord_word {i : Nat} (hi : i < 4) : ofWord (m.word a) i = m (a + i) := by
  have h0 := (m a).toNat_lt
  have h1 := (m (a + 1)).toNat_lt
  have h2 := (m (a + 2)).toNat_lt
  have h3 := (m (a + 3)).toNat_lt
  apply UInt8.toNat_inj.mp
  simp only [ofWord, word, UInt8.toNat_ofNat', UInt32.toNat_ofNat']
  interval_cases i
  all_goals
    simp only [Nat.pow_zero, Nat.pow_one, Nat.reducePow, Nat.add_zero]
    omega

theorem half_congr (h : ∀ i < 2, m (a + i) = m' (a + i)) : m.half a = m'.half a := by
  have h0 := h 0 (by omega)
  have h1 := h 1 (by omega)
  rw [Nat.add_zero] at h0
  simp only [half, h0, h1]

theorem half_setHalf_self (v : UInt16) : (m.setHalf a v).half a = v := by
  have hv := v.toNat_lt
  unfold setHalf half
  rw [blit_of_mem (by omega) (by omega), blit_of_mem (by omega) (by omega), Nat.sub_self,
    Nat.add_sub_cancel_left]
  unfold ofWord
  simp only [UInt8.toNat_ofNat', UInt16.toNat_toUInt32]
  rw [← UInt16.toNat_inj, UInt16.toNat_ofNat']
  simp only [Nat.pow_zero, Nat.pow_one]
  omega

theorem setHalf_of_not_mem {v : UInt16} {i : Nat} (h : i < a ∨ a + 2 ≤ i)
    : (m.setHalf a v) i = m i := blit_of_not_mem h

variable {b : Nat} {v : UInt32}

def setWord (m : Mem) (a : Nat) (v : UInt32) : Mem := m.blit a 4 (ofWord v)

theorem setWord_of_not_mem {i : Nat} (h : i < a ∨ a + 4 ≤ i)
    : (m.setWord a v) i = m i := blit_of_not_mem h

theorem word_setWord_self : (m.setWord a v).word a = v := by
  apply word_eq_of_bytes
  intro i hi
  rw [setWord, blit_of_mem (by omega) (by omega)]
  congr 1
  omega

theorem word_setWord_of_disjoint (h : b + 4 ≤ a ∨ a + 4 ≤ b)
    : (m.setWord a v).word b = m.word b := by
  apply word_congr
  intro i hi
  apply setWord_of_not_mem
  omega

end Word

section Str

variable {m m' : Mem} {a b : Nat}

theorem strEq_congr {str : List UInt8} (h : ∀ i ≤ str.length, m (a + i) = m' (b + i))
    : m.strEq a str = m'.strEq b str := by
  induction str generalizing a b with
  | nil =>
    have := h 0 (by simp)
    simp only [Nat.add_zero] at this
    simp [strEq, this]
  | cons c cs ih =>
    have h0 := h 0 (by simp)
    simp only [Nat.add_zero] at h0
    simp only [strEq, h0]
    congr 1
    apply ih
    intro i hi
    have := h (i + 1) (by simp; omega)
    rw [show a + 1 + i = a + (i + 1) by omega, show b + 1 + i = b + (i + 1) by omega]
    exact this

theorem strEq_congr_nul {str : List UInt8} {p : Nat} (hstr : 0 ∉ str) (hp : m (a + p) = 0)
    (h : ∀ i ≤ p, m (a + i) = m' (b + i)) : m.strEq a str = m'.strEq b str := by
  induction str generalizing a b p with
  | nil =>
    have := h 0 (by omega)
    simp only [Nat.add_zero] at this
    simp [strEq, this]
  | cons c cs ih =>
    have h0 := h 0 (by omega)
    simp only [Nat.add_zero] at h0
    simp only [strEq, ← h0]
    cases p with
    | zero =>
      have hc : (m a == c) = false := by
        rw [Nat.add_zero] at hp
        rw [hp, beq_eq_false_iff_ne]
        rintro rfl
        exact hstr (by simp)
      rw [hc]
      rfl
    | succ p =>
      congr 1
      apply ih (fun hmem => hstr (List.mem_cons_of_mem _ hmem)) (p := p)
      . rw [show a + 1 + p = a + (p + 1) by omega]
        exact hp
      . intro i hi
        rw [show a + 1 + i = a + (i + 1) by omega, show b + 1 + i = b + (i + 1) by omega]
        exact h (i + 1) (by omega)

theorem strEq_iff {str : List UInt8}
    : m.strEq a str = true ↔ (∀ i (h : i < str.length), m (a + i) = str[i]) ∧ m (a + str.length)
        = 0 := by
  induction str generalizing a with
  | nil => simp [strEq]
  | cons c cs ih =>
    simp only [strEq, Bool.and_eq_true, beq_iff_eq, ih]
    constructor
    . rintro ⟨h0, h1, h2⟩
      constructor
      . intro i hi
        cases i with
        | zero => simpa using h0
        | succ i =>
          have := h1 i (by simpa using hi)
          rw [show a + (i + 1) = a + 1 + i by omega]
          simpa using this
      . rw [List.length_cons, show a + (cs.length + 1) = a + 1 + cs.length by omega]
        exact h2
    . rintro ⟨h1, h2⟩
      refine ⟨h1 0 (by simp), ?_, ?_⟩
      . intro i hi
        have := h1 (i + 1) (by simpa using hi)
        rw [show a + 1 + i = a + (i + 1) by omega]
        simpa using this
      . rw [show a + 1 + cs.length = a + (cs.length + 1) by omega]
        simpa using h2

theorem strEq_unique {s t : List UInt8} (hs : 0 ∉ s) (ht : 0 ∉ t) (h1 : m.strEq a s = true)
    (h2 : m.strEq a t = true) : s = t := by
  induction s generalizing a t with
  | nil =>
    cases t with
    | nil => rfl
    | cons c cs =>
      simp only [strEq, beq_iff_eq, Bool.and_eq_true] at h1 h2
      rw [h1] at h2
      exact absurd (by simp [h2.1]) ht
  | cons c cs ih =>
    cases t with
    | nil =>
      simp only [strEq, beq_iff_eq, Bool.and_eq_true] at h1 h2
      rw [h2] at h1
      exact absurd (by simp [h1.1]) hs
    | cons d ds =>
      simp only [strEq, beq_iff_eq, Bool.and_eq_true] at h1 h2
      have hcd : c = d := by rw [← h1.1, ← h2.1]
      have := ih (fun h => hs (List.mem_cons_of_mem _ h)) (fun h => ht (List.mem_cons_of_mem _ h))
        h1.2 h2.2
      rw [hcd, this]

theorem chars_eq_iff {str : List UInt8} {n : Nat} (hstr : 0 ∉ str) (hn : str.length ≤ n)
    : m.chars a n = str
        ↔
      (∀ i (h : i < str.length), m (a + i) = str[i])
        ∧ (str.length < n → m (a + str.length) = 0) := by
  induction n generalizing a str with
  | zero =>
    cases str with
    | nil => simp [chars]
    | cons c cs => simp at hn
  | succ n ih =>
    cases str with
    | nil =>
      rw [chars]
      split
      . next h => simp [h]
      . next h => simp [h]
    | cons c cs =>
      rw [List.mem_cons, not_or] at hstr
      rw [List.length_cons] at hn
      have hrest := @ih (a + 1) cs hstr.2 (by omega)
      rw [chars]
      split
      . next h =>
        constructor
        . intro h'
          contradiction
        . intro h'
          have h0 := h'.1 0 (Nat.zero_lt_succ _)
          rw [Nat.add_zero, h] at h0
          exact absurd h0 hstr.1
      . next h =>
        have hshift : ∀ i, a + 1 + i = a + (i + 1) := by omega
        simp only [hshift] at hrest
        rw [List.cons.injEq, hrest]
        constructor
        . rintro ⟨h1, h2, h3⟩
          refine ⟨?_, fun hlt => h3 (Nat.lt_of_succ_lt_succ hlt)⟩
          intro i hi
          cases i with
          | zero => exact h1
          | succ i => exact h2 i (Nat.lt_of_succ_lt_succ hi)
        . rintro ⟨h1, h2⟩
          refine ⟨h1 0 (Nat.zero_lt_succ _), ?_, fun hlt => h2 (Nat.succ_lt_succ hlt)⟩
          intro i hi
          exact h1 (i + 1) (Nat.succ_lt_succ hi)

theorem strEq_iff_chars {str : List UInt8} {n : Nat} (hstr : 0 ∉ str) (hn : str.length ≤ n)
    : m.strEq a str = true ↔ m.chars a n = str ∧ (str.length = n → m (a + n) = 0) := by
  rw [strEq_iff, chars_eq_iff hstr hn]
  constructor
  . rintro ⟨h1, h2⟩
    refine ⟨⟨h1, fun _ => h2⟩, ?_⟩
    rintro rfl
    exact h2
  . rintro ⟨⟨h1, h2⟩, h3⟩
    refine ⟨h1, ?_⟩
    by_cases hlt : str.length < n
    . exact h2 hlt
    . have heq : str.length = n := by omega
      rw [heq]
      exact h3 heq

theorem chars_of_strEq {str : List UInt8} {n : Nat} (hstr : 0 ∉ str) (h : m.strEq a str = true)
    (hn : str.length < n)
    : m.chars a n = str :=
  ((strEq_iff_chars hstr (Nat.le_of_lt hn)).mp h).1

theorem length_chars_le {n : Nat} : (m.chars a n).length ≤ n := by
  induction n generalizing a with
  | zero => exact Nat.le_refl 0
  | succ n ih =>
    unfold chars
    split
    . exact Nat.zero_le _
    . exact Nat.succ_le_succ ih

theorem zero_not_mem_chars {n : Nat} : 0 ∉ m.chars a n := by
  induction n generalizing a with
  | zero => exact List.not_mem_nil
  | succ n ih =>
    unfold chars
    split
    . exact List.not_mem_nil
    . next h =>
      rw [List.mem_cons, not_or]
      exact ⟨fun h0 => h h0.symm, ih⟩

end Str

section Bit

variable {m : Mem} {i j : Nat}

def setBit (m : Mem) (i : Nat) (v : Bool) : Mem := fun j =>
  if j = i / 8 then
    if v then m j ||| (1 <<< UInt8.ofNat (i % 8)) else m j &&& ~~~(1 <<< UInt8.ofNat (i % 8))
  else
    m j

theorem toNat_mask {k : Nat} (hk : k < 8) : ((1 : UInt8) <<< UInt8.ofNat k).toNat = 2 ^ k := by
  interval_cases k <;> rfl

private theorem testBit_not_mask {k : Nat} (hk : k < 8) {l : Nat} (hl : l < 8)
    : (~~~((1 : UInt8) <<< UInt8.ofNat k)).toNat.testBit l = !decide (k = l) := by
  interval_cases k <;> interval_cases l <;> rfl

theorem bit_setBit (v : Bool) : (m.setBit i v).bit j = if i = j then v else m.bit j := by
  have hi : i % 8 < 8 := Nat.mod_lt _ (by omega)
  have hj : j % 8 < 8 := Nat.mod_lt _ (by omega)
  simp only [bit, setBit]
  by_cases hbyte : j / 8 = i / 8
  . have heq : (i = j) ↔ (i % 8 = j % 8) := by omega
    cases v with
    | true =>
      simp only [hbyte, ↓reduceIte, UInt8.toNat_or, Nat.testBit_or, toNat_mask hi,
        Nat.testBit_two_pow, heq]
      split <;> simp_all
    | false =>
      simp only [hbyte, ↓reduceIte, Bool.false_eq_true, UInt8.toNat_and, Nat.testBit_and,
        testBit_not_mask hi hj, heq]
      split <;> simp_all
  . have hne : i ≠ j := by
      intro h
      exact hbyte (by rw [h])
    simp [hbyte, hne]

def setBits (m : Mem) (i : Nat) (v : Bool) : (n : Nat) → Mem
  | 0 => m
  | n + 1 => (setBits m i v n).setBit (i + n) v

theorem bit_setBits {v : Bool} {n : Nat}
    : (m.setBits i v n).bit j = if i ≤ j ∧ j < i + n then v else m.bit j := by
  induction n with
  | zero =>
    unfold setBits
    rw [if_neg (by omega)]
  | succ n ih =>
    unfold setBits
    rw [bit_setBit, ih]
    split
    . rw [if_pos (by omega)]
    . split
      . rw [if_pos (by omega)]
      . rw [if_neg (by omega)]

theorem eq_of_bits {m' : Mem} (h : ∀ j, m.bit j = m'.bit j) : m = m' := by
  funext i
  apply UInt8.toNat_inj.mp
  apply Nat.eq_of_testBit_eq
  intro k
  by_cases hk : k < 8
  . have hbit := h (8 * i + k)
    unfold bit at hbit
    rw [show (8 * i + k) / 8 = i by omega, show (8 * i + k) % 8 = k by omega] at hbit
    exact hbit
  . have hlt : ∀ b : UInt8, b.toNat.testBit k = false := by
      intro b
      apply Nat.testBit_lt_two_pow
      apply Nat.lt_of_lt_of_le b.toNat_lt
      exact Nat.pow_le_pow_right (by omega) (by omega)
    rw [hlt, hlt]

end Bit

end Mem
