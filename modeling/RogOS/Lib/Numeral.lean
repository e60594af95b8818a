import Mathlib.Data.Nat.Digits.Defs
import Mathlib.Tactic.IntervalCases

/-!
Numerals: the digits of a number as characters, the most significant one first.
-/

def digitChar (d : Nat) : UInt8 := UInt8.ofNat (if d < 10 then d + 48 else d - 10 + 65)

def digitVal (c : UInt8) : Nat := if c.toNat < 65 then c.toNat - 48 else c.toNat - 65 + 10

def numeral (b n : Nat)
    : List UInt8 := if n = 0 then [48] else (Nat.digits b n).reverse.map digitChar

def numeralVal (b : Nat) (s : List UInt8) : Nat := s.foldl (fun n c => n * b + digitVal c) 0

def lastDigits (b : Nat) : (k : Nat) → (n : Nat) → List UInt8
  | 0, _ => []
  | k + 1, n => lastDigits b k (n / b) ++ [digitChar (n % b)]

variable {b d k n : Nat} {s : List UInt8}

section Digit

theorem toNat_digitChar (hd : d < 36)
    : (digitChar d).toNat = if d < 10 then d + 48 else d - 10 + 65 := by
  unfold digitChar
  rw [UInt8.toNat_ofNat']
  split <;> omega

theorem digitVal_digitChar (hd : d < 36) : digitVal (digitChar d) = d := by
  unfold digitVal
  rw [toNat_digitChar hd]
  split
  . rw [if_pos (by omega)]
    omega
  . rw [if_neg (by omega)]
    omega

theorem digitChar_ne_zero (hd : d < 36) : digitChar d ≠ 0 := by
  intro h
  have hnat := congrArg UInt8.toNat h
  rw [toNat_digitChar hd, UInt8.toNat_zero] at hnat
  split at hnat <;> omega

theorem digitChar_eq_zeroChar (hd : d < 36) : digitChar d = 48 ↔ d = 0 := by
  constructor
  . intro h
    have hnat := congrArg UInt8.toNat h
    rw [toNat_digitChar hd, show (48 : UInt8).toNat = 48 from rfl] at hnat
    split at hnat <;> omega
  . rintro rfl
    rfl

end Digit

section Numeral

theorem numeral_of_lt (h : n < b) : numeral b n = [digitChar n] := by
  unfold numeral
  split
  . next h0 =>
    rw [h0]
    rfl
  . next h0 =>
    rw [Nat.digits_of_lt b n h0 h]
    rfl

variable (hb : 1 < b)

include hb

theorem numeral_of_le (h : b ≤ n) : numeral b n = numeral b (n / b) ++ [digitChar (n % b)] := by
  have hq : n / b ≠ 0 := Nat.ne_of_gt (Nat.div_pos h (by omega))
  rw [numeral, numeral, if_neg (by omega), if_neg hq, Nat.digits_def' hb (by omega),
    List.reverse_cons, List.map_append, List.map_singleton]

theorem numeral_induction {P : Nat → Prop} (one : ∀ n, n < b → P n)
    (more : ∀ n, b ≤ n → P (n / b) → P n) (n : Nat) : P n := by
  induction n using Nat.strong_induction_on with
  | _ n ih =>
    cases Nat.lt_or_ge n b with
    | inl h => exact one n h
    | inr h => exact more n h (ih (n / b) (Nat.div_lt_self (by omega) hb))

theorem forall_mem_numeral {P : UInt8 → Prop} (h : ∀ d < b, P (digitChar d))
    : ∀ c ∈ numeral b n, P c := by
  induction n using numeral_induction hb with
  | one n hn =>
    rw [numeral_of_lt hn, List.forall_mem_singleton]
    exact h n hn
  | more n hn ih =>
    rw [numeral_of_le hb hn]
    intro c hc
    cases List.mem_append.mp hc with
    | inl hc => exact ih c hc
    | inr hc =>
      rw [List.mem_singleton.mp hc]
      exact h _ (Nat.mod_lt n (by omega))

theorem numeralVal_numeral (hmax : b ≤ 36) : numeralVal b (numeral b n) = n := by
  induction n using numeral_induction hb with
  | one n hn =>
    rw [numeral_of_lt hn, numeralVal, List.foldl_cons, List.foldl_nil,
      digitVal_digitChar (by omega)]
    omega
  | more n hn ih =>
    rw [numeral_of_le hb hn, numeralVal, List.foldl_append, ← numeralVal, ih, List.foldl_cons,
      List.foldl_nil, digitVal_digitChar (Nat.lt_of_lt_of_le (Nat.mod_lt n (by omega)) hmax)]
    exact Nat.div_add_mod' n b

theorem zero_not_mem_numeral (hmax : b ≤ 36) : 0 ∉ numeral b n := by
  intro h
  exact forall_mem_numeral hb (P := (· ≠ 0)) (fun d hd => digitChar_ne_zero (by omega)) 0 h rfl

theorem numeral_ne_nil : numeral b n ≠ [] := by
  cases Nat.lt_or_ge n b with
  | inl h =>
    rw [numeral_of_lt h]
    exact List.cons_ne_nil _ _
  | inr h =>
    rw [numeral_of_le hb h]
    exact List.append_ne_nil_of_right_ne_nil _ (List.cons_ne_nil _ _)

theorem head?_numeral (hmax : b ≤ 36) (hn : n ≠ 0) : (numeral b n).head? ≠ some 48 := by
  induction n using numeral_induction hb with
  | one n hlt =>
    rw [numeral_of_lt hlt]
    intro h
    exact hn ((digitChar_eq_zeroChar (by omega)).mp (Option.some.inj h))
  | more n hle ih =>
    have hrest := ih (Nat.ne_of_gt (Nat.div_pos hle (by omega)))
    obtain ⟨c, s, hs⟩ := List.exists_cons_of_ne_nil (@numeral_ne_nil b (n / b) hb)
    rw [numeral_of_le hb hle, hs]
    rw [hs] at hrest
    exact hrest

end Numeral

section LastDigits

theorem length_lastDigits : (lastDigits b k n).length = k := by
  induction k generalizing n with
  | zero => rfl
  | succ k ih => rw [lastDigits, List.length_append, ih, List.length_singleton]

theorem lastDigits_zero : lastDigits b k 0 = List.replicate k 48 := by
  induction k with
  | zero => rfl
  | succ k ih =>
    rw [lastDigits, Nat.zero_div, ih, Nat.zero_mod, List.replicate_succ']
    rfl

theorem lastDigits_eq (hb : 1 < b) (hn : n ≠ 0) (h : n < b ^ k)
    : lastDigits b k n = List.replicate (k - (numeral b n).length) 48 ++ numeral b n
        ∧ (numeral b n).length ≤ k := by
  induction k generalizing n with
  | zero =>
    rw [Nat.pow_zero] at h
    omega
  | succ k ih =>
    rw [lastDigits]
    cases Nat.lt_or_ge n b with
    | inl hlt =>
      rw [numeral_of_lt hlt, Nat.div_eq_of_lt hlt, lastDigits_zero, Nat.mod_eq_of_lt hlt,
        List.length_singleton]
      exact ⟨by rw [Nat.add_sub_cancel], by omega⟩
    | inr hle =>
      have hq : n / b ≠ 0 := Nat.ne_of_gt (Nat.div_pos hle (by omega))
      obtain ⟨h1, h2⟩ := ih hq (Nat.div_lt_of_lt_mul (by rwa [Nat.pow_succ'] at h))
      rw [h1, numeral_of_le hb hle, List.length_append, List.length_singleton, List.append_assoc,
        Nat.add_sub_add_right]
      exact ⟨rfl, by omega⟩

theorem length_numeral_le (hb : 1 < b) (hk : 1 ≤ k) (h : n < b ^ k) : (numeral b n).length ≤ k := by
  by_cases h0 : n = 0
  . rw [h0, numeral_of_lt (by omega)]
    exact hk
  . exact (lastDigits_eq hb h0 h).2

end LastDigits
