import RogOS.Lib.Mem

/-!
Strings in a memory of which a part is written to.
-/

namespace Mem

variable {m m' m'' : Mem} {a lo hi lo' hi' : Nat} {c : UInt8} {s t : List UInt8}

def SameOutside (m m' : Mem) (lo hi : Nat) : Prop := ∀ i, i < lo ∨ hi ≤ i → m' i = m i

namespace SameOutside

theorem refl : SameOutside m m lo hi := fun _ _ => rfl

theorem trans (h : SameOutside m m' lo hi) (h' : SameOutside m' m'' lo hi)
    : SameOutside m m'' lo hi :=
  fun i hi => (h' i hi).trans (h i hi)

theorem mono (h : SameOutside m m' lo hi) (hlo : lo' ≤ lo) (hhi : hi ≤ hi')
    : SameOutside m m' lo' hi' := by
  intro i hi
  apply h
  omega

theorem update : SameOutside m (Function.update m a c) a (a + 1) := by
  intro i hi
  apply Function.update_of_ne
  omega

theorem eq_of_le (h : SameOutside m m' lo hi) (hle : hi ≤ lo) : m' = m := by
  funext i
  apply h
  omega

theorem strEq (h : SameOutside m m' lo hi) (hs : m.strEq a s = true)
    (hap : a + s.length < lo ∨ hi ≤ a)
    : m'.strEq a s = true := by
  rw [← hs]
  apply Mem.strEq_congr
  intro i hi
  apply h
  omega

end SameOutside

theorem strEq_cons : m.strEq a (c :: s) = true ↔ m a = c ∧ m.strEq (a + 1) s = true := by
  rw [strEq, Bool.and_eq_true, beq_iff_eq]

theorem strEq_nil : m.strEq a [] = true ↔ m a = 0 := by
  rw [strEq, beq_iff_eq]

theorem eq_zero_iff_of_strEq (h : m.strEq a s = true) (hs : 0 ∉ s) : m a = 0 ↔ s = [] := by
  cases s with
  | nil => exact iff_of_true (strEq_nil.mp h) rfl
  | cons c s =>
    rw [(strEq_cons.mp h).1]
    apply iff_of_false
    . rintro rfl
      exact hs List.mem_cons_self
    . exact List.cons_ne_nil _ _

theorem strEq_append
    : m.strEq a (s ++ t) = true ↔ (∀ i (h : i < s.length), m (a + i) = s[i])
        ∧ m.strEq (a + s.length) t = true := by
  induction s generalizing a with
  | nil => simp
  | cons c s ih =>
    have hend : a + 1 + s.length = a + (c :: s).length := by
      rw [List.length_cons]
      omega
    rw [List.cons_append, strEq_cons, ih, hend, ← and_assoc]
    apply and_congr_left
    intro _
    constructor
    . rintro ⟨h0, h1⟩ i hi
      cases i with
      | zero => exact h0
      | succ i =>
        rw [show a + (i + 1) = a + 1 + i by omega]
        exact h1 i (Nat.lt_of_succ_lt_succ hi)
    . intro h
      refine ⟨h 0 (Nat.succ_pos _), ?_⟩
      intro i hi
      rw [show a + 1 + i = a + (i + 1) by omega]
      exact h (i + 1) (Nat.succ_lt_succ hi)

theorem strEq_cut (h : m.strEq a (s ++ t) = true)
    : strEq (Function.update m (a + s.length) 0) a s = true := by
  rw [strEq_iff]
  constructor
  . intro i hi
    rw [Function.update_of_ne (by omega)]
    exact (strEq_append.mp h).1 i hi
  . exact Function.update_self ..

theorem strEq_shift {off : Nat} : (m.shift off).strEq a s = m.strEq (off + a) s := by
  apply strEq_congr
  intro i _
  rw [shift_apply, Nat.add_assoc]

theorem strEq_getD : strEq (fun i => s.getD i 0) 0 s = true := by
  rw [strEq_iff]
  constructor
  . intro i hi
    rw [Nat.zero_add]
    exact List.getD_eq_getElem _ _ hi
  . rw [Nat.zero_add]
    exact List.getD_eq_default _ _ (Nat.le_refl _)

section Puts

def puts (m : Mem) (a : Nat) (s : List UInt8) : Mem := m.blit a s.length fun i => s.getD i 0

theorem puts_nil : m.puts a [] = m := by
  funext i
  apply blit_of_not_mem
  rw [List.length_nil]
  omega

theorem puts_get {i : Nat} (hi : i < s.length) : (m.puts a s) (a + i) = s[i] := by
  rw [puts, blit_of_mem (by omega) (by omega), Nat.add_sub_cancel_left]
  exact List.getD_eq_getElem _ _ hi

theorem puts_same : SameOutside m (m.puts a s) a (a + s.length) := fun _ hi => blit_of_not_mem hi

theorem puts_snoc {z : List UInt8} (hz : z.length ≤ 1)
    : Function.update (m.puts a (s ++ z)) (a + s.length) c = m.puts a (s ++ [c]) := by
  have hlen : (s ++ z).length = s.length + z.length := List.length_append
  have hlen' : (s ++ [c]).length = s.length + 1 := List.length_append
  funext i
  by_cases hi : i < a ∨ a + s.length < i
  . rw [Function.update_of_ne (by omega), puts_same i (by omega), puts_same i (by omega)]
  . obtain ⟨j, rfl⟩ : ∃ j, i = a + j := ⟨i - a, by omega⟩
    by_cases hj : j = s.length
    . subst hj
      rw [Function.update_self, puts_get (by omega)]
      simp
    . rw [Function.update_of_ne (by omega), puts_get (by omega), puts_get (by omega),
        List.getElem_append_left (by omega), List.getElem_append_left (by omega)]

theorem puts_update : puts (Function.update m (a + s.length) c) a s = m.puts a (s ++ [c]) := by
  have hlen : (s ++ [c]).length = s.length + 1 := List.length_append
  funext i
  by_cases hi : i < a ∨ a + s.length ≤ i
  . rw [puts_same i hi]
    by_cases hlast : i = a + s.length
    . subst hlast
      rw [Function.update_self, puts_get (by omega)]
      simp
    . rw [Function.update_of_ne hlast, puts_same i (by omega)]
  . obtain ⟨j, rfl⟩ : ∃ j, i = a + j := ⟨i - a, by omega⟩
    rw [puts_get (by omega), puts_get (by omega), List.getElem_append_left (by omega)]

end Puts

end Mem
