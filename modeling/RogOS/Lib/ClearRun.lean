import Mathlib.Order.Bounds.Basic

/-!
Runs of clear bits in a sequence of bits, and the counting of the clear bits in front of a position
that finds the first run of a given length.
-/

variable {bit : Nat → Bool} {cnt next count : Nat}

def ClearRun (bit : Nat → Bool) (cnt i : Nat) : Prop := ∀ k < cnt, bit (i + k) = false

namespace ClearRun

def starts (bit : Nat → Bool) (cnt stop : Nat)
    : Set Nat := fun i => i + cnt ≤ stop ∧ ClearRun bit cnt i

theorem bit_eq {i j : Nat} (h : ClearRun bit cnt i) (h1 : i ≤ j) (h2 : j < i + cnt)
    : bit j = false := by
  rw [← Nat.add_sub_cancel' h1]
  exact h (j - i) (by omega)

structure Counted (bit : Nat → Bool) (cnt next count : Nat) : Prop where
  le : count ≤ next
  lt : count < cnt
  clear : ClearRun bit count (next - count)
  maximal : ∀ j, j + 1 + count = next → bit j = true
  short : ∀ i, i ∉ starts bit cnt next

namespace Counted

theorem first {b : Nat} (hcnt : 1 < cnt) (hclear : bit b = false) (hfirst : ∀ j < b, bit j = true)
    : Counted bit cnt (b + 1) 1 := by
  refine ⟨by omega, hcnt, ?_, fun j hj => hfirst j (by omega), ?_⟩
  . intro k hk
    rw [show b + 1 - 1 + k = b by omega]
    exact hclear
  . rintro i ⟨hend, hrun⟩
    have hset := hfirst i (by omega)
    rw [hrun.bit_eq (Nat.le_refl i) (by omega)] at hset
    contradiction

theorem set (h : Counted bit cnt next count) (hbit : bit next = true)
    : Counted bit cnt (next + 1) 0 := by
  have hlt := h.lt
  refine ⟨Nat.zero_le _, by omega, fun k hk => absurd hk (Nat.not_lt_zero k), ?_, ?_⟩
  . intro j hj
    rw [show j = next by omega]
    exact hbit
  . rintro i ⟨hend, hrun⟩
    by_cases hlast : i + cnt ≤ next
    . exact h.short i ⟨hlast, hrun⟩
    . rw [hrun.bit_eq (show i ≤ next by omega) (by omega)] at hbit
      contradiction

theorem clear_succ (h : Counted bit cnt next count) (hbit : bit next = false)
    : ClearRun bit (count + 1) (next - count) := by
  intro k hk
  have hle := h.le
  by_cases hlast : k = count
  . rw [hlast, Nat.sub_add_cancel hle]
    exact hbit
  . exact h.clear k (by omega)

theorem unset (h : Counted bit cnt next count) (hbit : bit next = false) (hne : count + 1 ≠ cnt)
    : Counted bit cnt (next + 1) (count + 1) := by
  have hlt := h.lt
  have hle := h.le
  refine ⟨by omega, by omega, ?_, ?_, ?_⟩
  . rw [Nat.add_sub_add_right]
    exact h.clear_succ hbit
  . intro j hj
    exact h.maximal j (by omega)
  . rintro i ⟨hend, hrun⟩
    by_cases hlast : i + cnt ≤ next
    . exact h.short i ⟨hlast, hrun⟩
    -- the run would begin before the clear bits that were counted, at a set bit or behind it
    . have hset := h.maximal (next - count - 1) (by omega)
      rw [hrun.bit_eq (by omega) (by omega)] at hset
      contradiction

theorem found (h : Counted bit cnt next count) (hbit : bit next = false) (heq : count + 1 = cnt)
    {stop : Nat} (hstop : next < stop) : IsLeast (starts bit cnt stop) (next + 1 - cnt) := by
  have hle := h.le
  constructor
  . refine ⟨by omega, ?_⟩
    rw [← heq, Nat.add_sub_add_right]
    exact h.clear_succ hbit
  . rintro i ⟨-, hrun⟩
    by_contra hlt
    exact h.short i ⟨by omega, hrun⟩

theorem lt_end (h : Counted bit cnt next count) {stop i : Nat} (hi : i ∈ starts bit cnt stop)
    : next < i + cnt := by
  by_contra hle
  exact h.short i ⟨by omega, hi.2⟩

end Counted

end ClearRun
