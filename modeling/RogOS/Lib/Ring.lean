import Mathlib.Data.List.Basic
import Mathlib.Data.Nat.ModEq
import Mathlib.Logic.Function.Basic

/-!
The contents of a circular buffer of `n` cells: `count` cells from `tail` on.
-/

namespace Ring

variable {α : Type} {n tail count : Nat} {buf : Nat → α} {b : α}

def contents (n : Nat) (buf : Nat → α) (tail count : Nat) : List α :=
  (List.range count).map fun i => buf ((tail + i) % n)

@[simp]
theorem length_contents : (contents n buf tail count).length = count := by
  simp [contents]

theorem contents_update (h : count < n)
    : contents n (Function.update buf ((tail + count) % n) b) tail (count + 1)
        = contents n buf tail count ++ [b] := by
  unfold contents
  rw [List.range_succ, List.map_append]
  congr 1
  . apply List.map_congr_left
    intro i hi
    rw [List.mem_range] at hi
    rw [Function.update_of_ne]
    intro heq
    have hmod : i % n = count % n := Nat.ModEq.add_left_cancel' tail heq
    rw [Nat.mod_eq_of_lt (by omega), Nat.mod_eq_of_lt h] at hmod
    omega
  . simp

theorem contents_cons (h : tail < n)
    : contents n buf tail (count + 1) = buf tail :: contents n buf ((tail + 1) % n) count := by
  unfold contents
  rw [List.range_succ_eq_map, List.map_cons, List.map_map, Nat.add_zero, Nat.mod_eq_of_lt h]
  congr 1
  apply List.map_congr_left
  intro i _
  simp only [Function.comp_apply, Nat.mod_add_mod]
  congr 2
  omega

end Ring
