import Mathlib.Data.List.Basic

/-!
The last occurrence of a character in a string.
-/

namespace Str

variable {α : Type} [DecidableEq α] {s t : List α} {c : α} {i n : Nat} {last : Option Nat}

def strrchr.go (c : α) : List α → (i : Nat) → (last : Option Nat) → Option Nat
  | [], _, last => last
  | x :: s, i, last => strrchr.go c s (i + 1) (if x = c then some i else last)

def strrchr (s : List α) (c : α) : Option Nat := strrchr.go c s 0 none

theorem strrchr.go_append : go c (s ++ t) i last = go c t (i + s.length) (go c s i last) := by
  induction s generalizing i last with
  | nil => rfl
  | cons x s ih =>
    rw [List.cons_append, go, ih, go, List.length_cons]
    congr 1
    omega

theorem strrchr.go_of_not_mem (h : c ∉ s) : go c s i last = last := by
  induction s generalizing i last with
  | nil => rfl
  | cons x s ih =>
    rw [List.mem_cons, not_or] at h
    rw [go, if_neg (Ne.symm h.1)]
    exact ih h.2

theorem strrchr_of_not_mem (h : c ∉ s) : strrchr s c = none := strrchr.go_of_not_mem h

theorem strrchr_append (h : c ∉ t) : strrchr (s ++ c :: t) c = some s.length := by
  rw [strrchr, strrchr.go_append, strrchr.go, if_pos rfl, strrchr.go_of_not_mem h, Nat.zero_add]

end Str
