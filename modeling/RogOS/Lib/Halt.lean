import Mathlib.Logic.Relation
import Mathlib.Data.Fintype.Card

/-!
Deterministic steps: a run that comes to an end is the only one, so that every other run is a part
of it.
-/

namespace Halt

open Relation

variable {α : Type} {R : α → α → Prop} {a b c : α}

def Final (R : α → α → Prop) (a : α) : Prop := ∀ b, ¬ R a b

def Halts (R : α → α → Prop) (a : α) : Prop := Acc (fun y x => R x y) a

theorem reaches_end (hdet : Relator.RightUnique R) (hb : ReflTransGen R a b) (hfinal : Final R b)
    (hc : ReflTransGen R a c)
    : ReflTransGen R c b := by
  cases ReflTransGen.total_of_right_unique hdet hb hc with
  | inl h =>
    cases h.cases_head with
    | inl heq => rw [heq]
    | inr h =>
      obtain ⟨d, hstep, -⟩ := h
      exact absurd hstep (hfinal d)
  | inr h => exact h

theorem end_unique (hdet : Relator.RightUnique R) (hb : ReflTransGen R a b) (hfinal : Final R b)
    (hc : ReflTransGen R a c) (hfinal' : Final R c) : c = b := by
  cases (reaches_end hdet hb hfinal hc).cases_head with
  | inl heq => exact heq
  | inr h =>
    obtain ⟨d, hstep, -⟩ := h
    exact absurd hstep (hfinal' d)

theorem halts_of_end (hdet : Relator.RightUnique R) (hb : ReflTransGen R a b) (hfinal : Final R b)
    : Halts R a := by
  induction hb using ReflTransGen.head_induction_on with
  | refl => exact .intro _ fun c hc => absurd hc (hfinal c)
  | head hstep _ ih =>
    apply Acc.intro
    intro c hc
    rw [hdet hc hstep]
    exact ih

theorem Halts.bounded (hdet : Relator.RightUnique R) (h : Halts R a) (f : α → Nat)
    : ∃ n, ∀ b, ReflTransGen R a b → f b ≤ n := by
  induction h with
  | intro a _ ih =>
    by_cases hex : ∃ b, R a b
    . obtain ⟨b, hstep⟩ := hex
      obtain ⟨n, hn⟩ := ih b hstep
      refine ⟨max (f a) n, ?_⟩
      intro c hc
      cases hc.cases_head with
      | inl heq =>
        rw [← heq]
        exact Nat.le_max_left _ _
      | inr hc =>
        obtain ⟨d, hd, hc⟩ := hc
        rw [hdet hd hstep] at hc
        exact Nat.le_trans (hn c hc) (Nat.le_max_right _ _)
    . refine ⟨f a, ?_⟩
      intro c hc
      cases hc.cases_head with
      | inl heq => exact Nat.le_of_eq (congrArg f heq.symm)
      | inr hc =>
        obtain ⟨d, hd, -⟩ := hc
        exact absurd ⟨d, hd⟩ hex

theorem Halts.of_reach (h : Halts R a) (hb : ReflTransGen R a b) : Halts R b := by
  induction hb with
  | refl => exact h
  | tail _ hstep ih => exact ih.inv hstep

end Halt
