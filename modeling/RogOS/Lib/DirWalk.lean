import Mathlib.Data.List.Basic

/-!
Walks in a tree of directories. A step goes into a subdirectory, to the parent, or nowhere; when
each step to the parent cancels the last name before it, the names that are left lead to the same
directory.
-/

namespace DirWalk

variable {ν δ : Type}

structure Tree (ν δ : Type) where
  root : δ
  Sub : δ → ν → δ → Prop
  Parent : δ → δ → Prop
  parent_root : ∀ d, Parent root d → d = root
  parent_sub : ∀ d c e f, Sub d c e → Parent e f → f = d

inductive Step (ν : Type) where
  | stay
  | up
  | down (name : ν)

variable {T : Tree ν δ} {st st' : List ν} {ss rs : List (Step ν)} {d e f : δ} {c : ν}

inductive Walk (T : Tree ν δ) : δ → List (Step ν) → δ → Prop
  | nil {d : δ} : Walk T d [] d
  | stay {d e : δ} {ss : List (Step ν)} (rest : Walk T d ss e) : Walk T d (.stay :: ss) e
  | up {d p e : δ} {ss : List (Step ν)} (parent : T.Parent d p) (rest : Walk T p ss e)
      : Walk T d (.up :: ss) e
  | down {d s e : δ} {c : ν} {ss : List (Step ν)} (sub : T.Sub d c s) (rest : Walk T s ss e)
    : Walk T d (.down c :: ss) e

inductive Path (T : Tree ν δ) : List ν → δ → Prop
  | root : Path T [] T.root
  | push {st : List ν} {c : ν} {d e : δ} (path : Path T st d) (sub : T.Sub d c e)
      : Path T (c :: st) e

def cancel (st : List ν) : List (Step ν) → List ν
  | [] => st
  | .stay :: ss => cancel st ss
  | .up :: ss => cancel st.tail ss
  | .down c :: ss => cancel (c :: st) ss

theorem cancel_append : cancel st (ss ++ rs) = cancel (cancel st ss) rs := by
  induction ss generalizing st with
  | nil => rfl
  | cons s ss ih => cases s <;> exact ih

theorem mem_of_mem_cancel (h : c ∈ cancel st ss) : c ∈ st ∨ .down c ∈ ss := by
  induction ss generalizing st with
  | nil => exact .inl h
  | cons s ss ih =>
    cases s with
    | stay => exact (ih h).imp id (List.mem_cons_of_mem _)
    | up => exact (ih h).imp List.mem_of_mem_tail (List.mem_cons_of_mem _)
    | down c' =>
      cases ih h with
      | inl h =>
        cases List.mem_cons.mp h with
        | inl h => exact .inr (by rw [h]; exact List.mem_cons_self)
        | inr h => exact .inl h
      | inr h => exact .inr (List.mem_cons_of_mem _ h)

theorem Path.parent (h : Path T st d) (hp : T.Parent d e) : Path T st.tail e := by
  cases h with
  | root =>
    rw [T.parent_root e hp]
    exact .root
  | push path sub =>
    rw [T.parent_sub _ _ _ _ sub hp]
    exact path

theorem Path.length_eq (hroot : ∀ d c, ¬ T.Sub d c T.root)
    (hparent : ∀ d c e, T.Sub d c e → T.Parent e d)
    (h : Path T st d) (h' : Path T st' d) : st.length = st'.length := by
  induction h generalizing st' with
  | root =>
    cases h' with
    | root => rfl
    | push path sub => exact absurd sub (hroot _ _)
  | push path sub ih =>
    cases h' with
    | root => exact absurd sub (hroot _ _)
    | push path' sub' =>
      rw [T.parent_sub _ _ _ _ sub (hparent _ _ _ sub')] at path'
      rw [List.length_cons, List.length_cons, ih path']

theorem Walk.cancel (h : Walk T d ss e) (hst : Path T st d) : Path T (cancel st ss) e := by
  induction h generalizing st with
  | nil => exact hst
  | stay rest ih => exact ih hst
  | up parent rest ih => exact ih (hst.parent parent)
  | down sub rest ih => exact ih (.push hst sub)

end DirWalk
