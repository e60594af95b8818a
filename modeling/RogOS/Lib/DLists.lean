import RogOS.Lib.DList

/-!
Several doubly linked lists that share no node: what is done to one of them leaves the others as
they are.
-/

namespace Links

variable {ι α : Type} {k : Links α} {head tail : ι → α} {l : ι → List α} {i j : ι} {x : α}
  {rest : List α}

def span (head tail : ι → α) (l : ι → List α) (i : ι) : List α := head i :: (l i ++ [tail i])

structure Lists (k : Links α) (head tail : ι → α) (l : ι → List α) : Prop where
  chain : ∀ i, k.Chain (head i) (l i) (tail i)
  nodup : ∀ i, (span head tail l i).Nodup
  apart : ∀ i j x, x ∈ span head tail l i → x ∈ span head tail l j → i = j

theorem mem_span : x ∈ span head tail l i ↔ x = head i ∨ x ∈ l i ∨ x = tail i := by
  unfold span
  rw [List.mem_cons, List.mem_append, List.mem_singleton]

namespace Lists

theorem tail_notMem (h : k.Lists head tail l) : tail i ∉ l i := by
  have hnd := h.nodup i
  unfold span at hnd
  rw [List.nodup_cons, List.nodup_append] at hnd
  intro hmem
  exact hnd.2.2.2 _ hmem _ (List.mem_singleton_self _) rfl

theorem nodup_list (h : k.Lists head tail l) : (l i).Nodup := by
  have hnd := h.nodup i
  unfold span at hnd
  rw [List.nodup_cons, List.nodup_append] at hnd
  exact hnd.2.1

theorem eq_of_mem (h : k.Lists head tail l) (hi : x ∈ l i) (hj : x ∈ l j) : i = j :=
  h.apart i j x (mem_span.mpr (.inr (.inl hi))) (mem_span.mpr (.inr (.inl hj)))

theorem next_eq_tail_iff (h : k.Lists head tail l) : k.next (head i) = tail i ↔ l i = [] :=
  (h.chain i).next_eq_tail_iff h.tail_notMem

theorem next_head (h : k.Lists head tail l) (hl : l i = x :: rest) : k.next (head i) = x := by
  have hc := h.chain i
  rw [hl] at hc
  exact hc.1

theorem find_eq [DecidableEq α] {n : Nat} (h : k.Lists head tail l) (hn : (l i).length < n)
    : k.find n (k.next (head i)) (tail i) x = some (decide (x ∈ l i)) :=
  (h.chain i).find_eq h.tail_notMem hn

theorem walk_eq [DecidableEq α] {n : Nat} (h : k.Lists head tail l) (hn : (l i).length < n)
    : k.walk n (head i) (tail i) = l i :=
  (h.chain i).walk_eq h.tail_notMem hn

theorem insertBefore_other [DecidableEq α] {b : α} (h : k.Lists head tail l)
    (hx : ∀ j, x ∉ span head tail l j) (hb : b ∈ span head tail l i)
    (hp : k.prev b ∈ span head tail l i) (j : ι) (hj : j ≠ i)
    : ∀ y ∈ span head tail l j, (k.insertBefore b x).next y = k.next y ∧ (k.insertBefore b x).prev y
        = k.prev y := by
  intro y hy
  have hyx : y ≠ x := by
    rintro rfl
    exact hx j hy
  have hyb : y ≠ b := by
    rintro rfl
    exact hj (h.apart j i y hy hb)
  have hyp : y ≠ k.prev b := by
    rintro rfl
    exact hj (h.apart j i _ hy hp)
  unfold Links.insertBefore
  dsimp only
  rw [Function.update_of_ne hyp, Function.update_of_ne hyx, Function.update_of_ne hyb,
    Function.update_of_ne hyx]
  exact ⟨rfl, rfl⟩

theorem congr {k' : Links α} (h : k.Lists head tail l)
    (hk : ∀ i, ∀ y ∈ span head tail l i, k'.next y = k.next y ∧ k'.prev y = k.prev y)
    : k'.Lists head tail l := by
  refine ⟨?_, h.nodup, h.apart⟩
  intro i
  apply (h.chain i).congr
  . intro y hy
    apply (hk i y _).1
    unfold span
    rw [← List.cons_append]
    exact List.mem_append_left _ hy
  . intro y hy
    exact (hk i y (List.mem_cons_of_mem _ hy)).2

variable [DecidableEq ι]

theorem span_update_of_ne {m : List α} (hj : j ≠ i)
    : span head tail (Function.update l i m) j = span head tail l j := by
  unfold span
  rw [Function.update_of_ne hj]

theorem span_update_self {m : List α}
    : span head tail (Function.update l i m) i = head i :: (m ++ [tail i]) := by
  unfold span
  rw [Function.update_self]

theorem of_update {k' : Links α} {m : List α} (h : k.Lists head tail l)
    (hm : k'.Chain (head i) m (tail i)) (hnd : (head i :: (m ++ [tail i])).Nodup)
    (hsub : ∀ y ∈ head i :: (m ++ [tail i]), y ∈ span head tail l i ∨ ∀ j, y ∉ span head tail l j)
    (hnext : ∀ j, j ≠ i → ∀ y ∈ span head tail l j, k'.next y = k.next y ∧ k'.prev y = k.prev y)
    : k'.Lists head tail (Function.update l i m) where
  chain := by
    intro j
    by_cases hj : j = i
    . subst hj
      rw [Function.update_self]
      exact hm
    . rw [Function.update_of_ne hj]
      apply (h.chain j).congr
      . intro y hy
        apply (hnext j hj y _).1
        unfold span
        rw [← List.cons_append]
        exact List.mem_append_left _ hy
      . intro y hy
        exact (hnext j hj y (List.mem_cons_of_mem _ hy)).2
  nodup := by
    intro j
    by_cases hj : j = i
    . subst hj
      rw [span_update_self]
      exact hnd
    . rw [span_update_of_ne hj]
      exact h.nodup j
  apart := by
    -- a node of the changed list is in no other one
    have key : ∀ j y, j ≠ i → y ∈ head i :: (m ++ [tail i]) → y ∉ span head tail l j := by
      intro j y hj hy hmem
      obtain hy | hy := hsub y hy
      . exact hj (h.apart j i y hmem hy)
      . exact hy j hmem
    intro j j' y hy hy'
    by_cases hj : j = i
    . by_cases hj' : j' = i
      . rw [hj, hj']
      . subst hj
        rw [span_update_self] at hy
        rw [span_update_of_ne hj'] at hy'
        exact absurd hy' (key j' y hj' hy)
    . by_cases hj' : j' = i
      . subst hj'
        rw [span_update_of_ne hj] at hy
        rw [span_update_self] at hy'
        exact absurd hy (key j y hj hy')
      . rw [span_update_of_ne hj] at hy
        rw [span_update_of_ne hj'] at hy'
        exact h.apart j j' y hy hy'

variable [DecidableEq α]

theorem insertLast (h : k.Lists head tail l) (hx : ∀ j, x ∉ span head tail l j)
    : (k.insertBefore (tail i) x).Lists head tail (Function.update l i (l i ++ [x])) := by
  have hp : k.prev (tail i) ∈ span head tail l i := by
    unfold span
    rw [← List.cons_append]
    exact List.mem_append_left _ (h.chain i).prev_mem
  refine h.of_update ((h.chain i).insertBefore (h.nodup i) (hx i)) ?_ ?_
    (h.insertBefore_other hx (mem_span.mpr (.inr (.inr rfl))) hp)
  . have hperm : (head i :: (l i ++ [x] ++ [tail i])).Perm (x :: span head tail l i) := by
      unfold span
      rw [List.append_assoc, List.singleton_append]
      exact (List.Perm.cons _ List.perm_middle).trans (List.Perm.swap _ _ _)
    rw [hperm.nodup_iff, List.nodup_cons]
    exact ⟨hx i, h.nodup i⟩
  . intro y hy
    simp only [List.mem_cons, List.mem_append, List.not_mem_nil, or_false] at hy
    rw [mem_span]
    by_cases heq : y = x
    . right
      rw [heq]
      exact hx
    . tauto

theorem insertFirst (h : k.Lists head tail l) (hx : ∀ j, x ∉ span head tail l j)
    : (k.insertBefore (k.next (head i)) x).Lists head tail (Function.update l i (x :: l i)) := by
  have hb : k.next (head i) ∈ span head tail l i := List.mem_cons_of_mem _ (h.chain i).next_mem
  have hp : k.prev (k.next (head i)) ∈ span head tail l i := by
    rw [(h.chain i).prev_next]
    exact List.mem_cons_self
  refine h.of_update ((h.chain i).insertFirst (h.nodup i) (hx i)) ?_ ?_
    (h.insertBefore_other hx hb hp)
  . have hperm : (head i :: (x :: l i ++ [tail i])).Perm (x :: span head tail l i) :=
      List.Perm.swap _ _ _
    rw [hperm.nodup_iff, List.nodup_cons]
    exact ⟨hx i, h.nodup i⟩
  . intro y hy
    simp only [List.mem_cons, List.mem_append, List.not_mem_nil, or_false] at hy
    rw [mem_span]
    by_cases heq : y = x
    . right
      rw [heq]
      exact hx
    . tauto

theorem remove {pre post : List α} (h : k.Lists head tail l) (hl : l i = pre ++ x :: post)
    : (k.remove x).Lists head tail (Function.update l i (pre ++ post)) := by
  have hc := h.chain i
  have hnd := h.nodup i
  unfold span at hnd
  rw [hl] at hc hnd
  obtain ⟨hprev, hnext⟩ := hc.neighbours
  have hp : k.prev x ∈ span head tail l i := by
    rw [mem_span, hl]
    rw [List.mem_cons] at hprev
    rw [List.mem_append]
    tauto
  have hn : k.next x ∈ span head tail l i := by
    rw [mem_span, hl]
    rw [List.mem_append, List.mem_singleton] at hnext
    rw [List.mem_append, List.mem_cons]
    tauto
  refine h.of_update (Chain.remove hc hnd) ?_ ?_ ?_
  . refine hnd.sublist ?_
    apply List.Sublist.cons_cons
    apply List.Sublist.append _ (List.Sublist.refl _)
    exact List.Sublist.append (List.Sublist.refl _) (List.sublist_cons_self _ _)
  . intro y hy
    left
    rw [mem_span, hl]
    simp only [List.mem_cons, List.mem_append, List.not_mem_nil, or_false] at hy ⊢
    tauto
  . intro j hj y hy
    have hyp : y ≠ k.prev x := by
      rintro rfl
      exact hj (h.apart j i _ hy hp)
    have hyn : y ≠ k.next x := by
      rintro rfl
      exact hj (h.apart j i _ hy hn)
    unfold Links.remove
    dsimp only
    rw [Function.update_of_ne hyp, Function.update_of_ne hyn]
    exact ⟨rfl, rfl⟩

theorem removeFirst (h : k.Lists head tail l) (hl : l i = x :: rest)
    : (k.remove x).Lists head tail (Function.update l i rest) :=
  @Lists.remove _ _ _ _ _ _ _ _ _ _ [] rest h hl

end Lists

end Links
