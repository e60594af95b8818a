import RogOS.Lib.DLists
import RogOS.Memory.Lemmas.List

/-!
Any number of lists in one memory are sequences: the functions of `list.c` change one of them, and
no other.
-/

namespace RogOS

open Links (span)

variable {ι : Type} {S : Nat → Prop} {m : Mem} {plist : ι → Nat} {l : ι → List Nat} {i : ι}
  {x : Nat} {rest : List Nat}

def tails (plist : ι → Nat) (i : ι) : Nat := listTail (plist i)

structure MemLists (S : Nat → Prop) (m : Mem) (plist : ι → Nat) (l : ι → List Nat) : Prop where
  apart : Mem.Apart S
  lists : m.links.Lists plist (tails plist) l
  nodes : ∀ i, ∀ x ∈ span plist (tails plist) l i, S x

namespace MemLists

theorem listOf (h : MemLists S m plist l) (i : ι) : ListOf S m (plist i) (l i) :=
  ⟨h.lists.chain i, h.lists.nodup i, h.nodes i⟩

section Change

variable [DecidableEq ι] {k : Links Nat} {m' : Mem} {l' : List Nat}

theorem of_links (h : MemLists S m plist l)
    (hk : k.Lists plist (tails plist) (Function.update l i l')) (hm : Mem.LinksOn S m' k)
    (hsub : ∀ y ∈ l', S y) : MemLists S m' plist (Function.update l i l') := by
  have hnodes : ∀ j, ∀ y ∈ span plist (tails plist) (Function.update l i l') j, S y := by
    intro j y hy
    rw [Links.mem_span] at hy
    by_cases hj : j = i
    . subst hj
      rw [Function.update_self] at hy
      obtain hy | hy | hy := hy
      . exact h.nodes j y (Links.mem_span.mpr (.inl hy))
      . exact hsub y hy
      . exact h.nodes j y (Links.mem_span.mpr (.inr (.inr hy)))
    . rw [Function.update_of_ne hj] at hy
      exact h.nodes j y (Links.mem_span.mpr hy)
  exact ⟨h.apart, hk.congr fun j y hy => hm y (hnodes j y hy), hnodes⟩

omit [DecidableEq ι] in
theorem insertBefore_links (h : MemLists S m plist l) (hx : S x)
    (hnew : ∀ j, x ∉ span plist (tails plist) l j) {b : Nat}
    (hb : b ∈ span plist (tails plist) l i) (hp : m.links.prev b ∈ span plist (tails plist) l i)
    : Mem.LinksOn S (listInsertBefore m b x) (m.links.insertBefore b x)
      ∧ Mem.SameOff (fun y => y = x ∨ y ∈ span plist (tails plist) l i) m
          (listInsertBefore m b x) := by
  have hne : x ≠ b := by
    rintro rfl
    exact hnew i hb
  constructor
  . exact listInsertBefore_links h.apart (h.nodes i b hb) hx (h.nodes i _ hp) hne
  . apply listInsertBefore_sameOff _ (.inr hb) (.inl rfl) (.inr hp) hne
    apply h.apart.mono
    rintro y (rfl | hy)
    . exact hx
    . exact h.nodes i y hy

section Insert

variable (h : MemLists S m plist l) (hx : S x) (hnew : ∀ j, x ∉ span plist (tails plist) l j)

include h hx hnew

theorem listPush : MemLists S (listPush m (plist i) x) plist (Function.update l i (x :: l i))
    ∧ Mem.SameOff (fun y => y = x ∨ y ∈ span plist (tails plist) l i) m
        (RogOS.listPush m (plist i) x) := by
  have hc := h.lists.chain i
  have hb : m.links.next (plist i) ∈ span plist (tails plist) l i :=
    List.mem_cons_of_mem _ hc.next_mem
  have hp : m.links.prev (m.links.next (plist i)) ∈ span plist (tails plist) l i := by
    rw [hc.prev_next]
    exact List.mem_cons_self
  obtain ⟨h1, h2⟩ := h.insertBefore_links hx hnew hb hp
  refine ⟨h.of_links (h.lists.insertFirst hnew) h1 ?_, h2⟩
  intro y hy
  cases List.mem_cons.mp hy with
  | inl hy => exact hy ▸ hx
  | inr hy => exact h.nodes i y (Links.mem_span.mpr (.inr (.inl hy)))

theorem listAppend : MemLists S (listAppend m (plist i) x) plist (Function.update l i (l i ++ [x]))
    ∧ Mem.SameOff (fun y => y = x ∨ y ∈ span plist (tails plist) l i) m
        (RogOS.listAppend m (plist i) x) := by
  have hb : tails plist i ∈ span plist (tails plist) l i := Links.mem_span.mpr (.inr (.inr rfl))
  have hp : m.links.prev (tails plist i) ∈ span plist (tails plist) l i := by
    unfold span
    rw [← List.cons_append]
    exact List.mem_append_left _ (h.lists.chain i).prev_mem
  obtain ⟨h1, h2⟩ := h.insertBefore_links hx hnew hb hp
  refine ⟨h.of_links (h.lists.insertLast hnew) h1 ?_, h2⟩
  intro y hy
  cases List.mem_append.mp hy with
  | inl hy => exact h.nodes i y (Links.mem_span.mpr (.inr (.inl hy)))
  | inr hy => exact List.mem_singleton.mp hy ▸ hx

end Insert

theorem listRemove (h : MemLists S m plist l) (hx : x ∈ l i)
    : MemLists S (listRemove m x) plist (Function.update l i ((l i).erase x))
      ∧ Mem.SameOff (· ∈ span plist (tails plist) l i) m (RogOS.listRemove m x) := by
  obtain ⟨pre, post, hl⟩ := List.append_of_mem hx
  have hmem : ListOf (· ∈ span plist (tails plist) l i) m (plist i) (pre ++ x :: post) := by
    rw [← hl]
    exact ⟨h.lists.chain i, h.lists.nodup i, fun y hy => hy⟩
  have hapart : Mem.Apart (· ∈ span plist (tails plist) l i) := h.apart.mono (h.nodes i)
  obtain ⟨h1, h2, h3, h4⟩ := hmem.remove_nodes
  have herase : (l i).erase x = pre ++ post := by
    have hnd := h.lists.nodup_list (i := i)
    rw [hl, List.nodup_append] at hnd
    rw [hl, List.erase_append_right _ (fun hpre => hnd.2.2 x hpre x List.mem_cons_self rfl),
      List.erase_cons_head]
  constructor
  . rw [herase]
    apply h.of_links (h.lists.remove hl) (listRemove_links h.apart (h.nodes i _ h1) (h.nodes i _ h2)
      (h.nodes i _ h3) h4)
    intro y hy
    apply h.nodes i y
    rw [Links.mem_span, hl]
    rw [List.mem_append] at hy
    rw [List.mem_append, List.mem_cons]
    tauto
  . exact listRemove_sameOff hapart h1 h2 h3 h4

theorem listPop (h : MemLists S m plist l) (hl : l i = x :: rest)
    : (listPop m (plist i)).1 = x ∧ MemLists S (RogOS.listPop m (plist i)).2 plist
        (Function.update l i rest)
      ∧ Mem.SameOff (· ∈ span plist (tails plist) l i) m (RogOS.listPop m (plist i)).2 := by
  have hfirst : (m.word (plist i + 4)).toNat = x := h.lists.next_head hl
  have hremove := h.listRemove (i := i) (x := x) (by rw [hl]; exact List.mem_cons_self)
  rw [hl, List.erase_cons_head] at hremove
  unfold RogOS.listPop
  dsimp only
  rw [hfirst]
  exact ⟨rfl, hremove⟩

end Change

section Search

variable {func : ListFunction} {arg : UInt32} {p : Nat → Bool} {a t n : Nat} {c : List Nat}

theorem listLen.go_eq {length : UInt32} (h : m.links.Follows t a c) (ht : t ∉ c) (hn : c.length < n)
    : listLen.go m t n a length = some (length + UInt32.ofNat c.length) := by
  induction c generalizing a n length with
  | nil =>
    cases n with
    | zero => contradiction
    | succ n =>
      rw [listLen.go, show a = t from h, if_neg (not_not.mpr rfl)]
      simp
  | cons x c ih =>
    cases n with
    | zero => contradiction
    | succ n =>
      obtain ⟨rfl, h⟩ := h
      rw [List.mem_cons, not_or] at ht
      rw [List.length_cons] at hn
      rw [listLen.go, if_pos (Ne.symm ht.1)]
      apply (ih h ht.2 (by omega)).trans
      rw [List.length_cons, UInt32.ofNat_add, UInt32.add_assoc, UInt32.add_comm 1]
      rfl

theorem listLen (h : MemLists S m plist l)
    : listLen m (plist i) = some (UInt32.ofNat (l i).length) := by
  apply (listLen.go_eq (h.lists.chain i).follows h.lists.tail_notMem
    ((h.listOf i).length_lt h.apart)).trans
  rw [UInt32.zero_add]

def visit (func : ListFunction) (arg : UInt32) : List Nat → Mem → Option Nat × Mem
  | [], m => (none, m)
  | x :: c, m =>
    match func x arg m with
    | (true, m) => (some x, m)
    | (false, m) => visit func arg c m

theorem visit_find (hfunc : ∀ x m, func x arg m = (p x, m))
    : visit func arg c m = (c.find? p, m) := by
  induction c with
  | nil => rfl
  | cons x c ih =>
    rw [visit, hfunc, List.find?_cons]
    cases p x with
    | true => rfl
    | false => exact ih

theorem listTraversal.go_eq (h : m.links.Follows t a c) (ht : t ∉ c) (hn : c.length < n)
    (hkeep : ∀ x ∈ c, ∀ m, ∀ y ∈ c, (func x arg m).2.links.next y = m.links.next y)
    : listTraversal.go func arg t n a m = some (visit func arg c m) := by
  induction c generalizing a n m with
  | nil =>
    cases n with
    | zero => contradiction
    | succ n =>
      rw [listTraversal.go, show a = t from h, if_neg (not_not.mpr rfl)]
      rfl
  | cons x c ih =>
    cases n with
    | zero => contradiction
    | succ n =>
      obtain ⟨rfl, h⟩ := h
      rw [List.mem_cons, not_or] at ht
      rw [List.length_cons] at hn
      rw [listTraversal.go, if_pos (Ne.symm ht.1), visit]
      have hnext := hkeep a List.mem_cons_self m
      generalize func a arg m = r at hnext
      obtain ⟨found, m'⟩ := r
      cases found with
      | true => rfl
      | false =>
        dsimp only at hnext ⊢
        have hnext' : (m'.word (a + 4)).toNat = m.links.next a := hnext a List.mem_cons_self
        rw [hnext']
        apply ih (h.congr fun y hy => hnext y (List.mem_cons_of_mem _ hy)) ht.2 (by omega)
        intro y hy m z hz
        exact hkeep y (List.mem_cons_of_mem _ hy) m z (List.mem_cons_of_mem _ hz)

theorem listTraversal (h : MemLists S m plist l)
    (hkeep : ∀ x ∈ l i, ∀ m, ∀ y ∈ l i, (func x arg m).2.links.next y = m.links.next y)
    : listTraversal m (plist i) func arg = some (visit func arg (l i) m) := by
  have hempty := (h.listOf i).listEmpty_eq
  unfold RogOS.listTraversal
  split
  . next hnil =>
    rw [hempty.mp hnil]
    rfl
  . exact listTraversal.go_eq (h.lists.chain i).follows h.lists.tail_notMem
      ((h.listOf i).length_lt h.apart) hkeep

end Search

end MemLists

/--
The functions of `list.c` do to the sequence of one list what their names say, and leave the other
sequences and all of the memory but the nodes of this list as they are.
-/
theorem lists_are_sequences [DecidableEq ι] (h : MemLists S m plist l) (i : ι)
    : (∀ x, S x → (∀ j, x ∉ span plist (tails plist) l j) →
          (MemLists S (listPush m (plist i) x) plist (Function.update l i (x :: l i))
            ∧ Mem.SameOff (fun y => y = x ∨ y ∈ span plist (tails plist) l i) m
                (listPush m (plist i) x))
          ∧ MemLists S (listAppend m (plist i) x) plist (Function.update l i (l i ++ [x]))
            ∧ Mem.SameOff (fun y => y = x ∨ y ∈ span plist (tails plist) l i) m
                (listAppend m (plist i) x))
        ∧ (∀ x ∈ l i, MemLists S (listRemove m x) plist (Function.update l i ((l i).erase x))
            ∧ Mem.SameOff (· ∈ span plist (tails plist) l i) m (listRemove m x))
        ∧ (∀ x rest, l i = x :: rest → (listPop m (plist i)).1 = x
            ∧ MemLists S (listPop m (plist i)).2 plist (Function.update l i rest)
            ∧ Mem.SameOff (· ∈ span plist (tails plist) l i) m (listPop m (plist i)).2)
        ∧ (∀ x, elemFind m (plist i) x = some (decide (x ∈ l i)))
        ∧ (listLen m (plist i) = some (UInt32.ofNat (l i).length) ∧ (l i).length < 2 ^ 32)
        ∧ (listEmpty m (plist i) = true ↔ l i = [])
        ∧ ∀ (func : ListFunction) (arg : UInt32) (p : Nat → Bool), (∀ x m, func x arg m = (p x, m))
            →
            listTraversal m (plist i) func arg = some ((l i).find? p, m) := by
  have hone := h.listOf i
  refine ⟨fun x hx hnew => ⟨h.listPush hx hnew, h.listAppend hx hnew⟩, fun x hx => h.listRemove hx,
    fun x rest hl => h.listPop hl, fun x => hone.elemFind_eq h.apart,
      ⟨h.listLen, hone.length_lt h.apart⟩, hone.listEmpty_eq, ?_⟩
  intro func arg p hfunc
  rw [h.listTraversal fun x _ m y _ => by rw [hfunc], MemLists.visit_find hfunc]

section Init

def twoLists (b : Bool) : Nat := if b then 16 else 48

def twoListsMem : Mem := listInit (listInit Mem.zero 16) 48

theorem memLists_twoLists
    : MemLists (· ∈ [16, 24, 48, 56, 80]) twoListsMem twoLists fun _ => [] := by
  have hapart : ∀ x ∈ [16, 24, 48, 56, 80], ∀ y ∈ [16, 24, 48, 56, 80], x ≠ y → x + 8 ≤ y
      ∨ y + 8 ≤ x := by decide
  refine ⟨⟨fun x y hx hy => hapart x hx y hy, by decide⟩, ⟨?_, by decide, ?_⟩, by decide⟩
  . intro b
    cases b with
    | true => exact ⟨by decide, by decide⟩
    | false => exact ⟨by decide, by decide⟩
  . intro b b' x hx hx'
    simp only [Links.mem_span, twoLists, tails, listTail, List.not_mem_nil, false_or] at hx hx'
    cases b <;> cases b'
    . rfl
    . simp at hx hx'
      omega
    . simp at hx hx'
      omega
    . rfl

theorem lists_are_sequences_twoLists
    : MemLists (· ∈ [16, 24, 48, 56, 80]) (listPush twoListsMem 16 80) twoLists
        (Function.update (fun _ => []) true [80])
      ∧ listLen twoListsMem 48 = some 0 := by
  obtain ⟨h1, -⟩ := lists_are_sequences memLists_twoLists true
  obtain ⟨-, -, -, -, ⟨h2, -⟩, -⟩ := lists_are_sequences memLists_twoLists false
  refine ⟨(h1 80 (by decide) ?_).1.1, h2⟩
  intro b
  cases b <;> decide

end Init

end RogOS
