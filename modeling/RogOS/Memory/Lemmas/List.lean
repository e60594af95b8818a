import Mathlib.Data.List.Perm.Subperm
import RogOS.Memory.Impl.List

/-!
The functions of `list.c` on lists whose elements do not overlap.
-/

namespace RogOS

variable {m : Mem} {S : Nat → Prop} {b e x list : Nat} {l l' : List Nat}

theorem linksOn_self : Mem.LinksOn S m m.links := fun _ _ => ⟨rfl, rfl⟩

theorem listInsertBefore_links (hS : Mem.Apart S) (hb : S b) (he : S e) (hp : S (m.links.prev b))
    (hne : e ≠ b)
    : Mem.LinksOn S (listInsertBefore m b e) (m.links.insertBefore b e) := by
  have h1 := (linksOn_self (m := m)).setPrev hS he (v := m.word b) (y := m.links.prev b) rfl
  have h2 := h1.setNext hS he (Mem.toNat_ofNat_of_node hS hb)
  -- the first two writes leave `before->prev`
  have hap := hS.apart e b he hb hne
  have hword : ((m.setWord e (m.word b)).setWord (e + 4) (UInt32.ofNat b)).word b = m.word b := by
    rw [Mem.word_setWord_of_disjoint (by omega), Mem.word_setWord_of_disjoint (by omega)]
  have h3 := h2.setNext hS hp (Mem.toNat_ofNat_of_node hS he)
  have h4 := h3.setPrev hS hb (Mem.toNat_ofNat_of_node hS he)
  unfold listInsertBefore
  dsimp only
  rw [hword]
  exact h4

theorem listInsertBefore_sameOff (hS : Mem.Apart S) (hb : S b) (he : S e) (hp : S (m.links.prev b))
    (hne : e ≠ b)
    : Mem.SameOff S m (listInsertBefore m b e) := by
  have hap := hS.apart e b he hb hne
  have hword : ((m.setWord e (m.word b)).setWord (e + 4) (UInt32.ofNat b)).word b = m.word b := by
    rw [Mem.word_setWord_of_disjoint (by omega), Mem.word_setWord_of_disjoint (by omega)]
  unfold listInsertBefore
  dsimp only
  rw [hword]
  apply Mem.SameOff.trans _ (Mem.sameOff_setWord hb (.inl rfl))
  apply Mem.SameOff.trans _ (Mem.sameOff_setWord hp (.inr rfl))
  exact (Mem.sameOff_setWord he (.inl rfl)).trans (Mem.sameOff_setWord he (.inr rfl))

section Remove

variable (hS : Mem.Apart S) (hx : S x) (hp : S (m.links.prev x)) (hn : S (m.links.next x))
  (hne : m.links.prev x ≠ x)

include hS hx hp hne

theorem listRemove_words
    : (m.setWord (m.links.prev x + 4) (m.word (x + 4))).word (x + 4) = m.word (x + 4)
      ∧ (m.setWord (m.links.prev x + 4) (m.word (x + 4))).word x = m.word x := by
  have hap := hS.apart _ x hp hx hne
  rw [Mem.word_setWord_of_disjoint (by omega), Mem.word_setWord_of_disjoint (by omega)]
  exact ⟨rfl, rfl⟩

include hn

theorem listRemove_links : Mem.LinksOn S (listRemove m x) (m.links.remove x) := by
  have h1 := (linksOn_self (m := m)).setNext hS hp (v := m.word (x + 4)) (y := m.links.next x) rfl
  have h2 := h1.setPrev hS hn (v := m.word x) (y := m.links.prev x) rfl
  obtain ⟨hnext, hprev⟩ := listRemove_words hS hx hp hne
  unfold listRemove
  dsimp only
  have hp' : (m.word x).toNat = m.links.prev x := rfl
  rw [hp', hnext, hprev]
  exact h2

theorem listRemove_sameOff : Mem.SameOff S m (listRemove m x) := by
  obtain ⟨hnext, hprev⟩ := listRemove_words hS hx hp hne
  unfold listRemove
  dsimp only
  have hp' : (m.word x).toNat = m.links.prev x := rfl
  rw [hp', hnext, hprev]
  exact (Mem.sameOff_setWord hp (.inr rfl)).trans (Mem.sameOff_setWord hn (.inl rfl))

end Remove

structure ListOf (S : Nat → Prop) (m : Mem) (list : Nat) (l : List Nat) : Prop where
  chain : m.links.Chain list l (listTail list)
  nodup : (list :: (l ++ [listTail list])).Nodup
  nodes : ∀ x ∈ list :: (l ++ [listTail list]), S x

namespace ListOf

theorem nil (hbound : list + 16 ≤ 2 ^ 32) (hnext : m.word (list + 4) = UInt32.ofNat (listTail list))
    (hprev : m.word (listTail list) = UInt32.ofNat list) (hhead : S list)
    (htail : S (listTail list))
    : ListOf S m list [] := by
  refine ⟨⟨?_, ?_⟩, ?_, ?_⟩
  . apply (congrArg UInt32.toNat hnext).trans
    rw [UInt32.toNat_ofNat']
    unfold listTail
    omega
  . apply (congrArg UInt32.toNat hprev).trans
    rw [UInt32.toNat_ofNat']
    omega
  . simp [listTail]
  . intro x hx
    simp only [List.nil_append, List.mem_cons, List.not_mem_nil, or_false] at hx
    obtain rfl | rfl := hx
    . exact hhead
    . exact htail

theorem tail_not_mem (h : ListOf S m list l) : listTail list ∉ l := by
  have hnd := h.nodup
  rw [List.nodup_cons, List.nodup_append] at hnd
  intro hmem
  exact hnd.2.2.2 _ hmem _ (by simp) rfl

theorem elems_nodup (h : ListOf S m list l) : l.Nodup := by
  have hnd := h.nodup
  rw [List.nodup_cons, List.nodup_append] at hnd
  exact hnd.2.1

theorem length_lt (h : ListOf S m list l) (hS : Mem.Apart S) : l.length < 2 ^ 32 := by
  have hsub : (list :: (l ++ [listTail list])) ⊆ List.range (2 ^ 32) := by
    intro x hx
    have := hS.bound x (h.nodes x hx)
    rw [List.mem_range]
    omega
  have hle := (List.subperm_of_subset h.nodup hsub).length_le
  rw [List.length_range, List.length_cons, List.length_append, List.length_singleton] at hle
  omega

theorem elemFind_eq (h : ListOf S m list l) (hS : Mem.Apart S)
    : elemFind m list x = some (decide (x ∈ l)) :=
  h.chain.find_eq h.tail_not_mem (h.length_lt hS)

theorem listElems_eq (h : ListOf S m list l) (hS : Mem.Apart S) : listElems m list = l :=
  h.chain.walk_eq h.tail_not_mem (h.length_lt hS)

theorem listEmpty_eq (h : ListOf S m list l) : listEmpty m list = true ↔ l = [] := by
  rw [listEmpty, beq_iff_eq]
  exact h.chain.next_eq_tail_iff h.tail_not_mem

theorem congr {m' : Mem} {k : Links Nat} (h : ListOf S m list l) (hk : Mem.LinksOn S m' k)
    (hsame : ∀ x ∈ list :: (l ++ [listTail list]), k.next x = m.links.next x
      ∧ k.prev x = m.links.prev x)
    : ListOf S m' list l := by
  refine ⟨?_, h.nodup, h.nodes⟩
  apply h.chain.congr
  . intro x hx
    have hx' : x ∈ list :: (l ++ [listTail list]) := by
      rw [← List.cons_append]
      exact List.mem_append_left _ hx
    rw [(hk x (h.nodes x hx')).1, (hsame x hx').1]
  . intro x hx
    have hx' : x ∈ list :: (l ++ [listTail list]) := List.mem_cons_of_mem _ hx
    rw [(hk x (h.nodes x hx')).2, (hsame x hx').2]

theorem of_words {m' : Mem} (h : ListOf S m list l)
    (hsame : ∀ x ∈ list :: (l ++ [listTail list]), m'.word x = m.word x ∧ m'.word (x + 4)
      = m.word (x + 4))
    : ListOf S m' list l := by
  apply h.congr (k := m'.links) linksOn_self
  intro x hx
  obtain ⟨h1, h2⟩ := hsame x hx
  exact ⟨congrArg UInt32.toNat h2, congrArg UInt32.toNat h1⟩

theorem mono {S' : Nat → Prop} (h : ListOf S m list l)
    (hsub : ∀ x ∈ list :: (l ++ [listTail list]), S' x)
    : ListOf S' m list l :=
  ⟨h.chain, h.nodup, hsub⟩

theorem listAppend (h : ListOf S m list l) (hS : Mem.Apart S) (hx : S x)
    (hnot : x ∉ list :: (l ++ [listTail list]))
    : ListOf S (listAppend m list x) list (l ++ [x]) := by
  have ht : listTail list ∈ list :: (l ++ [listTail list]) := by simp
  have hprev : m.links.prev (listTail list) ∈ list :: (l ++ [listTail list]) := by
    rw [← List.cons_append]
    exact List.mem_append_left _ h.chain.prev_mem
  have hne : x ≠ listTail list := by
    rintro rfl
    exact hnot ht
  have hlinks := listInsertBefore_links hS (h.nodes _ ht) hx (h.nodes _ hprev) hne
  have hnew : (list :: ((l ++ [x]) ++ [listTail list])).Perm
      (x :: (list :: (l ++ [listTail list]))) := by
    rw [List.append_assoc, ← List.cons_append]
    apply List.perm_middle.trans
    rw [List.cons_append]
    exact List.Perm.refl _
  have hnodes : ∀ y ∈ list :: ((l ++ [x]) ++ [listTail list]), S y := by
    intro y hy
    rw [hnew.mem_iff, List.mem_cons] at hy
    obtain rfl | hy := hy
    . exact hx
    . exact h.nodes y hy
  refine ⟨?_, ?_, hnodes⟩
  . apply (h.chain.insertBefore h.nodup hnot).congr
    . intro y hy
      apply (hlinks y (hnodes y _)).1
      rw [← List.cons_append]
      exact List.mem_append_left _ hy
    . intro y hy
      exact (hlinks y (hnodes y (List.mem_cons_of_mem _ hy))).2
  . rw [hnew.nodup_iff, List.nodup_cons]
    exact ⟨hnot, h.nodup⟩

theorem remove_nodes (h : ListOf S m list (l ++ x :: l'))
    : S x ∧ S (m.links.prev x) ∧ S (m.links.next x) ∧ m.links.prev x ≠ x := by
  obtain ⟨hp, hn⟩ := h.chain.neighbours
  have hp' : m.links.prev x ∈ list :: ((l ++ x :: l') ++ [listTail list]) := by
    simp only [List.mem_cons, List.mem_append] at hp ⊢
    tauto
  have hn' : m.links.next x ∈ list :: ((l ++ x :: l') ++ [listTail list]) := by
    simp only [List.mem_cons, List.mem_append] at hn ⊢
    tauto
  refine ⟨h.nodes x (by simp), h.nodes _ hp', h.nodes _ hn', ?_⟩
  intro heq
  rw [heq] at hp
  have hnd := h.nodup
  rw [List.append_assoc, ← List.cons_append, List.nodup_append] at hnd
  exact hnd.2.2 x hp x (by simp) rfl

theorem listRemove (h : ListOf S m list (l ++ x :: l')) (hS : Mem.Apart S)
    : ListOf S (listRemove m x) list (l ++ l') := by
  obtain ⟨hx, hp, hn, hne⟩ := h.remove_nodes
  have hlinks := listRemove_links hS hx hp hn hne
  have hold : (list :: ((l ++ x :: l') ++ [listTail list])).Perm
      (x :: (list :: ((l ++ l') ++ [listTail list]))) := by
    rw [List.append_assoc, ← List.cons_append, List.append_assoc, ← List.cons_append]
    exact List.perm_middle
  have hnodes : ∀ y ∈ list :: ((l ++ l') ++ [listTail list]), S y := by
    intro y hy
    apply h.nodes
    rw [hold.mem_iff]
    exact List.mem_cons_of_mem _ hy
  refine ⟨?_, ?_, hnodes⟩
  . apply (h.chain.remove h.nodup).congr
    . intro y hy
      apply (hlinks y (hnodes y _)).1
      rw [← List.cons_append]
      exact List.mem_append_left _ hy
    . intro y hy
      exact (hlinks y (hnodes y (List.mem_cons_of_mem _ hy))).2
  . have hnd := h.nodup
    rw [hold.nodup_iff, List.nodup_cons] at hnd
    exact hnd.2

end ListOf

end RogOS
