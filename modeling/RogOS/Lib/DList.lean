import Mathlib.Data.List.Nodup
import Mathlib.Logic.Function.Basic
import RogOS.Lib.Mem

/-!
Doubly linked lists between a head and a tail, first over arbitrary links, then with the links of a
node in its first eight bytes.
-/

structure Links (α : Type) where
  next : α → α
  prev : α → α

namespace Links

variable {α : Type} {k k' : Links α} {a b t x : α} {l l' : List α}

def Chain (k : Links α) : α → List α → α → Prop
  | a, [], t => k.next a = t ∧ k.prev t = a
  | a, x :: l, t => k.next a = x ∧ k.prev x = a ∧ Chain k x l t

def Follows (k : Links α) (t : α) : α → List α → Prop
  | a, [] => a = t
  | a, x :: l => a = x ∧ Follows k t (k.next x) l

def walk [DecidableEq α] (k : Links α) : (n : Nat) → (a t : α) → List α
  | 0, _, _ => []
  | n + 1, a, t => if k.next a = t then [] else k.next a :: walk k n (k.next a) t

def find [DecidableEq α] (k : Links α) : (n : Nat) → (a t x : α) → Option Bool
  | 0, _, _, _ => none
  | n + 1, a, t, x =>
    if a ≠ t then
      if a = x then some true else find k n (k.next a) t x
    else
      some false

def insertBefore [DecidableEq α] (k : Links α) (before elem : α) : Links α where
  next := Function.update (Function.update k.next elem before) (k.prev before) elem
  prev := Function.update (Function.update k.prev elem (k.prev before)) before elem

def remove [DecidableEq α] (k : Links α) (x : α) : Links α where
  next := Function.update k.next (k.prev x) (k.next x)
  prev := Function.update k.prev (k.next x) (k.prev x)

theorem Follows.congr (h : k.Follows t a l) (hn : ∀ x ∈ l, k'.next x = k.next x)
    : k'.Follows t a l := by
  induction l generalizing a with
  | nil => exact h
  | cons x l ih =>
    obtain ⟨h1, h2⟩ := h
    rw [Follows, hn x List.mem_cons_self]
    exact ⟨h1, ih h2 fun y hy => hn y (List.mem_cons_of_mem _ hy)⟩

namespace Chain

theorem follows (h : k.Chain a l t) : k.Follows t (k.next a) l := by
  induction l generalizing a with
  | nil => exact h.1
  | cons x l ih => exact ⟨h.1, ih h.2.2⟩

theorem congr (h : k.Chain a l t) (hn : ∀ x ∈ a :: l, k'.next x = k.next x)
    (hp : ∀ x ∈ l ++ [t], k'.prev x = k.prev x)
    : k'.Chain a l t := by
  induction l generalizing a with
  | nil =>
    rw [Chain, hn a List.mem_cons_self, hp t List.mem_cons_self]
    exact h
  | cons x l ih =>
    obtain ⟨h1, h2, h3⟩ := h
    rw [Chain, hn a List.mem_cons_self, hp x List.mem_cons_self]
    refine ⟨h1, h2, ih h3 ?_ ?_⟩
    . intro y hy
      exact hn y (List.mem_cons_of_mem _ hy)
    . intro y hy
      exact hp y (List.mem_cons_of_mem _ hy)

theorem prev_mem (h : k.Chain a l t) : k.prev t ∈ a :: l := by
  induction l generalizing a with
  | nil =>
    rw [h.2]
    exact List.mem_cons_self
  | cons x l ih => exact List.mem_cons_of_mem _ (ih h.2.2)

theorem next_mem (h : k.Chain a l t) : k.next a ∈ l ++ [t] := by
  cases l with
  | nil =>
    rw [h.1]
    exact List.mem_cons_self
  | cons x l =>
    rw [h.1]
    exact List.mem_cons_self

theorem prev_next (h : k.Chain a l t) : k.prev (k.next a) = a := by
  cases l with
  | nil =>
    rw [h.1]
    exact h.2
  | cons x l =>
    rw [h.1]
    exact h.2.1

theorem neighbours (h : k.Chain a (l ++ x :: l') t) : k.prev x ∈ a :: l ∧ k.next x ∈ l' ++ [t] := by
  induction l generalizing a with
  | nil =>
    obtain ⟨-, h2, h3⟩ := h
    rw [h2]
    exact ⟨List.mem_cons_self, h3.next_mem⟩
  | cons y l ih =>
    obtain ⟨h1, h2⟩ := ih h.2.2
    exact ⟨List.mem_cons_of_mem _ h1, h2⟩

theorem next_eq_tail_iff (h : k.Chain a l t) (ht : t ∉ l) : k.next a = t ↔ l = [] := by
  cases l with
  | nil => simp [h.1]
  | cons x l =>
    rw [h.1]
    constructor
    . rintro rfl
      exact absurd List.mem_cons_self ht
    . intro hnil
      contradiction

variable [DecidableEq α]

theorem insertBefore (h : k.Chain a l t) (hnd : (a :: (l ++ [t])).Nodup) (hx : x ∉ a :: (l ++ [t]))
    : (k.insertBefore t x).Chain a (l ++ [x]) t := by
  have hne : ∀ y ∈ a :: (l ++ [t]), y ≠ x := by
    rintro y hy rfl
    exact hx hy
  unfold Links.insertBefore
  induction l generalizing a with
  | nil =>
    obtain ⟨-, hp⟩ := h
    have hat : a ≠ t := by
      rintro rfl
      simp at hnd
    have hax := hne a List.mem_cons_self
    have htx := hne t (by simp)
    simp only [List.nil_append, Chain, hp, Function.update_self, Function.update_of_ne hax.symm,
      Function.update_of_ne htx.symm, and_self]
  | cons y l ih =>
    obtain ⟨h1, h2, h3⟩ := h
    have hnd' := hnd
    rw [List.nodup_cons] at hnd'
    have hrest := ih h3 hnd'.2 (fun hmem => hx (List.mem_cons_of_mem _ hmem))
      (fun z hz => hne z (List.mem_cons_of_mem _ hz))
    rw [List.cons_append, Chain]
    refine ⟨?_, ?_, hrest⟩
    . dsimp only
      have ha : a ≠ k.prev t := by
        rintro heq
        apply hnd'.1
        rw [heq]
        have hmem := h3.prev_mem
        rw [List.mem_append]
        exact .inl hmem
      rw [Function.update_of_ne ha, Function.update_of_ne (hne a List.mem_cons_self)]
      exact h1
    . dsimp only
      have hyt : y ≠ t := by
        rintro rfl
        rw [List.cons_append, List.nodup_cons] at hnd'
        exact hnd'.2.1 (by simp)
      rw [Function.update_of_ne hyt, Function.update_of_ne (hne y (by simp))]
      exact h2

theorem insertFirst (h : k.Chain a l t) (hnd : (a :: (l ++ [t])).Nodup) (hx : x ∉ a :: (l ++ [t]))
    : (k.insertBefore (k.next a) x).Chain a (x :: l) t := by
  cases l with
  | nil =>
    rw [h.1]
    exact h.insertBefore hnd hx
  | cons y l =>
    have hne : ∀ z ∈ a :: (y :: l ++ [t]), z ≠ x := by
      rintro z hz rfl
      exact hx hz
    obtain ⟨h1, h2, h3⟩ := h
    rw [h1]
    unfold Links.insertBefore
    rw [h2]
    have hax := hne a List.mem_cons_self
    have hyx := hne y (by simp)
    have hnd1 := hnd
    rw [List.nodup_cons] at hnd1
    have hnd2 := hnd1.2
    rw [List.cons_append, List.nodup_cons] at hnd2
    rw [Chain, Chain]
    dsimp only
    rw [Function.update_self, Function.update_of_ne hyx.symm, Function.update_self,
      Function.update_of_ne hax.symm, Function.update_self, Function.update_self]
    refine ⟨rfl, rfl, rfl, rfl, h3.congr ?_ ?_⟩
    . intro z hz
      have hmem : z ∈ y :: l ++ [t] := List.mem_append_left _ hz
      have hza : z ≠ a := by
        rintro rfl
        exact hnd1.1 hmem
      dsimp only
      rw [Function.update_of_ne hza, Function.update_of_ne (hne z (List.mem_cons_of_mem _ hmem))]
    . intro z hz
      have hzy : z ≠ y := by
        rintro rfl
        exact hnd2.1 hz
      have hmem : z ∈ a :: (y :: l ++ [t]) := List.mem_cons_of_mem _ (List.mem_cons_of_mem _ hz)
      dsimp only
      rw [Function.update_of_ne hzy, Function.update_of_ne (hne z hmem)]

theorem remove (h : k.Chain a (l ++ x :: l') t) (hnd : (a :: ((l ++ x :: l') ++ [t])).Nodup)
    : (k.remove x).Chain a (l ++ l') t := by
  unfold Links.remove
  induction l generalizing a with
  | nil =>
    obtain ⟨-, hp, hrest⟩ := h
    rw [List.nil_append] at hnd ⊢
    rw [hp]
    cases l' with
    | nil =>
      obtain ⟨hn, -⟩ := hrest
      rw [Chain]
      dsimp only
      rw [hn, Function.update_self, Function.update_self]
      exact ⟨rfl, rfl⟩
    | cons y l' =>
      obtain ⟨hn, -, hrest⟩ := hrest
      rw [Chain]
      dsimp only
      rw [hn, Function.update_self, Function.update_self]
      refine ⟨rfl, rfl, ?_⟩
      apply hrest.congr
      . intro z hz
        dsimp only
        rw [Function.update_of_ne]
        rintro rfl
        rw [List.nodup_cons] at hnd
        apply hnd.1
        simp only [List.cons_append, List.mem_cons, List.mem_append]
        simp only [List.mem_cons] at hz
        tauto
      . intro z hz
        dsimp only
        rw [Function.update_of_ne]
        rintro rfl
        rw [List.nodup_cons] at hnd
        have hnd2 := hnd.2
        rw [List.cons_append, List.nodup_cons] at hnd2
        have hnd3 := hnd2.2
        rw [List.cons_append, List.nodup_cons] at hnd3
        exact hnd3.1 hz
  | cons y l ih =>
    obtain ⟨h1, h2, h3⟩ := h
    have hnd' := hnd
    rw [List.cons_append, List.cons_append, List.nodup_cons] at hnd'
    obtain ⟨hprev, hnext⟩ := h3.neighbours
    rw [List.cons_append, Chain]
    refine ⟨?_, ?_, ih h3 hnd'.2⟩
    . dsimp only
      rw [Function.update_of_ne]
      . exact h1
      . rintro rfl
        apply hnd'.1
        simp only [List.mem_cons, List.mem_append] at hprev ⊢
        tauto
    . dsimp only
      rw [Function.update_of_ne]
      . exact h2
      . rintro rfl
        have hnd2 := hnd'.2
        rw [List.nodup_cons] at hnd2
        apply hnd2.1
        simp only [List.mem_cons, List.mem_append] at hnext ⊢
        tauto

theorem walk_eq {n : Nat} (h : k.Chain a l t) (ht : t ∉ l) (hn : l.length < n)
    : k.walk n a t = l := by
  induction l generalizing a n with
  | nil =>
    cases n with
    | zero => contradiction
    | succ n => rw [walk, if_pos h.1]
  | cons x l ih =>
    cases n with
    | zero => contradiction
    | succ n =>
      obtain ⟨h1, -, h3⟩ := h
      rw [walk, h1, if_neg, ih h3]
      . exact fun hmem => ht (List.mem_cons_of_mem _ hmem)
      . rw [List.length_cons] at hn
        omega
      . rintro rfl
        exact ht List.mem_cons_self

theorem find_eq {n : Nat} (h : k.Chain a l t) (ht : t ∉ l) (hn : l.length < n)
    : k.find n (k.next a) t x = some (decide (x ∈ l)) := by
  induction l generalizing a n with
  | nil =>
    cases n with
    | zero => contradiction
    | succ n =>
      rw [find, h.1]
      simp
  | cons y l ih =>
    cases n with
    | zero => contradiction
    | succ n =>
      obtain ⟨h1, -, h3⟩ := h
      rw [find, h1, if_pos]
      . split
        . next heq => simp [heq]
        . next hne =>
          rw [ih h3 (fun hmem => ht (List.mem_cons_of_mem _ hmem))
            (by rw [List.length_cons] at hn; omega)]
          simp [Ne.symm hne]
      . rintro rfl
        exact ht List.mem_cons_self

end Chain

end Links

namespace Mem

variable {m m' : Mem} {a b : Nat} {v : UInt32}

def links (m : Mem) : Links Nat where
  next a := (m.word (a + 4)).toNat
  prev a := (m.word a).toNat

def LinksOn (S : Nat → Prop) (m : Mem) (k : Links Nat) : Prop :=
  ∀ x, S x → m.links.next x = k.next x ∧ m.links.prev x = k.prev x

structure Apart (S : Nat → Prop) : Prop where
  apart : ∀ x y, S x → S y → x ≠ y → x + 8 ≤ y ∨ y + 8 ≤ x
  bound : ∀ x, S x → x + 8 ≤ 2 ^ 32

theorem Apart.mono {S S' : Nat → Prop} (h : Apart S) (hsub : ∀ x, S' x → S x) : Apart S' where
  apart := fun x y hx hy => h.apart x y (hsub x hx) (hsub y hy)
  bound := fun x hx => h.bound x (hsub x hx)

def SameOff (S : Nat → Prop) (m m' : Mem) : Prop := ∀ a, (∀ x, S x → a < x ∨ x + 8 ≤ a) → m' a = m a

variable {S : Nat → Prop}

theorem SameOff.refl : SameOff S m m := fun _ _ => rfl

theorem SameOff.trans {m'' : Mem} (h : SameOff S m m') (h' : SameOff S m' m'')
    : SameOff S m m'' := by
  intro a ha
  rw [h' a ha, h a ha]

theorem SameOff.word (h : SameOff S m m') (ha : ∀ x, S x → a + 4 ≤ x ∨ x + 8 ≤ a)
    : m'.word a = m.word a := by
  apply word_congr
  intro i hi
  apply h
  intro x hx
  cases ha x hx with
  | inl h => omega
  | inr h => omega

section SetLinks

variable {k : Links Nat} {x y : Nat}

theorem toNat_ofNat_of_node (hS : Apart S) (hy : S y) : (UInt32.ofNat y).toNat = y := by
  rw [UInt32.toNat_ofNat']
  have := hS.bound y hy
  omega

theorem LinksOn.setNext (h : LinksOn S m k) (hS : Apart S) (hx : S x) {v : UInt32}
    (hv : v.toNat = y)
    : LinksOn S (m.setWord (x + 4) v) { k with next := Function.update k.next x y } := by
  intro z hz
  obtain ⟨h1, h2⟩ := h z hz
  simp only [links] at h1 h2 ⊢
  by_cases hzx : z = x
  . subst hzx
    rw [word_setWord_self, word_setWord_of_disjoint (by omega), Function.update_self, hv]
    exact ⟨rfl, h2⟩
  . have hap := hS.apart z x hz hx hzx
    rw [word_setWord_of_disjoint (by omega), word_setWord_of_disjoint (by omega),
      Function.update_of_ne hzx]
    exact ⟨h1, h2⟩

theorem LinksOn.setPrev (h : LinksOn S m k) (hS : Apart S) (hx : S x) {v : UInt32}
    (hv : v.toNat = y)
    : LinksOn S (m.setWord x v) { k with prev := Function.update k.prev x y } := by
  intro z hz
  obtain ⟨h1, h2⟩ := h z hz
  simp only [links] at h1 h2 ⊢
  by_cases hzx : z = x
  . subst hzx
    rw [word_setWord_self, word_setWord_of_disjoint (by omega), Function.update_self, hv]
    exact ⟨h1, rfl⟩
  . have hap := hS.apart z x hz hx hzx
    rw [word_setWord_of_disjoint (by omega), word_setWord_of_disjoint (by omega),
      Function.update_of_ne hzx]
    exact ⟨h1, h2⟩

theorem sameOff_setWord {i : Nat} (hx : S x) (hi : i = x ∨ i = x + 4) {v : UInt32}
    : SameOff S m (m.setWord i v) := by
  intro a ha
  apply setWord_of_not_mem
  have := ha x hx
  omega

end SetLinks

end Mem
