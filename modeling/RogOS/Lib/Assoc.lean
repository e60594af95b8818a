import Mathlib.Data.List.Nodup

/-!
Association lists with one entry for each key: adjusting and erasing the entry of a key, and keys
that are not in use.
-/

namespace Assoc

variable {α : Type} {l : List (Nat × α)} {k j : Nat} {a : α} {f g : α → α}

def adjust (l : List (Nat × α)) (k : Nat) (f : α → α) : List (Nat × α) :=
  l.map fun p => if p.1 = k then (p.1, f p.2) else p

def erase (l : List (Nat × α)) (k : Nat) : List (Nat × α) := l.filter fun p => p.1 ≠ k

def fresh (l : List (Nat × α)) : Nat := l.foldr (fun p n => max (p.1 + 1) n) 0

def NodupKeys (l : List (Nat × α)) : Prop := (l.map Prod.fst).Nodup

theorem lt_fresh {p : Nat × α} (hp : p ∈ l) : p.1 < fresh l := by
  induction l with
  | nil => simp at hp
  | cons q l ih =>
    simp only [fresh, List.foldr_cons] at ih ⊢
    cases List.mem_cons.mp hp with
    | inl h =>
      rw [h]
      omega
    | inr h =>
      have := ih h
      omega

theorem lookup_cons {x : Nat} : ((x, a) :: l).lookup j = if j = x then some a else l.lookup j := by
  by_cases h : j = x
  . simp [h]
  . have h' : (j == x) = false := by simpa using h
    rw [List.lookup_cons, h', if_neg h]

theorem lookup_adjust
    : (adjust l k f).lookup j = if j = k then (l.lookup j).map f else l.lookup j := by
  induction l with
  | nil => simp [adjust]
  | cons p l ih =>
    obtain ⟨x, b⟩ := p
    simp only [adjust, List.map_cons] at ih ⊢
    by_cases hx : x = k
    . simp only [hx, ↓reduceIte, lookup_cons, ih]
      split <;> simp
    . simp only [hx, ↓reduceIte, lookup_cons, ih]
      split
      . grind
      . rfl

theorem lookup_erase : (erase l k).lookup j = if j = k then none else l.lookup j := by
  induction l with
  | nil => simp [erase]
  | cons p l ih =>
    obtain ⟨x, b⟩ := p
    simp only [erase, List.filter_cons] at ih ⊢
    by_cases hx : x = k
    . simp only [hx, ne_eq, not_true_eq_false, decide_false, Bool.false_eq_true, ↓reduceIte,
        lookup_cons]
      simp only [ne_eq] at ih
      rw [ih]
      split <;> rfl
    . simp only [hx, ne_eq, not_false_eq_true, decide_true, ↓reduceIte, lookup_cons]
      simp only [ne_eq] at ih
      rw [ih]
      grind

theorem keys_adjust : (adjust l k f).map Prod.fst = l.map Prod.fst := by
  simp only [adjust, List.map_map]
  apply List.map_congr_left
  intro p _
  simp only [Function.comp]
  split <;> rfl

theorem fresh_adjust : fresh (adjust l k f) = fresh l := by
  have hkeys : ∀ l' : List (Nat × α), fresh l' = (l'.map Prod.fst).foldr (fun x n =>
      max (x + 1) n) 0 := by
    intro l'
    rw [List.foldr_map]
    rfl
  rw [hkeys, keys_adjust, ← hkeys]

theorem NodupKeys.adjust (h : NodupKeys l) : NodupKeys (adjust l k f) := by
  unfold NodupKeys
  rw [keys_adjust]
  exact h

theorem NodupKeys.erase (h : NodupKeys l) : NodupKeys (erase l k) := by
  unfold NodupKeys Assoc.erase
  exact List.Nodup.sublist (List.Sublist.map _ List.filter_sublist) h

theorem NodupKeys.cons_fresh (h : NodupKeys l) : NodupKeys ((fresh l, a) :: l) := by
  unfold NodupKeys
  rw [List.map_cons, List.nodup_cons]
  refine ⟨?_, h⟩
  intro hmem
  obtain ⟨p, hp, heq⟩ := List.mem_map.mp hmem
  have := lt_fresh hp
  omega

theorem mem_of_lookup (h : l.lookup k = some a) : (k, a) ∈ l := by
  obtain ⟨l1, l2, rfl, -⟩ := List.lookup_eq_some_iff.mp h
  simp

theorem NodupKeys.lookup_of_mem (hn : NodupKeys l) (h : (k, a) ∈ l) : l.lookup k = some a := by
  induction l with
  | nil => simp at h
  | cons p l ih =>
    unfold NodupKeys at hn
    rw [List.map_cons, List.nodup_cons] at hn
    cases List.mem_cons.mp h with
    | inl h =>
      rw [← h]
      simp
    | inr h =>
      have hne : k ≠ p.1 := by
        rintro rfl
        exact hn.1 (List.mem_map.mpr ⟨_, h, rfl⟩)
      rw [List.lookup_cons]
      simp only [beq_eq_false_iff_ne.mpr hne]
      exact ih hn.2 h

theorem lookup_fresh : l.lookup (fresh l) = none := by
  rw [List.lookup_eq_none_iff]
  intro p hp
  have := lt_fresh hp
  simp only [bne_iff_ne, ne_eq]
  omega

theorem adjust_adjust : adjust (adjust l k f) k g = adjust l k (g ∘ f) := by
  simp only [adjust, List.map_map]
  apply List.map_congr_left
  intro p _
  simp only [Function.comp]
  split <;> simp_all

theorem NodupKeys.adjust_congr (hn : NodupKeys l) (h : l.lookup k = some a) (hfg : f a = g a)
    : Assoc.adjust l k f = Assoc.adjust l k g := by
  simp only [Assoc.adjust]
  apply List.map_congr_left
  intro p hp
  split
  . next hk =>
    have hp' := hn.lookup_of_mem hp
    rw [hk, h] at hp'
    cases hp'
    rw [hfg]
  . rfl

theorem NodupKeys.adjust_eq_self (hn : NodupKeys l) (h : l.lookup k = some a) (hf : f a = a)
    : Assoc.adjust l k f = l := by
  rw [hn.adjust_congr (g := id) h (by simpa using hf)]
  simp [Assoc.adjust]

theorem erase_cons_fresh : erase ((fresh l, a) :: l) (fresh l) = l := by
  simp only [erase, ne_eq, List.filter_cons, not_true_eq_false, decide_false, Bool.false_eq_true,
    ↓reduceIte, List.filter_eq_self, decide_eq_true_eq]
  intro p hp
  have := lt_fresh hp
  omega

theorem NodupKeys.countP_erase (hn : NodupKeys l) (h : l.lookup k = some a) (p : Nat × α → Bool)
    : l.countP p = (Assoc.erase l k).countP p + if p (k, a) then 1 else 0 := by
  induction l with
  | nil => simp at h
  | cons q l ih =>
    unfold NodupKeys at hn
    rw [List.map_cons, List.nodup_cons] at hn
    rw [lookup_cons] at h
    by_cases hk : k = q.1
    . -- the key is at the head and nowhere else
      rw [if_pos hk, Option.some.injEq] at h
      have hq : q = (k, a) := Prod.ext hk.symm h
      have hrest : Assoc.erase (q :: l) k = l := by
        simp only [Assoc.erase, List.filter_cons, hk, ne_eq, not_true_eq_false, decide_false,
          Bool.false_eq_true, ↓reduceIte, List.filter_eq_self, decide_eq_true_eq]
        intro x hx heq
        exact hn.1 (List.mem_map.mpr ⟨x, hx, heq⟩)
      rw [hrest, hq, List.countP_cons]
    . rw [if_neg hk] at h
      have hrest : Assoc.erase (q :: l) k = q :: Assoc.erase l k := by
        have hk' : ¬ q.1 = k := Ne.symm hk
        simp only [Assoc.erase, List.filter_cons, hk', ne_eq, not_false_eq_true, decide_true,
          ↓reduceIte]
      rw [hrest, List.countP_cons, List.countP_cons, ih hn.2 h]
      omega

end Assoc
