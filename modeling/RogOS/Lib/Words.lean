import Mathlib.Data.List.Basic

/-!
The words of a list: the runs of elements other than a separator.
-/

namespace Words

variable {α : Type} {sep : α} {s u w t : List α} {i j n : Nat}

structure IsWord (sep : α) (i : Nat) (s : List α) (j : Nat) (w : List α) : Prop where
  ne_nil : w ≠ []
  not_mem : sep ∉ w
  between : ∃ l r, s = l ++ (w ++ r) ∧ j = i + l.length ∧ (l = [] ∨ ∃ l', l = l' ++ [sep])
    ∧ (r = [] ∨ ∃ r', r = sep :: r')

theorem word_cases (sep : α) (s : List α)
    : (∃ n, s = List.replicate n sep)
      ∨ ∃ n w, w ≠ [] ∧ sep ∉ w
          ∧ (s = List.replicate n sep ++ w ∨ ∃ r, s = List.replicate n sep ++ (w ++ sep :: r)) := by
  induction s with
  | nil => exact .inl ⟨0, rfl⟩
  | cons x s ih =>
    by_cases hx : x = sep
    . rw [hx]
      cases ih with
      | inl h =>
        obtain ⟨n, rfl⟩ := h
        exact .inl ⟨n + 1, rfl⟩
      | inr h =>
        obtain ⟨n, w, h1, h2, h3⟩ := h
        refine .inr ⟨n + 1, w, h1, h2, ?_⟩
        cases h3 with
        | inl h =>
          rw [h]
          exact .inl rfl
        | inr h =>
          obtain ⟨r, rfl⟩ := h
          exact .inr ⟨r, rfl⟩
    . right
      have hmem : ∀ w, sep ∉ w → sep ∉ x :: w := by
        intro w hw h
        cases List.mem_cons.mp h with
        | inl h => exact hx h.symm
        | inr h => exact hw h
      refine ⟨0, ?_⟩
      simp only [List.replicate_zero, List.nil_append]
      cases ih with
      | inl h =>
        obtain ⟨n, rfl⟩ := h
        cases n with
        | zero => exact ⟨[x], by simp, hmem [] (by simp), .inl rfl⟩
        | succ n => exact ⟨[x], by simp, hmem [] (by simp), .inr ⟨List.replicate n sep, rfl⟩⟩
      | inr h =>
        obtain ⟨n, w, h1, h2, h3⟩ := h
        cases n with
        | zero =>
          refine ⟨x :: w, by simp, hmem w h2, ?_⟩
          cases h3 with
          | inl h =>
            rw [h]
            exact .inl rfl
          | inr h =>
            obtain ⟨r, rfl⟩ := h
            exact .inr ⟨r, rfl⟩
        | succ n =>
          refine ⟨[x], by simp, hmem [] (by simp), ?_⟩
          cases h3 with
          | inl h => exact .inr ⟨List.replicate n sep ++ w, by rw [h]; rfl⟩
          | inr h =>
            obtain ⟨r, rfl⟩ := h
            exact .inr ⟨List.replicate n sep ++ (w ++ sep :: r), rfl⟩

section IsWord

theorem isWord_of_not_mem (h : sep ∉ u) : IsWord sep i u j w ↔ u ≠ [] ∧ j = i ∧ w = u := by
  constructor
  . rintro ⟨hne, -, l, r, rfl, rfl, hl, hr⟩
    obtain rfl | ⟨l', rfl⟩ := hl
    . obtain rfl | ⟨r', rfl⟩ := hr
      . rw [List.append_nil, List.nil_append]
        exact ⟨hne, rfl, rfl⟩
      . exact absurd (by simp) h
    . exact absurd (by simp) h
  . rintro ⟨hne, rfl, rfl⟩
    exact ⟨hne, h, [], [], by simp, rfl, .inl rfl, .inl rfl⟩

theorem isWord_append_sep (h : sep ∉ u)
    : IsWord sep i (u ++ sep :: s) j w ↔ (u ≠ [] ∧ j = i ∧ w = u)
        ∨ IsWord sep (i + u.length + 1) s j w := by
  constructor
  . rintro ⟨hne, hsep, l, r, heq, rfl, hl, hr⟩
    rw [List.append_eq_append_iff] at heq
    obtain ⟨l', rfl, heq⟩ | ⟨u', rfl, heq⟩ := heq
    . -- the word is behind the separator
      cases l' with
      | nil =>
        cases w with
        | nil => contradiction
        | cons x w =>
          cases heq
          exact absurd List.mem_cons_self hsep
      | cons x l' =>
        rw [List.cons_append, List.cons.injEq] at heq
        obtain ⟨rfl, rfl⟩ := heq
        refine .inr ⟨hne, hsep, l', r, rfl, ?_, ?_, hr⟩
        . rw [List.length_append, List.length_cons]
          omega
        . obtain hl | ⟨l'', hl⟩ := hl
          . simp at hl
          . rcases List.eq_nil_or_concat l' with rfl | ⟨front, y, rfl⟩
            . exact .inl rfl
            . right
              refine ⟨front, ?_⟩
              rw [List.concat_eq_append] at hl ⊢
              rw [← List.cons_append, ← List.append_assoc] at hl
              rw [(List.append_inj' hl rfl).2]
    . -- the word starts with the list
      have hl : l = [] := by
        obtain rfl | ⟨l', rfl⟩ := hl
        . rfl
        . exact absurd (by simp) h
      subst hl
      rw [List.nil_append] at h ⊢
      rw [List.append_eq_append_iff] at heq
      obtain ⟨r', rfl, heq⟩ | ⟨w', rfl, heq⟩ := heq
      . cases r' with
        | nil =>
          rw [List.append_nil]
          exact .inl ⟨hne, rfl, rfl⟩
        | cons x r' =>
          rw [List.cons_append] at heq
          obtain rfl | ⟨r'', rfl⟩ := hr
          . contradiction
          . rw [List.cons.injEq] at heq
            rw [heq.1] at h
            exact absurd (by simp) h
      . cases w' with
        | nil =>
          rw [List.append_nil]
          refine .inl ⟨?_, rfl, rfl⟩
          simpa using hne
        | cons x w' =>
          rw [List.cons_append, List.cons.injEq] at heq
          rw [heq.1] at hsep
          exact absurd (by simp) hsep
  . rintro (⟨hne, rfl, rfl⟩ | ⟨hne, hsep, l, r, rfl, rfl, hl, hr⟩)
    . exact ⟨hne, h, [], sep :: s, by simp, rfl, .inl rfl, .inr ⟨s, rfl⟩⟩
    . refine ⟨hne, hsep, u ++ sep :: l, r, by simp, ?_, .inr ?_, hr⟩
      . rw [List.length_append, List.length_cons]
        omega
      . obtain rfl | ⟨l', rfl⟩ := hl
        . exact ⟨u, rfl⟩
        . exact ⟨u ++ sep :: l', by simp⟩

end IsWord

section Words

variable [DecidableEq α]

def words.go (sep : α) (i : Nat) (u : List α) : (s : List α) → List (Nat × List α)
  | [] => if u = [] then [] else [(i, u)]
  | x :: s =>
    if x = sep then
      if u = [] then go sep (i + 1) [] s else (i, u) :: go sep (i + u.length + 1) [] s
    else
      go sep i (u ++ [x]) s

def words (sep : α) (i : Nat) (s : List α) : List (Nat × List α) := words.go sep i [] s

theorem words.mem_go (hu : sep ∉ u) : (j, w) ∈ go sep i u s ↔ IsWord sep i (u ++ s) j w := by
  induction s generalizing i u with
  | nil =>
    rw [go, List.append_nil, isWord_of_not_mem hu]
    split
    . next h => simp [h]
    . next h => simp [h]
  | cons x s ih =>
    rw [go]
    split
    . next hx =>
      subst hx
      rw [isWord_append_sep hu]
      split
      . next h =>
        rw [ih List.not_mem_nil, h]
        simp
      . next h =>
        rw [List.mem_cons, ih List.not_mem_nil, Prod.mk.injEq]
        simp [h]
    . next hx =>
      have hu' : sep ∉ u ++ [x] := by
        rw [List.mem_append, List.mem_singleton, not_or]
        exact ⟨hu, fun h => hx h.symm⟩
      rw [ih hu', List.append_assoc, List.singleton_append]

theorem mem_words : (j, w) ∈ words sep i s ↔ IsWord sep i s j w := words.mem_go List.not_mem_nil

theorem words.le_of_mem_go {x : Nat × List α} (h : x ∈ go sep i u s) : i ≤ x.1 := by
  induction s generalizing i u with
  | nil =>
    rw [go] at h
    split at h
    . contradiction
    . have hx := congrArg Prod.fst (List.mem_singleton.mp h)
      exact Nat.le_of_eq hx.symm
  | cons y s ih =>
    rw [go] at h
    split at h
    . split at h
      . exact Nat.le_of_succ_le (ih h)
      . cases List.mem_cons.mp h with
        | inl h => exact Nat.le_of_eq (congrArg Prod.fst h).symm
        | inr h =>
          have := ih h
          omega
    . exact ih h

theorem words.pairwise_go : (go sep i u s).Pairwise fun x y => x.1 < y.1 := by
  induction s generalizing i u with
  | nil =>
    rw [go]
    split
    . exact .nil
    . exact List.pairwise_singleton _ _
  | cons y s ih =>
    rw [go]
    split
    . split
      . exact ih
      . refine .cons ?_ ih
        intro x hx
        have := words.le_of_mem_go hx
        show i < x.1
        omega
    . exact ih

theorem words_pairwise : (words sep i s).Pairwise fun x y => x.1 < y.1 := words.pairwise_go

theorem words_row : words sep i (List.replicate n sep ++ s) = words sep (i + n) s := by
  induction n generalizing i with
  | zero => rfl
  | succ n ih =>
    rw [List.replicate_succ, List.cons_append, words, words.go, if_pos rfl, if_pos rfl,
      show i + (n + 1) = i + 1 + n by omega, ← ih]
    rfl

theorem words.go_append (hw : sep ∉ w) : go sep i u (w ++ s) = go sep i (u ++ w) s := by
  induction w generalizing u with
  | nil => rw [List.nil_append, List.append_nil]
  | cons x w ih =>
    rw [List.mem_cons, not_or] at hw
    rw [List.cons_append, go, if_neg (Ne.symm hw.1), ih hw.2, List.append_assoc,
      List.singleton_append]

theorem words_replicate : words sep i (List.replicate n sep) = [] := by
  have h := @words_row α sep [] i n _
  rw [List.append_nil] at h
  rw [h]
  rfl

theorem words_last (hne : w ≠ []) (hw : sep ∉ w)
    : words sep i (List.replicate n sep ++ w) = [(i + n, w)] := by
  have h := @words.go_append α sep [] [] w (i + n) _ hw
  rw [List.append_nil, List.nil_append] at h
  rw [words_row, words, h, words.go, if_neg hne]

theorem words_word (hne : w ≠ []) (hw : sep ∉ w)
    : words sep i (List.replicate n sep ++ (w ++ sep :: s))
        = (i + n, w) :: words sep (i + n + w.length + 1) s := by
  rw [words_row, words, words.go_append hw, List.nil_append, words.go, if_pos rfl, if_neg hne]
  rfl

end Words

end Words
