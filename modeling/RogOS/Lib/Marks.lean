import Mathlib.Data.List.Basic

/-!
Items that are visited one after the other. Each has a site, where a mark is looked for; an item
without a mark is written, which sets its mark and erases the marks in its region.
-/

namespace Marks

variable {ι : Type}

structure Items (ι : Type) where
  site : ι → Nat
  region : ι → Nat → Prop
  readable : ι → Prop
  writable : ι → Prop
  outside : ∀ i, ¬ region i (site i)

variable {I : Items ι} {M M' : Nat → Prop} {i j k : ι} {l log pre mid post : List ι} {y : Nat}

namespace Items

def write (I : Items ι) (M : Nat → Prop) (i : ι)
    : Nat → Prop := fun y => y = I.site i ∨ M y ∧ ¬ I.region i y

inductive Visits (I : Items ι) : (Nat → Prop) → List ι → (Nat → Prop) → List ι → Prop
  | nil {M : Nat → Prop} : Visits I M [] M []
  | marked {M M' : Nat → Prop} {i : ι} {l log : List ι} (read : I.readable i) (mark : M (I.site i))
      (rest : Visits I M l M' log)
    : Visits I M (i :: l) M' log
  | blank {M M' : Nat → Prop} {i : ι} {l log : List ι} (read : I.readable i)
      (blank : ¬ M (I.site i)) (write : I.writable i)
      (rest : Visits I (I.write M i) l M' log) : Visits I M (i :: l) M' (i :: log)

structure Settled (I : Items ι) (M : Nat → Prop) (l : List ι) (M' : Nat → Prop) (log : List ι)
    : Prop where
  marked : ∀ i ∈ l, M' (I.site i)
  kept : ∀ i ∈ l, M (I.site i) → i ∉ log ∧ ∀ j ∈ log, ¬ I.region j (I.site i)

inductive Blank (I : Items ι) (M : Nat → Prop) : List ι → Nat → Prop
  | first {pre : List ι} {y : Nat} (blank : ¬ M y) (none : ∀ j ∈ pre, I.site j ≠ y)
      : Blank I M pre y
  | erased {pre mid : List ι} {k : ι} {y : Nat} (blank : Blank I M pre (I.site k))
      (region : I.region k y)
      (none : ∀ j ∈ mid, I.site j ≠ y) : Blank I M (pre ++ k :: mid) y

/--
The items can be read, and those that are blank when they are visited can be written. The region of
such an item contains no site with a mark, and where it contains the site of an item, there is one
with this site behind it.
-/
structure Fits (I : Items ι) (M : Nat → Prop) (l : List ι) : Prop where
  readable : ∀ i ∈ l, I.readable i
  writable : ∀ pre i post, l = pre ++ i :: post → I.Blank M pre (I.site i) → I.writable i
  kept : ∀ pre i post, l = pre ++ i :: post → I.Blank M pre (I.site i) → ∀ j ∈ l,
    I.region i (I.site j) → ¬ M (I.site j)
  again : ∀ pre i post, l = pre ++ i :: post → I.Blank M pre (I.site i) → ∀ j ∈ l,
    I.region i (I.site j)
    → ∃ k ∈ post, I.site k = I.site j

def visit (I : Items ι) (M : Nat → Prop) (i : ι)
    : Nat → Prop := fun y => y = I.site i ∨ M y ∧ (M (I.site i) ∨ ¬ I.region i y)

theorem visit_of_mark (h : M (I.site i)) : I.visit M i = M := by
  funext y
  apply propext
  constructor
  . intro hy
    cases hy with
    | inl heq => rwa [heq]
    | inr hy => exact hy.1
  . exact fun hy => .inr ⟨hy, .inl h⟩

theorem visit_of_blank (h : ¬ M (I.site i)) : I.visit M i = I.write M i := by
  funext y
  rw [visit, write, or_iff_right h]

theorem blank_nil : I.Blank M [] y ↔ ¬ M y := by
  constructor
  . intro h
    generalize hl : ([] : List ι) = l at h
    cases h with
    | first blank => exact blank
    | erased => simp at hl
  . exact fun h => .first h (by simp)

theorem blank_cons : I.Blank M (i :: l) y ↔ I.Blank (I.visit M i) l y := by
  constructor
  . intro h
    generalize hl : i :: l = l' at h
    induction h generalizing l with
    | @first pre y blank none =>
      subst hl
      apply Blank.first
      . rintro (heq | hmark)
        . exact none i List.mem_cons_self heq.symm
        . exact blank hmark.1
      . exact fun j hj => none j (List.mem_cons_of_mem _ hj)
    | @erased pre mid k y blank region none ih =>
      cases pre with
      | nil =>
        obtain ⟨rfl, rfl⟩ := List.cons.inj hl
        rw [blank_nil] at blank
        apply Blank.first _ none
        rintro (heq | hmark)
        . rw [heq] at region
          exact I.outside i region
        . exact (hmark.2.resolve_left blank) region
      | cons x pre =>
        obtain ⟨rfl, rfl⟩ := List.cons.inj hl
        exact .erased (ih rfl) region none
  . intro h
    induction h with
    | @first pre y blank none =>
      have hsite : I.site i ≠ y := fun heq => blank (.inl heq.symm)
      by_cases hmark : M y
      . obtain ⟨hi, hregion⟩ : ¬ M (I.site i) ∧ I.region i y := by
          have := fun h => blank (.inr ⟨hmark, h⟩)
          exact ⟨fun hi => this (.inl hi), Classical.not_not.mp fun hr => this (.inr hr)⟩
        exact @Blank.erased _ I M [] pre i y (blank_nil.mpr hi) hregion none
      . apply Blank.first hmark
        intro j hj
        cases List.mem_cons.mp hj with
        | inl heq => rwa [heq]
        | inr hj => exact none j hj
    | @erased pre mid k y _ region none ih =>
      exact @Blank.erased _ I M (i :: pre) mid k y ih region none

theorem Visits.marks (h : I.Visits M l M' log) : M' y ↔ ¬ I.Blank M l y := by
  induction h with
  | nil => rw [blank_nil, not_not]
  | marked _ mark _ ih => rw [ih, blank_cons, visit_of_mark mark]
  | blank _ blank _ _ ih => rw [ih, blank_cons, visit_of_blank blank]

theorem split_cons : (∃ pre post, i :: l = pre ++ j :: post ∧ I.Blank M pre (I.site j))
    ↔ j = i ∧ ¬ M (I.site i) ∨ ∃ pre post, l = pre ++ j :: post
        ∧ I.Blank (I.visit M i) pre (I.site j) := by
  constructor
  . rintro ⟨pre, post, hl, hblank⟩
    cases pre with
    | nil =>
      obtain ⟨rfl, -⟩ := List.cons.inj hl
      exact .inl ⟨rfl, blank_nil.mp hblank⟩
    | cons x pre =>
      obtain ⟨rfl, rfl⟩ := List.cons.inj hl
      exact .inr ⟨pre, post, rfl, blank_cons.mp hblank⟩
  . rintro (⟨rfl, hblank⟩ | ⟨pre, post, rfl, hblank⟩)
    . exact ⟨[], l, rfl, blank_nil.mpr hblank⟩
    . exact ⟨i :: pre, post, rfl, blank_cons.mpr hblank⟩

theorem Visits.mem_log (h : I.Visits M l M' log)
    : j ∈ log ↔ ∃ pre post, l = pre ++ j :: post ∧ I.Blank M pre (I.site j) := by
  induction h with
  | nil => simp
  | @marked M M' i l log _ mark _ ih =>
    rw [split_cons, visit_of_mark mark, ih]
    exact (or_iff_right fun h => h.2 mark).symm
  | @blank M M' i l log _ blank _ _ ih =>
    rw [split_cons, visit_of_blank blank, ← ih, List.mem_cons]
    exact or_congr_left (and_iff_left blank).symm

theorem Visits.readable (h : I.Visits M l M' log) (hi : i ∈ l) : I.readable i := by
  induction h with
  | nil => cases hi
  | marked read _ _ ih =>
    cases List.mem_cons.mp hi with
    | inl heq => rwa [heq]
    | inr hi => exact ih hi
  | blank read _ _ _ ih =>
    cases List.mem_cons.mp hi with
    | inl heq => rwa [heq]
    | inr hi => exact ih hi

theorem Visits.writable (h : I.Visits M l M' log) (hi : i ∈ log) : I.writable i := by
  induction h with
  | nil => cases hi
  | marked _ _ _ ih => exact ih hi
  | blank _ _ write _ ih =>
    cases List.mem_cons.mp hi with
    | inl heq => rwa [heq]
    | inr hi => exact ih hi

theorem Fits.blank_of_log (hfits : I.Fits M l) (h : I.Visits M l M' log) (hj : j ∈ log)
    : ¬ M (I.site j) := by
  intro hmark
  obtain ⟨pre, post, hl, hblank⟩ := h.mem_log.mp hj
  generalize hy : I.site j = y at hblank hmark
  cases hblank with
  | first blank => exact blank hmark
  | @erased pre mid k _ blank region none =>
    have hjl : j ∈ l := by rw [hl]; exact List.mem_append_right _ List.mem_cons_self
    rw [← hy] at region hmark
    refine hfits.kept pre k (mid ++ j :: post) ?_ blank j hjl region hmark
    rw [hl, List.append_assoc, List.cons_append]

theorem Visits.mem_of_log (h : I.Visits M l M' log) (hj : j ∈ log) : j ∈ l := by
  obtain ⟨pre, post, hl, -⟩ := h.mem_log.mp hj
  rw [hl]
  exact List.mem_append_right _ List.mem_cons_self

theorem Fits.settled (hfits : I.Fits M l) (h : I.Visits M l M' log) : I.Settled M l M' log := by
  constructor
  . intro i hi
    rw [h.marks]
    intro hblank
    generalize hy : I.site i = y at hblank
    cases hblank with
    | first _ none => exact none i hi hy
    | @erased pre mid k _ blank region none =>
      rw [← hy] at region none
      obtain ⟨j, hj, hsite⟩ := hfits.again pre k mid rfl blank i hi region
      exact none j hj hsite
  . intro i hi hmark
    refine ⟨fun hlog => hfits.blank_of_log h hlog hmark, ?_⟩
    intro j hj hregion
    obtain ⟨pre, post, hl, hblank⟩ := h.mem_log.mp hj
    exact hfits.kept pre j post hl hblank i hi hregion hmark

theorem Settled.fits (h : I.Visits M l M' log) (hsettled : I.Settled M l M' log) : I.Fits M l := by
  have hlog : ∀ pre i post, l = pre ++ i :: post → I.Blank M pre (I.site i) → i ∈ log :=
    fun pre i post hl hblank => h.mem_log.mpr ⟨pre, post, hl, hblank⟩
  constructor
  . exact fun i hi => h.readable hi
  . exact fun pre i post hl hblank => h.writable (hlog pre i post hl hblank)
  . intro pre i post hl hblank j hj hregion hmark
    exact (hsettled.kept j hj hmark).2 i (hlog pre i post hl hblank) hregion
  . intro pre i post hl hblank j hj hregion
    by_contra hnone
    apply h.marks.mp (hsettled.marked j hj)
    rw [hl]
    apply Blank.erased hblank hregion
    intro k hk hsite
    exact hnone ⟨k, hk, hsite⟩

end Items

end Marks
