import Mathlib.Logic.Relation

/-!
Commands over a state `σ` that may stop with a fault `ε`, together with the rules that turn the
success of a compound command into the success of its parts.
-/

abbrev Cmd (ε σ α : Type) := StateT σ (Except ε) α

namespace Cmd

variable {ε σ τ α β : Type}

def assert (e : ε) (c : Prop) [Decidable c] : Cmd ε σ Unit :=
  if c then pure () else throw e

def zoom (view : τ → σ) (put : τ → σ → τ) (x : Cmd ε σ α) : Cmd ε τ α := fun t =>
  match x.run (view t) with
  | .ok (a, s) => .ok (a, put t s)
  | .error e => .error e

theorem bind_run {x : Cmd ε σ α} {f : α → Cmd ε σ β} {s : σ} {r : β × σ}
    : (x >>= f).run s = .ok r ↔ ∃ a s', x.run s = .ok (a, s') ∧ (f a).run s' = .ok r := by
  rw [StateT.run_bind]
  cases h : x.run s with
  | error e => simp [bind, Except.bind]
  | ok p =>
    simp only [bind, Except.bind]
    constructor
    . intro h'
      exact ⟨p.1, p.2, rfl, h'⟩
    . rintro ⟨a, s', h1, h2⟩
      cases h1
      exact h2

theorem pure_run {a : α} {s : σ} {r : α × σ}
    : (pure a : Cmd ε σ α).run s = .ok r ↔ r = (a, s) := by
  rw [StateT.run_pure]
  simp [pure, Except.pure, eq_comm]

theorem map_run {x : Cmd ε σ α} {f : α → β} {s : σ} {r : β × σ}
    : (do pure (f (← x)) : Cmd ε σ β).run s = .ok r ↔ ∃ a, x.run s = .ok (a, r.2) ∧ r.1 = f a := by
  simp only [bind_run, pure_run]
  constructor
  . rintro ⟨a, s', h1, h2⟩
    rw [h2]
    exact ⟨a, h1, rfl⟩
  . rintro ⟨a, h1, h2⟩
    exact ⟨a, r.2, h1, by rw [← h2]⟩

theorem throw_run {e : ε} {s : σ} {r : α × σ} : ¬ (throw e : Cmd ε σ α).run s = .ok r := by
  simp [throw, throwThe, MonadExceptOf.throw, StateT.run, StateT.lift, bind, Except.bind]

theorem get_run {s : σ} {r : σ × σ} : (get : Cmd ε σ σ).run s = .ok r ↔ r = (s, s) := by
  rw [StateT.run_get]
  simp [pure, Except.pure, eq_comm]

theorem modify_run {f : σ → σ} {s : σ} {r : Unit × σ}
    : (modify f : Cmd ε σ Unit).run s = .ok r ↔ r = ((), f s) := by
  rw [StateT.run_modify]
  simp [pure, Except.pure, eq_comm]

theorem assert_run {e : ε} {c : Prop} [Decidable c] {s : σ} {r : Unit × σ}
    : (assert e c : Cmd ε σ Unit).run s = .ok r ↔ c ∧ r = ((), s) := by
  unfold assert
  split
  . next h =>
    rw [pure_run]
    simp [h]
  . next h => exact iff_of_false throw_run fun hr => h hr.1

theorem zoom_run {view : τ → σ} {put : τ → σ → τ} {x : Cmd ε σ α} {t : τ} {r : α × τ}
    : (zoom view put x).run t = .ok r
        ↔
      ∃ s, x.run (view t) = .ok (r.1, s) ∧ r.2 = put t s := by
  obtain ⟨a, t'⟩ := r
  unfold zoom
  simp only [StateT.run]
  cases h : x (view t) with
  | error e => simp
  | ok p =>
    obtain ⟨b, s⟩ := p
    simp only [Except.ok.injEq, Prod.mk.injEq]
    constructor
    . rintro ⟨rfl, rfl⟩
      exact ⟨s, ⟨rfl, rfl⟩, rfl⟩
    . rintro ⟨s', ⟨rfl, rfl⟩, rfl⟩
      exact ⟨rfl, rfl⟩

def forget (x : Cmd ε σ α) : Cmd ε σ Unit := do
  let _ ← x
  pure ()

theorem forget_run {x : Cmd ε σ α} {s : σ} {r : Unit × σ}
    : (forget x).run s = .ok r ↔ ∃ a, x.run s = .ok (a, r.2) := by
  simp only [forget, bind_run, pure_run]
  constructor
  . rintro ⟨a, s', h1, rfl⟩
    exact ⟨a, h1⟩
  . rintro ⟨a, h1⟩
    exact ⟨a, r.2, h1, rfl⟩

section Exec

/-! What a command does, one statement after the other. -/

theorem exec_pure {a : α} {s : σ} : (pure a : Cmd ε σ α).run s = .ok (a, s) := rfl

theorem exec_throw {e : ε} {s : σ} : (throw e : Cmd ε σ α).run s = .error e := rfl

theorem exec_modify {f : σ → σ} {s : σ} : (modify f : Cmd ε σ Unit).run s = .ok ((), f s) := rfl

theorem exec_assert {e : ε} {c : Prop} [Decidable c] {s : σ}
    : (assert e c : Cmd ε σ Unit).run s = if c then .ok ((), s) else .error e := by
  unfold assert
  split <;> rfl

theorem exec_get_bind {f : σ → Cmd ε σ β} {s : σ} : (get >>= f).run s = (f s).run s := rfl

theorem exec_modify_bind {g : σ → σ} {f : Unit → Cmd ε σ β} {s : σ}
    : (modify g >>= f).run s = (f ()).run (g s) := rfl

theorem exec_pure_bind {a : α} {f : α → Cmd ε σ β} {s : σ}
    : (pure a >>= f).run s = (f a).run s := rfl

theorem exec_assert_bind {e : ε} {c : Prop} [Decidable c] {f : Unit → Cmd ε σ β} {s : σ}
    : (assert e c >>= f).run s = if c then (f ()).run s else .error e := by
  unfold assert
  split <;> rfl

theorem exec_bind {x : Cmd ε σ α} {f : α → Cmd ε σ β} {s s' : σ} {a : α} (h : x.run s = .ok (a, s'))
    : (x >>= f).run s = (f a).run s' := by
  rw [StateT.run_bind, h]
  rfl

theorem exec_zoom {view : τ → σ} {put : τ → σ → τ} {x : Cmd ε σ α} {t : τ} {s : σ} {a : α}
    (h : x.run (view t) = .ok (a, s)) : (zoom view put x).run t = .ok (a, put t s) := by
  rw [zoom_run]
  exact ⟨s, h, rfl⟩

end Exec

section Keeps

variable {γ : Type} {f : σ → γ}

def Keeps (f : σ → γ) (x : Cmd ε σ α) : Prop := ∀ s r, x.run s = .ok r → f r.2 = f s

theorem keeps_pure {a : α} : Keeps f (pure a : Cmd ε σ α) := by
  intro s r h
  rw [pure_run] at h
  rw [h]

theorem keeps_throw {e : ε} : Keeps f (throw e : Cmd ε σ α) := by
  intro s r h
  exact absurd h throw_run

theorem keeps_get : Keeps f (get : Cmd ε σ σ) := by
  intro s r h
  rw [get_run] at h
  rw [h]

theorem keeps_modify {g : σ → σ} (hg : ∀ s, f (g s) = f s) : Keeps f (modify g : Cmd ε σ Unit) := by
  intro s r h
  rw [modify_run] at h
  rw [h]
  exact hg s

theorem keeps_assert {e : ε} {c : Prop} [Decidable c] : Keeps f (assert e c : Cmd ε σ Unit) := by
  intro s r h
  rw [assert_run] at h
  rw [h.2]

theorem keeps_bind {x : Cmd ε σ α} {g : α → Cmd ε σ β} (hx : Keeps f x) (hg : ∀ a, Keeps f (g a))
    : Keeps f (x >>= g) := by
  intro s r h
  rw [bind_run] at h
  obtain ⟨a, s', h1, h2⟩ := h
  rw [hg a _ _ h2]
  exact hx _ _ h1

end Keeps

section Stable

variable {P : σ → Prop}

def Stable (P : σ → Prop) (x : Cmd ε σ α) : Prop := ∀ s r, P s → x.run s = .ok r → P r.2

theorem stable_of_keeps {γ : Type} {f : σ → γ} {Q : γ → Prop} {x : Cmd ε σ α} (h : Keeps f x)
    : Stable (fun s => Q (f s)) x := by
  intro s r hs hr
  rw [h s r hr]
  exact hs

theorem stable_pure {a : α} : Stable P (pure a : Cmd ε σ α) := by
  intro s r hs h
  rw [pure_run] at h
  rw [h]
  exact hs

theorem stable_throw {e : ε} : Stable P (throw e : Cmd ε σ α) := by
  intro s r _ h
  exact absurd h throw_run

theorem stable_get : Stable P (get : Cmd ε σ σ) := by
  intro s r hs h
  rw [get_run] at h
  rw [h]
  exact hs

theorem stable_modify {g : σ → σ} (hg : ∀ s, P s → P (g s))
    : Stable P (modify g : Cmd ε σ Unit) := by
  intro s r hs h
  rw [modify_run] at h
  rw [h]
  exact hg s hs

theorem stable_assert {e : ε} {c : Prop} [Decidable c] : Stable P (assert e c : Cmd ε σ Unit) := by
  intro s r hs h
  rw [assert_run] at h
  rw [h.2]
  exact hs

theorem stable_bind {x : Cmd ε σ α} {g : α → Cmd ε σ β} (hx : Stable P x) (hg : ∀ a, Stable P (g a))
    : Stable P (x >>= g) := by
  intro s r hs h
  rw [bind_run] at h
  obtain ⟨a, s', h1, h2⟩ := h
  exact hg a _ _ (hx _ _ hs h1) h2

end Stable

section Yields

variable {P : α → Prop} {Q : β → Prop}

def Yields (x : Cmd ε σ α) (P : α → Prop) : Prop := ∀ s r, x.run s = .ok r → P r.1

theorem yields_pure {a : α} (h : P a) : Yields (pure a : Cmd ε σ α) P := by
  intro s r hr
  rw [pure_run] at hr
  rw [hr]
  exact h

theorem yields_throw {e : ε} : Yields (throw e : Cmd ε σ α) P := by
  intro s r h
  exact absurd h throw_run

theorem yields_bind {x : Cmd ε σ α} {g : α → Cmd ε σ β} (hx : Yields x P)
    (hg : ∀ a, P a → Yields (g a) Q)
    : Yields (x >>= g) Q := by
  intro s r h
  rw [bind_run] at h
  obtain ⟨a, s', h1, h2⟩ := h
  exact hg a (hx _ _ h1) _ _ h2

theorem yields_seq {x : Cmd ε σ α} {g : α → Cmd ε σ β} (hg : ∀ a, Yields (g a) Q)
    : Yields (x >>= g) Q :=
  yields_bind (P := fun _ => True) (fun _ _ _ => trivial) fun a _ => hg a

end Yields

section Avoids

variable {e e' : ε}

def Avoids (e : ε) (x : Cmd ε σ α) : Prop := ∀ s, x.run s ≠ .error e

theorem avoids_pure {a : α} : Avoids e (pure a : Cmd ε σ α) := by
  intro s h
  contradiction

theorem avoids_get : Avoids e (get : Cmd ε σ σ) := by
  intro s h
  contradiction

theorem avoids_modify {f : σ → σ} : Avoids e (modify f : Cmd ε σ Unit) := by
  intro s h
  contradiction

theorem avoids_throw (hne : e' ≠ e) : Avoids e (throw e' : Cmd ε σ α) := by
  intro s h
  rw [exec_throw] at h
  exact hne (Except.error.inj h)

theorem avoids_assert {c : Prop} [Decidable c] (h : c ∨ e' ≠ e)
    : Avoids e (assert e' c : Cmd ε σ Unit) := by
  intro s
  rw [exec_assert]
  split
  . exact fun h => by contradiction
  . next hc =>
    intro herr
    exact h.resolve_left hc (Except.error.inj herr)

theorem bind_ne_error {x : Cmd ε σ α} {g : α → Cmd ε σ β} {s : σ} (hx : x.run s ≠ .error e)
    (hg : ∀ a s', x.run s = .ok (a, s') → (g a).run s' ≠ .error e)
    : (x >>= g).run s ≠ .error e := by
  cases h : x.run s with
  | error e' =>
    rw [StateT.run_bind, h]
    intro h'
    rw [Except.error.inj h'] at h
    exact hx h
  | ok p =>
    rw [exec_bind h]
    exact hg p.1 p.2 h

theorem avoids_bind {x : Cmd ε σ α} {g : α → Cmd ε σ β} (hx : Avoids e x)
    (hg : ∀ s a s', x.run s = .ok (a, s') → (g a).run s' ≠ .error e) : Avoids e (x >>= g) :=
  fun s => bind_ne_error (hx s) (hg s)

theorem avoids_zoom {view : τ → σ} {put : τ → σ → τ} {x : Cmd ε σ α} (hx : Avoids e x)
    : Avoids e (zoom view put x) := by
  intro t h
  unfold zoom at h
  simp only [StateT.run] at h
  cases hv : x (view t) with
  | error e' =>
    rw [hv] at h
    rw [Except.error.inj h] at hv
    exact hx _ hv
  | ok p =>
    rw [hv] at h
    contradiction

end Avoids

section Succeeds

def Succeeds (x : Cmd ε σ α) (s : σ) : Prop := ∃ r, x.run s = .ok r

theorem succeeds_of_run {x : Cmd ε σ α} {s : σ} {r : α × σ} (h : x.run s = .ok r)
    : Succeeds x s := ⟨r, h⟩

theorem succeeds_pure {a : α} {s : σ} : Succeeds (pure a : Cmd ε σ α) s := ⟨(a, s), rfl⟩

theorem succeeds_bind {x : Cmd ε σ α} {f : α → Cmd ε σ β} {s : σ}
    : Succeeds (x >>= f) s ↔ ∃ a s', x.run s = .ok (a, s') ∧ Succeeds (f a) s' := by
  constructor
  . rintro ⟨r, h⟩
    rw [bind_run] at h
    obtain ⟨a, s', h1, h2⟩ := h
    exact ⟨a, s', h1, r, h2⟩
  . rintro ⟨a, s', h1, r, h2⟩
    exact ⟨r, bind_run.mpr ⟨a, s', h1, h2⟩⟩

theorem succeeds_bind_of_run {x : Cmd ε σ α} {f : α → Cmd ε σ β} {s s' : σ} {a : α}
    (h : x.run s = .ok (a, s'))
    : Succeeds (x >>= f) s ↔ Succeeds (f a) s' := by
  unfold Succeeds
  rw [exec_bind h]

theorem succeeds_assert_bind {e : ε} {c : Prop} [Decidable c] {f : Unit → Cmd ε σ β} {s : σ}
    : Succeeds (assert e c >>= f) s ↔ c ∧ Succeeds (f ()) s := by
  unfold Succeeds
  rw [exec_assert_bind]
  split
  . next h => simp [h]
  . next h => simp [h]

end Succeeds

section Eval

def returns (x : Cmd ε σ α) (s : σ) (p : α → Bool) : Bool :=
  match x.run s with
  | .ok (a, _) => p a
  | .error _ => false

def after (x : Cmd ε σ α) (s : σ) : σ :=
  match x.run s with
  | .ok (_, s') => s'
  | .error _ => s

theorem returns_bind {x : Cmd ε σ α} {f : α → Cmd ε σ β} {s s' : σ} {a : α} {p : β → Bool}
    (h : x.run s = .ok (a, s'))
    : (x >>= f).returns s p = (f a).returns s' p := by
  rw [returns, exec_bind h, returns]

theorem run_of_returns {x : Cmd ε σ α} {s : σ} {p : α → Bool} (h : x.returns s p = true)
    : ∃ a, x.run s = .ok (a, x.after s) ∧ p a = true := by
  unfold returns after at *
  cases hx : x.run s with
  | error e =>
    rw [hx] at h
    contradiction
  | ok q =>
    rw [hx] at h
    exact ⟨q.1, rfl, h⟩

end Eval

section Run

variable {op : Type}

def Step (exec : op → Cmd ε σ α) (guard : σ → op → Prop) (s s' : σ) : Prop :=
  ∃ o a, guard s o ∧ (exec o).run s = .ok (a, s')

abbrev Reach (exec : op → Cmd ε σ α) (guard : σ → op → Prop) : σ → σ → Prop :=
  Relation.ReflTransGen (Step exec guard)

theorem Reach.invariant {exec : op → Cmd ε σ α} {guard : σ → op → Prop} {P : σ → Prop}
    (hstep : ∀ s o a s', P s → guard s o → (exec o).run s = .ok (a, s') → P s')
    {s s' : σ} (hs : P s) (hr : Reach exec guard s s') : P s' := by
  induction hr with
  | refl => exact hs
  | tail _ h ih =>
    obtain ⟨o, a, hg, hrun⟩ := h
    exact hstep _ o a _ ih hg hrun

section Eval

def returnsAll (exec : op → Cmd ε σ α) : List op → σ → Bool
  | [], _ => true
  | o :: os, s => (exec o).returns s (fun _ => true) && returnsAll exec os ((exec o).after s)

def afterAll (exec : op → Cmd ε σ α) : List op → σ → σ
  | [], s => s
  | o :: os, s => afterAll exec os ((exec o).after s)

theorem reach_of_returnsAll {exec : op → Cmd ε σ α} {guard : σ → op → Prop} {os : List op} {s : σ}
    (hg : ∀ o ∈ os, ∀ s, guard s o) (h : returnsAll exec os s = true)
    : Reach exec guard s (afterAll exec os s) := by
  induction os generalizing s with
  | nil => exact .refl
  | cons o os ih =>
    rw [returnsAll, Bool.and_eq_true] at h
    obtain ⟨a, hrun, -⟩ := run_of_returns h.1
    have hstep : Step exec guard s ((exec o).after s) := ⟨o, a, hg o List.mem_cons_self s, hrun⟩
    exact .head hstep (ih (fun o' ho' => hg o' (List.mem_cons_of_mem _ ho')) h.2)

def returnsWhile (exec : op → Cmd ε σ α) (ok : σ → op → Bool) : List op → σ → Bool
  | [], _ => true
  | o :: os, s =>
    ok s o && (exec o).returns s (fun _ => true) && returnsWhile exec ok os ((exec o).after s)

theorem reach_of_returnsWhile {exec : op → Cmd ε σ α} {guard : σ → op → Prop} {k : σ → op → Bool}
    {os : List op} {s : σ} (hok : ∀ s, ∀ o ∈ os, k s o = true → guard s o)
    (h : returnsWhile exec k os s = true)
    : Reach exec guard s (afterAll exec os s) := by
  induction os generalizing s with
  | nil => exact .refl
  | cons o os ih =>
    rw [returnsWhile, Bool.and_eq_true, Bool.and_eq_true] at h
    obtain ⟨a, hrun, -⟩ := run_of_returns h.1.2
    have hstep : Step exec guard s ((exec o).after s) :=
      ⟨o, a, hok s o List.mem_cons_self h.1.1, hrun⟩
    exact .head hstep (ih (fun s' o' ho' => hok s' o' (List.mem_cons_of_mem _ ho')) h.2)

end Eval

end Run

end Cmd
