import RogOS.Lib.Cmd

/-!
Two runs of commands beside each other: from related states they return the same values in related
states, or stop with the same fault.
-/

namespace Cmd

variable {ε σ τ α β : Type} {R : σ → τ → Prop}

inductive SameResult (R : σ → τ → Prop) : Except ε (α × σ) → Except ε (α × τ) → Prop
  | ok {a : α} {s : σ} {t : τ} (related : R s t) : SameResult R (.ok (a, s)) (.ok (a, t))
  | error {e : ε} : SameResult R (.error e) (.error e)

def Related (R : σ → τ → Prop) (x : Cmd ε σ α) (y : Cmd ε τ α)
    : Prop := ∀ s t, R s t → SameResult R (x.run s) (y.run t)

theorem Related.run {x : Cmd ε σ α} {y : Cmd ε τ α} {s s' : σ} {t : τ} {a : α} (h : Related R x y)
    (hst : R s t) (hrun : x.run s = .ok (a, s')) : ∃ t', y.run t = .ok (a, t') ∧ R s' t' := by
  have hresult := h s t hst
  rw [hrun] at hresult
  generalize y.run t = r at hresult
  cases hresult with
  | ok related => exact ⟨_, rfl, related⟩

theorem related_pure {a : α}
    : Related R (pure a : Cmd ε σ α) (pure a : Cmd ε τ α) := fun _ _ h => .ok h

theorem related_throw {e : ε}
    : Related R (throw e : Cmd ε σ α) (throw e : Cmd ε τ α) := fun _ _ _ => .error

theorem related_modify {f : σ → σ} {g : τ → τ} (h : ∀ s t, R s t → R (f s) (g t))
    : Related R (modify f : Cmd ε σ Unit) (modify g : Cmd ε τ Unit) := fun s t hst =>
        .ok (h s t hst)

theorem related_assert {e : ε} {c : Prop} [Decidable c]
    : Related R (assert e c : Cmd ε σ Unit) (assert e c : Cmd ε τ Unit) := by
  intro s t h
  rw [exec_assert, exec_assert]
  split
  . exact .ok h
  . exact .error

theorem related_bind {x : Cmd ε σ α} {y : Cmd ε τ α} {f : α → Cmd ε σ β} {g : α → Cmd ε τ β}
    (hx : Related R x y) (hf : ∀ a, Related R (f a) (g a)) : Related R (x >>= f) (y >>= g) := by
  intro s t h
  have hresult := hx s t h
  rw [StateT.run_bind, StateT.run_bind]
  generalize x.run s = r, y.run t = r' at hresult
  cases hresult with
  | ok related => exact hf _ _ _ related
  | error => exact .error

theorem related_get_bind {f : σ → Cmd ε σ β} {g : τ → Cmd ε τ β}
    (h : ∀ s t, R s t → SameResult R ((f s).run s) ((g t).run t))
    : Related R (get >>= f) (get >>= g) := fun s t hst => h s t hst

section Covers

def Covers (x y : Cmd ε σ α) : Prop := ∀ s r, x.run s = .ok r → y.run s = .ok r

theorem covers_refl {x : Cmd ε σ α} : Covers x x := fun _ _ h => h

theorem covers_throw {e : ε} {y : Cmd ε σ α} : Covers (throw e) y := fun _ _ h => absurd h throw_run

theorem covers_bind {x y : Cmd ε σ α} {f g : α → Cmd ε σ β} (hx : Covers x y)
    (hf : ∀ a, Covers (f a) (g a))
    : Covers (x >>= f) (y >>= g) := by
  intro s r h
  rw [bind_run] at h ⊢
  obtain ⟨a, t, h1, h2⟩ := h
  exact ⟨a, t, hx _ _ h1, hf a _ _ h2⟩

theorem covers_unique {x : Nat → Cmd ε σ α} (h : ∀ n, Covers (x n) (x (n + 1))) {n m : Nat} {s : σ}
    {r r' : α × σ} (hn : (x n).run s = .ok r) (hm : (x m).run s = .ok r') : r = r' := by
  have hle : ∀ n k, Covers (x n) (x (n + k)) := by
    intro n k
    induction k with
    | zero => exact covers_refl
    | succ k ih => exact fun s r hr => h _ s r (ih s r hr)
  have h1 := hle n m _ _ hn
  have h2 := hle m n _ _ hm
  rw [Nat.add_comm m n, h1] at h2
  exact Except.ok.inj h2

end Covers

end Cmd
