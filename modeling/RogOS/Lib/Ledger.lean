import Mathlib.Algebra.Group.Basic
import RogOS.Lib.Cmd

/-!
Accounts of what commands take from a state and give back to it: a measure of the state in a
commutative group, and by how much a command moves it.
-/

namespace Cmd

variable {ε σ α β M : Type} [AddCommGroup M] {net : σ → M} {m : M} {g : α → M} {k : β → M}

def Moves (net : σ → M) (x : Cmd ε σ α) (g : α → M)
    : Prop := ∀ s r, x.run s = .ok r → net r.2 = net s + g r.1

theorem moves_of_keeps {x : Cmd ε σ α} (h : Keeps net x) : Moves net x fun _ => 0 := by
  intro s r hr
  rw [add_zero]
  exact h s r hr

theorem moves_pure {a : α} (h : g a = 0) : Moves net (pure a : Cmd ε σ α) g := by
  intro s r hr
  rw [pure_run] at hr
  rw [hr, h, add_zero]

theorem moves_throw {e : ε} : Moves net (throw e : Cmd ε σ α) g := by
  intro s r hr
  exact absurd hr throw_run

theorem moves_bind {x : Cmd ε σ α} {f : α → Cmd ε σ β} (hx : Moves net x g)
    (hf : ∀ a, Moves net (f a) fun b => k b - g a) : Moves net (x >>= f) k := by
  intro s r hr
  rw [bind_run] at hr
  obtain ⟨a, s', h1, h2⟩ := hr
  rw [hf a _ _ h2, hx _ _ h1, add_assoc, add_sub_cancel]

theorem moves_seq {x : Cmd ε σ α} {f : α → Cmd ε σ β} (hx : Moves net x fun _ => 0)
    (hf : ∀ a, Moves net (f a) k)
    : Moves net (x >>= f) k := by
  apply moves_bind hx
  intro a
  simpa only [sub_zero] using hf a

theorem moves_seq_of_yields {x : Cmd ε σ α} {P : α → Prop} {f : α → Cmd ε σ β}
    (hx : Moves net x fun _ => 0) (hP : Yields x P)
    (hf : ∀ a, P a → Moves net (f a) k) : Moves net (x >>= f) k := by
  intro s r hr
  rw [bind_run] at hr
  obtain ⟨a, s', h1, h2⟩ := hr
  rw [hf a (hP _ _ h1) _ _ h2, hx _ _ h1, add_zero]

theorem moves_get_bind {f : σ → Cmd ε σ β} (hf : ∀ s, Moves net (f s) k)
    : Moves net (get >>= f) k :=
  moves_seq (moves_of_keeps keeps_get) hf

theorem moves_assert_bind {e : ε} {c : Prop} [Decidable c] {f : Unit → Cmd ε σ β}
    (hf : Moves net (f ()) k)
    : Moves net (assert e c >>= f) k :=
  moves_seq (moves_of_keeps keeps_assert) fun _ => hf

theorem Moves.congr {x : Cmd ε σ α} {g' : α → M} (hx : Moves net x g) (h : ∀ a, g a = g' a)
    : Moves net x g' := by
  intro s r hr
  rw [← h]
  exact hx s r hr

section From

variable {P : σ → Prop}

def MovesFrom (P : σ → Prop) (net : σ → M) (x : Cmd ε σ α) (g : α → M) : Prop :=
  ∀ s r, P s → x.run s = .ok r → net r.2 = net s + g r.1

theorem Moves.movesFrom {x : Cmd ε σ α} (hx : Moves net x g)
    : MovesFrom P net x g := fun s r _ hr => hx s r hr

theorem movesFrom_bind {x : Cmd ε σ α} {f : α → Cmd ε σ β} (hP : Stable P x) (hx : Moves net x g)
    (hf : ∀ a, MovesFrom P net (f a) fun b => k b - g a) : MovesFrom P net (x >>= f) k := by
  intro s r hs hr
  rw [bind_run] at hr
  obtain ⟨a, s', h1, h2⟩ := hr
  rw [hf a _ _ (hP _ _ hs h1) h2, hx _ _ h1, add_assoc, add_sub_cancel]

theorem movesFrom_seq {x : Cmd ε σ α} {f : α → Cmd ε σ β} (hP : Stable P x)
    (hx : Moves net x fun _ => 0)
    (hf : ∀ a, MovesFrom P net (f a) k) : MovesFrom P net (x >>= f) k := by
  apply movesFrom_bind hP hx
  intro a
  simpa only [sub_zero] using hf a

theorem movesFrom_last {x : Cmd ε σ α} {f : α → Cmd ε σ β} (hx : MovesFrom P net x g)
    (hf : ∀ a, Moves net (f a) fun b => k b - g a) : MovesFrom P net (x >>= f) k := by
  intro s r hs hr
  rw [bind_run] at hr
  obtain ⟨a, s', h1, h2⟩ := hr
  rw [hf a _ _ h2, hx _ _ hs h1, add_assoc, add_sub_cancel]

theorem MovesFrom.congr {x : Cmd ε σ α} {g' : α → M} (hx : MovesFrom P net x g)
    (h : ∀ a, g a = g' a)
    : MovesFrom P net x g' := by
  intro s r hs hr
  rw [← h]
  exact hx s r hs hr

theorem moves_get_bind_from {Q : σ → σ → Prop} {f : σ → Cmd ε σ β} (hQ : ∀ s, Q s s)
    (hf : ∀ s, MovesFrom (Q s) net (f s) k) : Moves net (get >>= f) k := by
  intro s r hr
  rw [bind_run] at hr
  obtain ⟨_, _, h1, h2⟩ := hr
  cases get_run.mp h1
  exact hf s s r (hQ s) h2

end From

end Cmd
