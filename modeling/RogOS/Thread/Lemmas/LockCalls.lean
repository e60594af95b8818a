import RogOS.Thread.LockSystem

/-!
Calls of `lock_acquire` and `lock_release` that are not nested.
-/

namespace RogOS

def LockPc.Acquires : LockPc → Prop
  | .testHolder | .down | .retry | .setHolder | .checkZero | .setRepeat => True
  | _ => False

def LockPc.Releases : LockPc → Prop
  | .checkHolder | .testRepeat | .checkOne | .clearHolder | .clearRepeat | .up => True
  | _ => False

section Lock

variable {T : Type} [DecidableEq T] {t : T} {l : LockState T} {p : LockPc}
  {r : LockPc × LockState T}

theorem lockStmt_acquires (h : (lockStmt t p).run l = .ok r) (hp : p.Acquires)
    : (r.1.Acquires ∧ p.after 0 = 0) ∨ (r.1 = .incRepeat ∧ p.after 0 = 0)
        ∨ (r.1 = .outside ∧ p.after 0 = 1) := by
  cases p with
  | testHolder =>
    unfold lockStmt at h
    rw [Cmd.exec_get_bind, Cmd.exec_pure] at h
    cases h
    dsimp only
    split
    . exact .inl ⟨trivial, rfl⟩
    . exact .inr (.inl ⟨rfl, rfl⟩)
  | down | retry =>
    unfold lockStmt at h
    dsimp only at h
    rw [Cmd.exec_get_bind, Cmd.bind_run] at h
    obtain ⟨b, l1, -, h2⟩ := h
    cases b <;> (cases h2; exact .inl ⟨trivial, rfl⟩)
  | setHolder =>
    cases h
    exact .inl ⟨trivial, rfl⟩
  | checkZero =>
    unfold lockStmt at h
    rw [Cmd.exec_get_bind, Cmd.exec_assert_bind] at h
    split at h
    . cases h
      exact .inl ⟨trivial, rfl⟩
    . contradiction
  | setRepeat =>
    cases h
    exact .inr (.inr ⟨rfl, rfl⟩)
  | _ => contradiction

theorem lockStmt_releases (h : (lockStmt t p).run l = .ok r) (hp : p.Releases)
    : (r.1.Releases ∧ p.after 1 = 1) ∨ (r.1 = .decRepeat ∧ p.after 1 = 1)
        ∨ (r.1 = .outside ∧ p.after 1 = 0) := by
  cases p with
  | testRepeat =>
    unfold lockStmt at h
    rw [Cmd.exec_get_bind, Cmd.exec_pure] at h
    cases h
    dsimp only
    split
    . exact .inr (.inl ⟨rfl, rfl⟩)
    . exact .inl ⟨trivial, rfl⟩
  | checkHolder | checkOne =>
    unfold lockStmt at h
    dsimp only at h
    rw [Cmd.exec_get_bind, Cmd.exec_assert_bind] at h
    split at h
    . cases h
      exact .inl ⟨trivial, rfl⟩
    . contradiction
  | clearHolder | clearRepeat =>
    cases h
    exact .inl ⟨trivial, rfl⟩
  | up =>
    unfold lockStmt at h
    rw [Cmd.exec_get_bind, Cmd.bind_run] at h
    obtain ⟨_, l1, -, h2⟩ := h
    cases h2
    exact .inr (.inr ⟨rfl, rfl⟩)
  | _ => contradiction

end Lock

structure LockSys.Apart {T : Type} (t : T) (l l' : LockSys T) : Prop where
  pc : ∀ u, u ≠ t → l'.pc u = l.pc u
  depth : ∀ u, u ≠ t → l'.depth u = l.depth u
  status : ∀ u, u ≠ t → l.pc u = .outside → l'.locks.status u = l.locks.status u

namespace LockInv

variable {T : Type} [DecidableEq T] {l l' : LockSys T} {owner owner' : Option T} {t : T}

theorem apart (h : LockInv l owner) (hrun : (LockSys.stmt t).run l = .ok ((), l'))
    : l.Apart t l' := by
  obtain ⟨q, m, hl, rfl⟩ := LockSys.stmt_run hrun
  refine ⟨?_, ?_, ?_⟩
  . intro u hu
    exact Function.update_of_ne hu ..
  . intro u hu
    exact Function.update_of_ne hu ..
  . intro u hu hpc
    apply lockStmt_status hl hu
    rw [h.waiters u, hpc]
    simp

theorem acquires_stmt (h' : LockInv l' owner') (hrun : (LockSys.stmt t).run l = .ok ((), l'))
    (hacq : (l.pc t).Acquires) (hd : l.depth t = 0)
    : (l'.pc t = .outside ∧ l'.depth t = 1) ∨ ((l'.pc t).Acquires ∧ l'.depth t = 0) := by
  obtain ⟨q, m, hl, rfl⟩ := LockSys.stmt_run hrun
  have hheld := h'.held t
  have hother := h'.other t
  dsimp only at hheld hother ⊢
  rw [Function.update_self, Function.update_self, hd] at hheld hother ⊢
  obtain ⟨hq, ha⟩ | ⟨hq, ha⟩ | ⟨hq, ha⟩ := lockStmt_acquires hl hacq
  . exact .inr ⟨hq, ha⟩
  . dsimp only at hq
    subst hq
    by_cases ho : owner' = some t
    . have hpos := (hheld ho).1
      omega
    . exact absurd (hother ho).1 (by simp [LockPc.AtOther])
  . exact .inl ⟨hq, ha⟩

theorem releases_stmt (h' : LockInv l' owner') (hrun : (LockSys.stmt t).run l = .ok ((), l'))
    (hrel : (l.pc t).Releases) (hd : l.depth t = 1)
    : (l'.pc t = .outside ∧ l'.depth t = 0) ∨ ((l'.pc t).Releases ∧ l'.depth t = 1) := by
  obtain ⟨q, m, hl, rfl⟩ := LockSys.stmt_run hrun
  have hheld := h'.held t
  have hother := h'.other t
  dsimp only at hheld hother ⊢
  rw [Function.update_self, Function.update_self, hd] at hheld hother ⊢
  obtain ⟨hq, ha⟩ | ⟨hq, ha⟩ | ⟨hq, ha⟩ := lockStmt_releases hl hrel
  . exact .inr ⟨hq, ha⟩
  . dsimp only at hq
    subst hq
    by_cases ho : owner' = some t
    . have hlt := (hheld ho).1
      omega
    . exact absurd (hother ho).1 (by simp [LockPc.AtOther])
  . exact .inl ⟨hq, ha⟩

end LockInv

end RogOS
