import Mathlib.Algebra.Group.Basic
import Mathlib.Data.UInt
import RogOS.Thread.Impl.Sync

/-!
What the functions of `sync.c` do to the status of the tasks and to the semaphore.
-/

namespace RogOS

variable {T : Type} [DecidableEq T] {cur t : T}

section Semaphore

variable {p : SemaState T}

omit [DecidableEq T] in
theorem onStatus_exec {α : Type} {x : StatusM T α} {a : α} {status : T → TaskStatus}
    (h : x.run p.status = .ok (a, status))
    : (onStatus x).run p = .ok (a, { p with status := status }) := Cmd.exec_zoom h

theorem threadBlock_exec {status : T → TaskStatus}
    : (threadBlock t .blocked).run status = .ok ((), Function.update status t .blocked) := rfl

theorem threadUnblock_exec {status : T → TaskStatus} (h : (status t).stopped = true)
    : (threadUnblock t).run status = .ok ((), Function.update status t .ready) := by
  simp only [threadUnblock, Cmd.exec_get_bind, Cmd.exec_assert_bind, h, ↓reduceIte, Cmd.exec_modify]

theorem semaDown_blocks (hv : p.sema.value = 0) (hw : cur ∉ p.sema.waiters)
    : (semaDown cur).run p
        =
      .ok (false, ⟨Function.update p.status cur .blocked, ⟨0, p.sema.waiters ++ [cur]⟩⟩) := by
  simp only [semaDown, Cmd.exec_get_bind, hv, ↓reduceIte, Cmd.exec_assert_bind, hw,
    not_false_eq_true, Cmd.exec_modify_bind]
  exact Cmd.exec_bind (onStatus_exec threadBlock_exec)

theorem semaDown_takes (cur : T) (hv : p.sema.value = 1)
    : (semaDown cur).run p = .ok (true, { p with sema.value := 0 }) := by
  have hne : ¬ (1 : UInt8) = 0 := by decide
  have hsub : (1 : UInt8) - 1 = 0 := by decide
  simp only [semaDown, Cmd.exec_get_bind, hv, hne, ↓reduceIte, Cmd.exec_modify_bind, hsub,
    Cmd.exec_assert_bind, Cmd.exec_pure]

theorem semaUp_nil (hv : p.sema.value = 0) (hw : p.sema.waiters = [])
    : semaUp.run p = .ok ((), { p with sema := ⟨1, []⟩ }) := by
  have hadd : (0 : UInt8) + 1 = 1 := by decide
  simp only [semaUp, Cmd.exec_get_bind, hv, Cmd.exec_assert_bind, ↓reduceIte, hw,
    Cmd.exec_modify_bind, hadd, Cmd.exec_assert]

theorem semaUp_cons {waiters : List T} (hv : p.sema.value = 0) (hw : p.sema.waiters = t :: waiters)
    (ht : (p.status t).stopped = true)
    : semaUp.run p = .ok ((), ⟨Function.update p.status t .ready, ⟨1, waiters⟩⟩) := by
  have hadd : (0 : UInt8) + 1 = 1 := by decide
  simp only [semaUp, Cmd.exec_get_bind, hv, Cmd.exec_assert_bind, ↓reduceIte, hw,
    Cmd.exec_modify_bind]
  refine (Cmd.exec_bind (onStatus_exec (p := ⟨p.status, ⟨0, waiters⟩⟩)
    (threadUnblock_exec ht))).trans ?_
  simp only [Cmd.exec_modify_bind, Cmd.exec_get_bind, hadd, Cmd.exec_assert, ↓reduceIte]

/-! What the functions did, when they returned. -/

omit [DecidableEq T] in
theorem onStatus_run {α : Type} {x : StatusM T α} {r : α × SemaState T}
    (h : (onStatus x).run p = .ok r)
    : ∃ status, x.run p.status = .ok (r.1, status) ∧ r.2 = { p with status := status } := by
  unfold onStatus at h
  rw [Cmd.zoom_run] at h
  exact h

omit [DecidableEq T] in
theorem onSemaphore_run {α : Type} {x : SemaM T α} {l : LockState T} {r : α × LockState T}
    (h : (onSemaphore x).run l = .ok r)
    : ∃ p, x.run ⟨l.status, l.lock.semaphore⟩ = .ok (r.1, p) ∧ r.2.status = p.status := by
  unfold onSemaphore at h
  rw [Cmd.zoom_run] at h
  obtain ⟨p, hp, hr⟩ := h
  exact ⟨p, hp, by rw [hr]⟩

theorem semaDown_status {r : Bool × SemaState T} (h : (semaDown cur).run p = .ok r) (ht : t ≠ cur)
    : r.2.status t = p.status t := by
  unfold semaDown at h
  rw [Cmd.exec_get_bind] at h
  split at h
  . rw [Cmd.exec_assert_bind] at h
    split at h
    . rw [Cmd.exec_modify_bind, Cmd.bind_run] at h
      obtain ⟨_, p1, h1, h2⟩ := h
      obtain ⟨status, hst, hp1⟩ := onStatus_run h1
      rw [threadBlock_exec] at hst
      cases hst
      rw [Cmd.exec_pure] at h2
      cases h2
      dsimp only at hp1
      rw [hp1]
      exact Function.update_of_ne ht ..
    . contradiction
  . rw [Cmd.exec_modify_bind, Cmd.exec_get_bind, Cmd.exec_assert_bind] at h
    split at h
    . cases h
      rfl
    . contradiction

theorem semaUp_status {r : Unit × SemaState T} (h : semaUp.run p = .ok r) (ht : t ∉ p.sema.waiters)
    : r.2.status t = p.status t := by
  unfold semaUp at h
  rw [Cmd.exec_get_bind, Cmd.exec_assert_bind] at h
  split at h
  . cases hw : p.sema.waiters with
    | nil =>
      rw [hw] at h
      simp only [Cmd.exec_modify_bind, Cmd.exec_get_bind, Cmd.exec_assert] at h
      split at h
      . cases h
        rfl
      . contradiction
    | cons u waiters =>
      rw [hw, List.mem_cons, not_or] at ht
      rw [hw] at h
      dsimp only at h
      rw [Cmd.exec_modify_bind, Cmd.bind_run] at h
      obtain ⟨_, p1, h1, h2⟩ := h
      obtain ⟨status, hst, hp1⟩ := onStatus_run h1
      unfold threadUnblock at hst
      rw [Cmd.exec_get_bind, Cmd.exec_assert_bind] at hst
      split at hst
      . cases hst
        rw [Cmd.exec_modify_bind, Cmd.exec_get_bind, Cmd.exec_assert] at h2
        split at h2
        . cases h2
          dsimp only at hp1 ⊢
          rw [hp1]
          exact Function.update_of_ne ht.1 ..
        . contradiction
      . contradiction
  . contradiction

end Semaphore

section Lock

variable {l : LockState T}

theorem lockStmt_status {pc : LockPc} {r : LockPc × LockState T}
    (h : (lockStmt cur pc).run l = .ok r) (ht : t ≠ cur)
    (hw : t ∉ l.lock.semaphore.waiters) : r.2.status t = l.status t := by
  have hdown : ∀ {q q' : LockPc} {r : LockPc × LockState T}, (do
      if ← onSemaphore (semaDown cur) then pure q else pure q' : LockM T LockPc).run l = .ok r →
      r.2.status t = l.status t := by
    intro q q' r h
    rw [Cmd.bind_run] at h
    obtain ⟨b, l1, h1, h2⟩ := h
    obtain ⟨p, hp, hst⟩ := onSemaphore_run h1
    have hkeep := semaDown_status hp ht
    have hr : r.2 = l1 := by
      cases b <;> (cases h2; rfl)
    rw [hr]
    dsimp only at hst hkeep
    rw [hst, hkeep]
  cases pc with
  | down => exact hdown h
  | retry => exact hdown h
  | up =>
    unfold lockStmt at h
    rw [Cmd.exec_get_bind, Cmd.bind_run] at h
    obtain ⟨_, l1, h1, h2⟩ := h
    obtain ⟨p, hp, hst⟩ := onSemaphore_run h1
    have hkeep := semaUp_status hp hw
    cases h2
    dsimp only at hst hkeep
    rw [hst, hkeep]
  | checkZero | checkHolder | checkOne =>
    unfold lockStmt at h
    dsimp only at h
    rw [Cmd.exec_get_bind, Cmd.exec_assert_bind] at h
    split at h
    . cases h
      rfl
    . contradiction
  | outside | testHolder | setHolder | setRepeat | incRepeat | testRepeat | decRepeat | clearHolder
  | clearRepeat =>
    cases h
    rfl

end Lock

end RogOS
