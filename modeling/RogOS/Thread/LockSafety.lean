import RogOS.Thread.LockSystem

/-!
Locks exclude each other and count the nesting, whatever the order of the statements of the tasks.
-/

namespace RogOS

variable {T : Type} [DecidableEq T]

abbrev LockSys.Reach (guard : LockSys T → LockOp T → Prop)
    : LockSys T → LockSys T → Prop := Cmd.Reach LockSys.exec guard

/--
What a lock promises in every state: `Allowed` operations are those that the tasks may go on with.
-/
structure LockSys.Sound (s : LockSys T) (allowed : LockOp T → Prop) : Prop where
  -- At most one task is between its outermost `lock_acquire` and the matching `lock_release`.
  exclusive : ∀ t u, 0 < s.depth t → 0 < s.depth u → t = u
  -- The counter is the nesting depth, up to the `sema_up` with which the lock is given back.
  count : ∀ t, 0 < s.depth t → s.pc t ≠ .up → s.locks.lock.holderRepeatNr.toNat = s.depth t
  value : s.locks.lock.semaphore.value = 0 ∨ s.locks.lock.semaphore.value = 1
  -- No assertion fails.
  returns : ∀ op, allowed op → ∃ s', (LockSys.exec op).run s = .ok ((), s')
  -- No wakeup is lost.
  woken : s.locks.lock.semaphore.value = 1 → s.locks.lock.semaphore.waiters ≠ [] →
    ∃ t, s.pc t = .retry ∧ s.locks.status t = .ready

theorem LockInv.sound {s : LockSys T} {owner : Option T} (h : LockInv s owner)
    : s.Sound fun op => s.Allowed op ∧ s.Bounded op where
  exclusive := by
    intro t u ht hu
    have heq := (h.owner_of_depth ht).symm.trans (h.owner_of_depth hu)
    exact Option.some.inj heq
  count := by
    intro t ht hup
    have hold := h.held t (h.owner_of_depth ht)
    cases hpc : s.pc t <;> rw [hpc] at hold <;> simp only [LockPc.AtOwner] at hold <;> grind
  value := by
    rw [h.value]
    cases owner with
    | none => exact .inr rfl
    | some t => exact .inl rfl
  returns := by
    intro op hop
    obtain ⟨s', -, hrun, -⟩ := h.step hop.1 hop.2
    exact ⟨s', hrun⟩
  woken := by
    intro hv hw
    cases owner with
    | none => exact h.woken rfl hw
    | some t =>
      rw [h.value] at hv
      exact absurd hv (by simp)

/--
Any number of tasks acquire and release a lock, interrupted between any two statements. As long as
no task is to undo 2^32 calls of `lock_acquire`, the lock excludes, counts, loses no wakeup and
fails no assertion.
-/
theorem lock_sound {status : T → TaskStatus} {s : LockSys T}
    (h : LockSys.Reach (fun s op => s.Allowed op ∧ s.Bounded op) (LockSys.start status) s)
    : s.Sound fun op => s.Allowed op ∧ s.Bounded op := by
  have hinv : ∃ owner, LockInv s owner := by
    refine Cmd.Reach.invariant (P := fun s => ∃ owner, LockInv s owner) ?_ ⟨none, LockInv.start⟩ h
    rintro s op _ s' ⟨owner, hs⟩ ⟨ha, hb⟩ hrun
    obtain ⟨s'', owner', hrun', hs'⟩ := hs.step ha hb
    rw [hrun'] at hrun
    cases hrun
    exact ⟨owner', hs'⟩
  obtain ⟨owner, hs⟩ := hinv
  exact hs.sound

section Contended

instance LockSys.decidableAllowed {s : LockSys T} {op : LockOp T} : Decidable (s.Allowed op) :=
  match op with
  | .acquire t =>
    inferInstanceAs (Decidable ((s.locks.status t).stopped = false ∧ s.pc t = .outside))
  | .release t =>
    inferInstanceAs (Decidable ((s.locks.status t).stopped = false ∧ s.pc t = .outside
      ∧ 0 < s.depth t))
  | .stmt t => inferInstanceAs (Decidable ((s.locks.status t).stopped = false ∧ s.pc t ≠ .outside))

instance LockSys.decidableBounded {s : LockSys T} {op : LockOp T} : Decidable (s.Bounded op) :=
  match op with
  | .acquire t => inferInstanceAs (Decidable (s.depth t + 1 < 2 ^ 32))
  | .release _ | .stmt _ => inferInstanceAs (Decidable True)

def contended : List (LockOp Bool) :=
  [.acquire true, .stmt true, .acquire false, .stmt true, .stmt false, .stmt false, .stmt true,
    .stmt true, .stmt true,
    .release true, .stmt true, .stmt true, .stmt true, .stmt true, .stmt true]

theorem lock_sound_contended
    : LockSys.Sound (Cmd.afterAll LockSys.exec contended (LockSys.start fun _ => .running))
        fun op => (Cmd.afterAll LockSys.exec contended (LockSys.start fun _ => .running)).Allowed op
          ∧ (Cmd.afterAll LockSys.exec contended (LockSys.start fun _ => .running)).Bounded op :=
  lock_sound (Cmd.reach_of_returnsWhile (k := fun s op => decide (s.Allowed op ∧ s.Bounded op))
    (fun _ _ _ h => of_decide_eq_true h) (by decide))

end Contended

section Wrap

def nested (n : Nat) : LockSys Unit :=
  ⟨⟨fun _ => .running, ⟨some (), ⟨0, []⟩, UInt32.ofNat n⟩⟩, fun _ => .outside, fun _ => n⟩

theorem nested_goto_stmt {n : Nat} {pc q : LockPc} {l : LockState Unit}
    (h : (lockStmt () pc).run (nested n).locks = .ok (q, l))
    : (LockSys.exec (.stmt ())).run ((nested n).goto () pc)
        = .ok ((), ⟨l, fun _ => q, fun _ => pc.after n⟩) := by
  have hrun : (lockStmt () (((nested n).goto () pc).pc ())).run ((nested n).goto () pc).locks
      = .ok (q, l) := by
    have hpc : ((nested n).goto () pc).pc () = pc := rfl
    rw [hpc]
    exact h
  refine (LockSys.stmt_exec hrun).trans ?_
  congr 3

theorem nested_reach_succ {n : Nat}
    : LockSys.Reach LockSys.Allowed (nested n) (nested (n + 1)) := by
  have h1 : LockSys.Reach LockSys.Allowed (nested n) ((nested n).goto () .testHolder) :=
    .single ⟨.acquire (), (), ⟨rfl, rfl⟩, Cmd.exec_modify⟩
  have h2 : LockSys.Reach LockSys.Allowed ((nested n).goto () .testHolder)
      ((nested n).goto () .incRepeat) := by
    refine .single ⟨.stmt (), (), ⟨rfl, by simp [LockSys.goto]⟩,
      (nested_goto_stmt (q := .incRepeat) rfl).trans ?_⟩
    rfl
  have h3 : LockSys.Reach LockSys.Allowed ((nested n).goto () .incRepeat) (nested (n + 1)) := by
    refine .single ⟨.stmt (), (), ⟨rfl, by simp [LockSys.goto]⟩,
      (nested_goto_stmt (q := .outside) rfl).trans ?_⟩
    unfold nested
    rw [UInt32.ofNat_add]
    rfl
  exact (h1.trans h2).trans h3

def firstAcquire : List (LockOp Unit) := .acquire () :: List.replicate 5 (.stmt ())

theorem nested_reach (n : Nat)
    : LockSys.Reach LockSys.Allowed (LockSys.start fun _ => .running) (nested (n + 1)) := by
  induction n with
  | zero =>
    have hrun : LockSys.Reach LockSys.Allowed (LockSys.start fun _ => .running)
        (Cmd.afterAll LockSys.exec firstAcquire (LockSys.start fun _ => .running)) :=
      Cmd.reach_of_returnsWhile (k := fun s op => decide (s.Allowed op)) (fun _ _ _ h =>
        of_decide_eq_true h) (by decide)
    exact hrun
  | succ n ih => exact ih.trans nested_reach_succ

/-- After 2^32 calls of `lock_acquire` by one task the counter is 0. -/
theorem not_lock_sound
    : ¬ ∀ s : LockSys Unit, LockSys.Reach LockSys.Allowed (LockSys.start fun _ => .running) s
        → s.Sound s.Allowed := by
  intro h
  have hsound := h _ (nested_reach (2 ^ 32 - 1))
  have hcount := hsound.count () (Nat.succ_pos _) (by simp [nested])
  have hwrap : (UInt32.ofNat (2 ^ 32)).toNat = 2 ^ 32 := hcount
  rw [UInt32.toNat_ofNat'] at hwrap
  simp at hwrap

end Wrap

end RogOS
