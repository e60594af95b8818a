import RogOS.Device.IdeSystem

/-!
Every sector group waits for an interrupt of its own, whatever the order of the statements of the
tasks and of the interrupts.
-/

namespace RogOS

def IdePc.MayPanic : IdePc → Bool
  | .check | .selectSector | .busyWait => true
  | _ => false

def IdeSys.MayPanic {T : Type} (s : IdeSys T) : IdeOp T → Prop
  | .stmt t _ => s.locks.pc t = .outside ∧ (s.pc t).MayPanic = true
  | _ => False

section Step

variable {T : Type} [DecidableEq T] {s : IdeSys T} {owner : Option T} {t : T}

open IdeSys

theorem move_exec {q : IdePc} {c : IdeCall}
    : (move t q c).run s
        = .ok ((), { s with pc := Function.update s.pc t q, call := Function.update s.call t c }) :=
        rfl

omit [DecidableEq T] in
theorem onLocks_exec {x : Cmd Fault (LockSys T) Unit} {l : LockSys T}
    (h : x.run s.locks = .ok ((), l))
    : (onLocks x).run s = .ok ((), { s with locks := l }) := Cmd.exec_zoom h

omit [DecidableEq T] in
theorem onDiskDone_exec {α : Type} {x : SemaM T α} {a : α} {p : SemaState T}
    (h : x.run ⟨s.locks.locks.status, s.diskDone⟩ = .ok (a, p))
    : (onDiskDone x).run s
        = .ok (a, { s with locks.locks.status := p.status, diskDone := p.sema }) := Cmd.exec_zoom h

namespace IdeInv

theorem step_quiet {q : IdePc} {c : IdeCall} {finished : List IntrSince} (h : IdeInv s owner)
    (hr : s.Runs t) (hq : q.LockAt (s.locks.pc t) (s.locks.depth t))
    (hpend : c.Pending q ↔ s.PendingAt t) (hans : c.Answered q → s.AnsweredAt t)
    (hfin : ∀ i ∈ finished, i.Came)
    : IdeInv { s with
        pc := Function.update s.pc t q
        call := Function.update s.call t c
        finished := finished } owner :=
  h.step_own hr h.locks ⟨fun _ _ => rfl, fun _ _ => rfl, fun _ _ _ => rfl⟩ hq (fun _ =>
    hr) hpend hans hfin

theorem step_lock {o : LockOp T} {p : LockPc} {q : IdePc} {c : IdeCall} (h : IdeInv s owner)
    (hr : s.Runs t) (hop : LockSys.exec o = modify fun l => l.goto t p) (ha : s.locks.Allowed o)
    (hb : s.locks.Bounded o) (hq : q.LockAt p (s.locks.depth t)) (hdown : q ≠ .down)
    (hpend : ¬ c.Pending q) (hnot : ¬ s.PendingAt t)
    (hans : ¬ c.Answered q)
    : ∃ s' owner', (onLocks (LockSys.exec o) >>= fun _ => move t q c).run s = .ok ((), s')
        ∧ IdeInv s' owner' := by
  obtain ⟨l, owner', hrun, hl⟩ := h.locks.step ha hb
  have hgoto : l = s.locks.goto t p := by
    rw [hop, Cmd.exec_modify] at hrun
    cases hrun
    rfl
  refine ⟨_, owner', (Cmd.exec_bind (onLocks_exec hrun)).trans move_exec, ?_⟩
  subst hgoto
  refine h.step_own hr hl ⟨?_, fun _ _ => rfl, fun _ _ _ => rfl⟩ ?_ (fun hd => absurd hd hdown)
    (iff_of_false hpend hnot)
    (fun ha => absurd ha hans) h.finished
  . intro u hu
    exact Function.update_of_ne hu ..
  . unfold LockSys.goto
    dsimp only
    rw [Function.update_self]
    exact hq

theorem down_step (h : IdeInv s owner) (hr : s.Runs t) (hpc : s.pc t = .down) {status : IdeStatus}
    : ∃ s' owner', (ideStmt t status).run s = .ok ((), s') ∧ IdeInv s' owner' := by
  have hpend : s.PendingAt t := by
    unfold IdeSys.PendingAt
    rw [hpc]
    trivial
  have hnot : t ∉ s.diskDone.waiters := by
    intro hmem
    have hstop := ((h.waiters t).mp hmem).2
    have hrun : (s.locks.locks.status t).stopped = false := hr
    rw [hrun] at hstop
    contradiction
  by_cases hv : s.diskDone.value = 0
  . have hdown :=
      onDiskDone_exec (semaDown_blocks (p := ⟨s.locks.locks.status, s.diskDone⟩) hv hnot)
    refine ⟨_, owner, ?_, h.step_block hr hpc hv⟩
    unfold ideStmt
    rw [Cmd.exec_get_bind, hpc]
    exact Cmd.exec_bind hdown
  . have hone : s.diskDone.value = 1 := by
      have htokens := h.pending t hpend
      unfold IdeSys.tokens at htokens
      rw [← UInt8.toNat_inj] at hv ⊢
      have h0 : (0 : UInt8).toNat = 0 := rfl
      have h1 : (1 : UInt8).toNat = 1 := rfl
      rw [h0] at hv
      rw [h1]
      split at htokens <;> omega
    have hdown := onDiskDone_exec (semaDown_takes t (p := ⟨s.locks.locks.status, s.diskDone⟩) hone)
    refine ⟨_, owner, ?_, h.step_take (c := { s.call t with timeLimit := 30 * 1000 }) hpc hone rfl⟩
    unfold ideStmt
    rw [Cmd.exec_get_bind, hpc]
    exact (Cmd.exec_bind hdown).trans move_exec

theorem move_step {q : IdePc} {c : IdeCall} (h : IdeInv s owner) (hr : s.Runs t)
    (hq : q.LockAt (s.locks.pc t) (s.locks.depth t))
    (hpend : c.Pending q ↔ (s.call t).Pending (s.pc t))
    (hans : c.Answered q → (s.call t).Answered (s.pc t))
    : ∃ s' owner', (move t q c).run s = .ok ((), s') ∧ IdeInv s' owner' :=
  ⟨_, owner, move_exec, h.step_quiet hr hq hpend hans h.finished⟩

theorem stmt_step (h : IdeInv s owner) (hr : s.Runs t) (hl : s.locks.pc t = .outside)
    (status : IdeStatus)
    : (∃ s' owner', (ideStmt t status).run s = .ok ((), s') ∧ IdeInv s' owner')
        ∨ ((s.pc t).MayPanic = true ∧ (ideStmt t status).run s = .error .panic) := by
  have hplace := h.place t
  have hmove := fun q c => h.move_step (q := q) (c := c) hr
  have hnot : ¬ (s.call t).Pending (s.pc t) → ¬ s.PendingAt t := id
  have hanswered : (s.call t).Answered (s.pc t) → (s.since t).Came := h.answered t
  by_cases hdown : s.pc t = .down
  . exact .inl (h.down_step hr hdown)
  unfold ideStmt
  rw [Cmd.exec_get_bind]
  generalize hpc : s.pc t = pc at hplace hmove hnot hanswered hdown ⊢
  cases pc with
  | outside => exact .inl ⟨s, owner, rfl, h⟩
  | down => exact absurd rfl hdown
  | check =>
    dsimp only
    rw [Cmd.exec_assert_bind]
    split
    . rw [Cmd.exec_assert_bind]
      split
      . have hb : s.locks.Bounded (.acquire t) := by
          show s.locks.depth t + 1 < 2 ^ 32
          rw [hplace.2]
          decide
        exact .inl (h.step_lock (o := .acquire t) (p := .testHolder) hr rfl ⟨hr, hl⟩ hb
          (.inr ⟨trivial, hplace.2⟩)
          (by simp) id (hnot id) id)
      . exact .inr ⟨rfl, rfl⟩
    . exact .inr ⟨rfl, rfl⟩
  | selectDisk =>
    have hd : s.locks.depth t = 1 := by
      obtain ⟨-, hd⟩ | ⟨hacq, -⟩ := hplace
      . exact hd
      . rw [hl] at hacq
        contradiction
    exact .inl (hmove .loop _ ⟨hl, hd⟩ Iff.rfl id)
  | loop =>
    dsimp only
    split
    . exact .inl (hmove .selectSector _ hplace Iff.rfl id)
    . have hpos : 0 < s.locks.depth t := by
        rw [hplace.2]
        exact Nat.one_pos
      exact .inl (h.step_lock (o := .release t) (p := .checkHolder) hr rfl ⟨hr, hl, hpos⟩ trivial
        (.inr ⟨trivial, hplace.2⟩) (by simp) id (hnot id) id)
  | selectSector =>
    dsimp only
    rw [Cmd.exec_assert_bind]
    split
    . exact .inl (hmove .setFlag _ hplace Iff.rfl id)
    . exact .inr ⟨rfl, rfl⟩
  | setFlag => exact .inl ⟨_, owner, rfl, h.step_flag hpc⟩
  | outCmd =>
    dsimp only
    unfold IdeCall.afterCmd
    split
    . next hw =>
      exact .inl (hmove .busyWait _ hplace (by simp [IdeCall.Pending, hw])
        (by simp [IdeCall.Answered, hw]))
    . exact .inl (hmove .down _ hplace Iff.rfl id)
  | busyWait =>
    dsimp only
    rw [Cmd.exec_assert_bind]
    split
    . split
      . exact .inl (hmove .busyWait _ hplace Iff.rfl id)
      . rw [Cmd.exec_assert_bind]
        split
        . exact .inl (hmove .transfer _ hplace Iff.rfl id)
        . exact .inr ⟨rfl, rfl⟩
    . exact .inr ⟨rfl, rfl⟩
  | transfer =>
    dsimp only
    unfold IdeCall.afterTransfer
    split
    . next hw =>
      exact .inl (hmove .down _ hplace (by simp [IdeCall.Pending, hw])
        (by simp [IdeCall.Answered]))
    . next hw =>
      exact .inl (hmove .advance _ hplace (by simp [IdeCall.Pending, hw])
        (by simp [IdeCall.Answered, hw]))
  | advance =>
    have hfin : ∀ i ∈ s.finished ++ [s.since t], i.Came := by
      intro i hi
      rw [List.mem_append, List.mem_singleton] at hi
      obtain hi | hi := hi
      . exact h.finished i hi
      . rw [hi]
        exact hanswered trivial
    exact .inl ⟨_, owner, rfl, h.step_quiet hr hplace (iff_of_false id (hnot id)) (fun ha =>
      absurd ha id) hfin⟩
  | ret =>
    have hd : s.locks.depth t = 0 := by
      obtain ⟨-, hd⟩ | ⟨hrel, -⟩ := hplace
      . exact hd
      . rw [hl] at hrel
        contradiction
    exact .inl (hmove .outside _ ⟨hl, hd⟩ Iff.rfl id)

theorem lock_step (h : IdeInv s owner) (hr : s.Runs t) (hl : s.locks.pc t ≠ .outside)
    : ∃ s' owner', (onLocks (LockSys.exec (.stmt t))).run s = .ok ((), s') ∧ IdeInv s' owner' := by
  obtain ⟨l, owner', hrun, hinv⟩ :=
    h.locks.step (show s.locks.Allowed (.stmt t) from ⟨hr, hl⟩) trivial
  have hplace := hinv.lockAt_stmt hrun (h.place t) hl
  have hdown : s.pc t ≠ .down := by
    intro hpc
    have hp := h.place t
    rw [hpc] at hp
    exact hl hp.1
  have hstep := h.step_own (q := s.pc t) (c := s.call t) hr hinv (h.locks.apart hrun) hplace
    (fun hpc => absurd hpc hdown)
    Iff.rfl id h.finished
  rw [Function.update_eq_self, Function.update_eq_self] at hstep
  exact ⟨_, owner', onLocks_exec hrun, hstep⟩

theorem handler_step (h : IdeInv s owner) (hcame : ∀ t, (s.since t).Came)
    : ∃ s', intrHdHandler.run s = .ok ((), s') ∧ IdeInv s' owner := by
  unfold intrHdHandler
  cases hexp : s.expectingIntr with
  | false =>
    refine ⟨s, ?_, h⟩
    rw [Cmd.exec_get_bind, hexp]
    rfl
  | true =>
    have hv : s.diskDone.value = 0 := by
      have hle := h.tokens_le
      unfold IdeSys.tokens at hle
      rw [hexp, if_pos rfl] at hle
      rw [← UInt8.toNat_inj]
      show s.diskDone.value.toNat = 0
      omega
    have hrun : ∀ {p : SemaState T}, semaUp.run ⟨s.locks.locks.status, s.diskDone⟩ = .ok ((), p) →
        intrHdHandler.run s = .ok ((), { s with
          expectingIntr := false
          locks.locks.status := p.status
          diskDone := p.sema }) := by
      intro p hp
      unfold intrHdHandler
      rw [Cmd.exec_get_bind, if_pos hexp, Cmd.exec_modify_bind]
      exact onDiskDone_exec hp
    have hlength := h.waiters_length
    cases hw : s.diskDone.waiters with
    | nil =>
      have hup := hrun (semaUp_nil (p := ⟨s.locks.locks.status, s.diskDone⟩) hv hw)
      exact ⟨_, hup, h.step_up hcame hexp hv (.inl ⟨hw, rfl⟩)⟩
    | cons u rest =>
      have hrest : rest = [] := by
        rw [hw, List.length_cons] at hlength
        apply List.eq_nil_of_length_eq_zero
        omega
      subst hrest
      have hmem : u ∈ s.diskDone.waiters := by
        rw [hw]
        exact List.mem_cons_self
      have hstop := ((h.waiters u).mp hmem).2
      have hup := hrun (semaUp_cons (p := ⟨s.locks.locks.status, s.diskDone⟩) hv hw hstop)
      exact ⟨_, hup, h.step_up hcame hexp hv (.inr ⟨u, hw, rfl⟩)⟩

theorem step (h : IdeInv s owner) {op : IdeOp T} (ha : s.Allowed op)
    : (∃ s' owner', (exec op).run s = .ok ((), s') ∧ IdeInv s' owner')
        ∨ (s.MayPanic op ∧ (exec op).run s = .error .panic) := by
  cases op with
  | call t c =>
    obtain ⟨hr, hpc⟩ := ha
    have hplace := h.place t
    rw [hpc] at hplace
    left
    apply h.move_step hr (q := .check) hplace
    . rw [hpc]
      exact Iff.rfl
    . exact fun hans => absurd hans id
  | stmt t status =>
    obtain ⟨hr, -⟩ := ha
    unfold exec
    rw [Cmd.exec_get_bind]
    split
    . next hl =>
      obtain hret | ⟨hpc, herr⟩ := h.stmt_step hr hl status
      . exact .inl hret
      . exact .inr ⟨⟨hl, hpc⟩, herr⟩
    . next hl => exact .inl (h.lock_step hr hl)
  | intr =>
    left
    obtain ⟨s', hrun, hs'⟩ := h.step_note.handler_step fun _ => came_note
    refine ⟨s', owner, ?_, hs'⟩
    unfold exec
    rw [Cmd.exec_modify_bind]
    exact hrun

end IdeInv

end Step

variable {T : Type} [DecidableEq T]

abbrev IdeSys.Reach : IdeSys T → IdeSys T → Prop := Cmd.Reach IdeSys.exec IdeSys.Allowed

/--
What the driver promises in every state; `came` is what is known of the interrupts of a finished
sector group.
-/
structure IdeSys.Sound (s : IdeSys T) (came : IntrSince → Prop) : Prop where
  -- An interrupt is counted once.
  once : s.diskDone.value.toNat + (if s.expectingIntr then 1 else 0) ≤ 1
  -- No assertion of a semaphore fails, nor one of the lock.
  returns : ∀ op, s.Allowed op → ¬ s.MayPanic op → ∃ s', (IdeSys.exec op).run s = .ok ((), s')
  waits : s.diskDone.waiters.length ≤ 1
  finished : ∀ i ∈ s.finished, came i

/--
Any number of tasks read and write sectors, interrupted between any two statements, and interrupts
of the disks come at any time. Each sector group is finished only after an interrupt since its
`cmd_out` set `expecting_intr`.
-/
theorem disk_completion {status : T → TaskStatus} {call : T → IdeCall} {since : T → IntrSince}
    {s : IdeSys T}
    (h : IdeSys.Reach (IdeSys.start status call since) s) : s.Sound IntrSince.Came := by
  have hinv : ∃ owner, IdeInv s owner := by
    refine Cmd.Reach.invariant (P := fun s => ∃ owner, IdeInv s owner) ?_ ⟨none, IdeInv.start⟩ h
    rintro s op _ s' ⟨owner, hs⟩ ha hrun
    obtain ⟨s'', owner', hrun', hs'⟩ | ⟨-, herr⟩ := hs.step ha
    . rw [hrun'] at hrun
      cases hrun
      exact ⟨owner', hs'⟩
    . rw [herr] at hrun
      contradiction
  obtain ⟨owner, hs⟩ := hinv
  refine ⟨hs.tokens_le, ?_, hs.waiters_length, hs.finished⟩
  intro op ha hp
  obtain ⟨s', -, hrun, -⟩ | ⟨hpanic, -⟩ := hs.step ha
  . exact ⟨s', hrun⟩
  . exact absurd hpanic hp

section Runs

instance IdeSys.decidableAllowed {s : IdeSys T} {op : IdeOp T} : Decidable (s.Allowed op) :=
  match op with
  | .call t _ =>
    inferInstanceAs (Decidable ((s.locks.locks.status t).stopped = false ∧ s.pc t = .outside))
  | .stmt t _ =>
    inferInstanceAs (Decidable ((s.locks.locks.status t).stopped = false ∧ s.pc t ≠ .outside))
  | .intr => inferInstanceAs (Decidable True)

def ideIdle
    : IdeSys Unit := IdeSys.start (fun _ => .running) (fun _ => .ideRead 0 1) fun _ =>
        ⟨false, false⟩

def ideStmts (n : Nat) : List (IdeOp Unit) := List.replicate n (.stmt () ⟨false, true⟩)

def readSector
    : List (IdeOp Unit) := .call () (.ideRead 0 1) :: (ideStmts 12 ++ .intr :: ideStmts 4)

theorem disk_completion_readSector
    : (Cmd.afterAll IdeSys.exec readSector ideIdle).Sound IntrSince.Came :=
  disk_completion (Cmd.reach_of_returnsWhile (k := fun s op => decide (s.Allowed op))
    (fun _ _ _ h => of_decide_eq_true h) (by decide))

def strayIntr : List (IdeOp Unit) := .call () (.ideRead 0 1) :: (ideStmts 10 ++ .intr :: ideStmts 5)

theorem not_disk_completion
    : ¬ ∀ s : IdeSys Unit, IdeSys.Reach ideIdle s → s.Sound fun i => i.late = true := by
  intro h
  have hreach : IdeSys.Reach ideIdle (Cmd.afterAll IdeSys.exec strayIntr ideIdle) :=
    Cmd.reach_of_returnsWhile (k := fun s op => decide (s.Allowed op)) (fun _ _ _ h =>
      of_decide_eq_true h) (by decide)
  have hmem : (⟨true, false⟩ : IntrSince)
      ∈ (Cmd.afterAll IdeSys.exec strayIntr ideIdle).finished := by decide
  have hlate := (h _ hreach).finished _ hmem
  contradiction

end Runs

end RogOS
