import RogOS.Device.Impl.Ide
import RogOS.Thread.Lemmas.LockCalls

/-!
What holds between any two statements of `ide_read` and `ide_write`: the task that has the lock of
the channel is the only one that waits for the disk, and the interrupt that it waits for is counted
once.
-/

namespace RogOS

def IdePc.LockAt (p : LockPc) (d : Nat) : IdePc → Prop
  | .outside | .check => p = .outside ∧ d = 0
  | .selectDisk => (p = .outside ∧ d = 1) ∨ (p.Acquires ∧ d = 0)
  | .ret => (p = .outside ∧ d = 0) ∨ (p.Releases ∧ d = 1)
  | _ => p = .outside ∧ d = 1

def IdeCall.Pending (c : IdeCall) : IdePc → Prop
  | .outCmd | .down => True
  | .busyWait | .transfer => c.write = true
  | _ => False

def IdeCall.Answered (c : IdeCall) : IdePc → Prop
  | .advance => True
  | .busyWait | .transfer => c.write = false
  | _ => False

def IntrSince.Came (i : IntrSince) : Prop := i.early = true ∨ i.late = true

namespace IdeSys

variable {T : Type}

def tokens (s : IdeSys T) : Nat := s.diskDone.value.toNat + if s.expectingIntr then 1 else 0

def PendingAt (s : IdeSys T) (t : T) : Prop := (s.call t).Pending (s.pc t)

def AnsweredAt (s : IdeSys T) (t : T) : Prop := (s.call t).Answered (s.pc t)

end IdeSys

structure IdeInv {T : Type} (s : IdeSys T) (owner : Option T) : Prop where
  locks : LockInv s.locks owner
  place : ∀ t, (s.pc t).LockAt (s.locks.pc t) (s.locks.depth t)
  idle : (∀ t, ¬ s.PendingAt t) → s.tokens = 0
  pending : ∀ t, s.PendingAt t → s.tokens = 1
  -- When the interrupt is not expected any more, it came.
  came : ∀ t, s.PendingAt t → s.expectingIntr = false → (s.since t).Came
  answered : ∀ t, s.AnsweredAt t → (s.since t).Came
  finished : ∀ i ∈ s.finished, i.Came
  waiters : ∀ t, t ∈ s.diskDone.waiters ↔ s.pc t = .down ∧ (s.locks.locks.status t).stopped = true
  nodup : s.diskDone.waiters.Nodup
  woken : s.diskDone.waiters ≠ [] → s.diskDone.value = 0

namespace LockInv

variable {T : Type} [DecidableEq T] {l l' : LockSys T} {owner' : Option T} {t : T}

theorem lockAt_stmt (h' : LockInv l' owner') (hrun : (LockSys.stmt t).run l = .ok ((), l'))
    {pc : IdePc} (hp : pc.LockAt (l.pc t) (l.depth t)) (hpc : l.pc t ≠ .outside)
    : pc.LockAt (l'.pc t) (l'.depth t) := by
  cases pc with
  | selectDisk =>
    obtain ⟨hout, -⟩ | ⟨hacq, hd⟩ := hp
    . exact absurd hout hpc
    . exact h'.acquires_stmt hrun hacq hd
  | ret =>
    obtain ⟨hout, -⟩ | ⟨hrel, hd⟩ := hp
    . exact absurd hout hpc
    . exact h'.releases_stmt hrun hrel hd
  | _ => exact absurd hp.1 hpc

end LockInv

namespace IdeInv

variable {T : Type} {s : IdeSys T} {owner : Option T} {t u : T}

theorem start {status : T → TaskStatus} {call : T → IdeCall} {since : T → IntrSince}
    : IdeInv (IdeSys.start status call since) none where
  locks := LockInv.start
  place := fun _ => ⟨rfl, rfl⟩
  idle := fun _ => rfl
  pending := fun _ h => absurd h id
  came := fun _ h => absurd h id
  answered := fun _ h => absurd h id
  finished := by
    intro i hi
    contradiction
  waiters := by
    intro t
    simp [IdeSys.start, semaInit]
  nodup := List.nodup_nil
  woken := fun _ => rfl

theorem depth_of_body (h : IdeInv s owner) (ht : s.PendingAt t ∨ s.AnsweredAt t)
    : s.locks.pc t = .outside ∧ s.locks.depth t = 1 := by
  have hp := h.place t
  unfold IdeSys.PendingAt IdeSys.AnsweredAt at ht
  generalize s.pc t = pc at hp ht
  cases pc <;> simp only [IdeCall.Pending, IdeCall.Answered, or_self] at ht <;> exact hp

theorem pending_unique (h : IdeInv s owner) (ht : 0 < s.locks.depth t) (hu : s.PendingAt u)
    : u = t := by
  have hd := (h.depth_of_body (.inl hu)).2
  have heq := (h.locks.owner_of_depth (t := u) (by omega)).symm.trans (h.locks.owner_of_depth ht)
  exact Option.some.inj heq

theorem tokens_le (h : IdeInv s owner) : s.tokens ≤ 1 := by
  by_cases hex : ∃ t, s.PendingAt t
  . obtain ⟨t, ht⟩ := hex
    exact Nat.le_of_eq (h.pending t ht)
  . rw [h.idle (fun t ht => hex ⟨t, ht⟩)]
    exact Nat.zero_le 1

theorem waiters_length (h : IdeInv s owner) : s.diskDone.waiters.length ≤ 1 := by
  have hmem : ∀ t ∈ s.diskDone.waiters, s.PendingAt t := by
    intro t ht
    have hpc := ((h.waiters t).mp ht).1
    unfold IdeSys.PendingAt
    rw [hpc]
    trivial
  have hnodup := h.nodup
  generalize s.diskDone.waiters = w at hmem hnodup
  match w with
  | [] => exact Nat.zero_le 1
  | [_] => exact Nat.le_refl 1
  | t :: u :: _ =>
    have ht := hmem t List.mem_cons_self
    have hu := hmem u (List.mem_cons_of_mem _ List.mem_cons_self)
    have hd := (h.depth_of_body (.inl ht)).2
    have heq := h.pending_unique (t := t) (by omega) hu
    rw [heq] at hnodup
    simp at hnodup

variable [DecidableEq T]

theorem step_own {l : LockSys T} {owner' : Option T} {q : IdePc} {c : IdeCall}
    {finished : List IntrSince} (h : IdeInv s owner) (hr : s.Runs t) (hl : LockInv l owner')
    (happ : s.locks.Apart t l) (hq : q.LockAt (l.pc t) (l.depth t))
    (hdown : q = .down → (l.locks.status t).stopped = false)
    (hpend : c.Pending q ↔ s.PendingAt t) (hans : c.Answered q → s.AnsweredAt t)
    (hfin : ∀ i ∈ finished, i.Came)
    : IdeInv { s with
        locks := l
        pc := Function.update s.pc t q
        call := Function.update s.call t c
        finished := finished } owner' := by
  have hpending : ∀ u, (Function.update s.call t c u).Pending (Function.update s.pc t q u)
      ↔ s.PendingAt u := by
    intro u
    by_cases hu : u = t
    . subst hu
      rw [Function.update_self, Function.update_self]
      exact hpend
    . rw [Function.update_of_ne hu, Function.update_of_ne hu]
      exact Iff.rfl
  constructor
  . exact hl
  . intro u
    dsimp only
    by_cases hu : u = t
    . subst hu
      rw [Function.update_self]
      exact hq
    . rw [Function.update_of_ne hu, happ.pc u hu, happ.depth u hu]
      exact h.place u
  . intro hno
    exact h.idle fun u hu => hno u ((hpending u).mpr hu)
  . intro u hu
    exact h.pending u ((hpending u).mp hu)
  . intro u hu
    exact h.came u ((hpending u).mp hu)
  . intro u hu
    apply h.answered u
    unfold IdeSys.AnsweredAt at hu
    dsimp only at hu
    by_cases heq : u = t
    . subst heq
      rw [Function.update_self, Function.update_self] at hu
      exact hans hu
    . rw [Function.update_of_ne heq, Function.update_of_ne heq] at hu
      exact hu
  . exact hfin
  . intro u
    dsimp only
    rw [h.waiters u]
    by_cases hu : u = t
    . subst hu
      rw [Function.update_self]
      have hrun : (s.locks.locks.status u).stopped = false := hr
      rw [hrun]
      simp only [Bool.false_eq_true, and_false, false_iff, not_and]
      intro heq
      rw [hdown heq]
      simp
    . rw [Function.update_of_ne hu]
      apply and_congr_right
      intro hpc
      have hp := h.place u
      rw [hpc] at hp
      rw [happ.status u hu hp.1]
  . exact h.nodup
  . exact h.woken

theorem step_flag {c : IdeCall} (h : IdeInv s owner) (hpc : s.pc t = .setFlag)
    : IdeInv { s with
        expectingIntr := true
        since := Function.update s.since t ⟨false, false⟩
        pc := Function.update s.pc t .outCmd
        call := Function.update s.call t c } owner := by
  have hplace := h.place t
  rw [hpc] at hplace
  have hno : ∀ u, ¬ s.PendingAt u := by
    intro u hu
    have heq := h.pending_unique (t := t) (by rw [hplace.2]; exact Nat.one_pos) hu
    subst heq
    unfold IdeSys.PendingAt at hu
    rw [hpc] at hu
    exact hu
  have hzero := h.idle hno
  unfold IdeSys.tokens at hzero
  constructor
  . exact h.locks
  . intro u
    dsimp only
    by_cases hu : u = t
    . subst hu
      rw [Function.update_self]
      exact hplace
    . rw [Function.update_of_ne hu]
      exact h.place u
  . intro hidle
    apply absurd _ (hidle t)
    unfold IdeSys.PendingAt
    dsimp only
    rw [Function.update_self, Function.update_self]
    trivial
  . intro u _
    unfold IdeSys.tokens
    dsimp only
    rw [if_pos rfl]
    omega
  . intro u _ hexp
    contradiction
  . intro u hu
    unfold IdeSys.AnsweredAt at hu
    dsimp only at hu ⊢
    by_cases heq : u = t
    . subst heq
      rw [Function.update_self, Function.update_self] at hu
      exact absurd hu id
    . rw [Function.update_of_ne heq, Function.update_of_ne heq] at hu
      rw [Function.update_of_ne heq]
      exact h.answered u hu
  . exact h.finished
  . intro u
    dsimp only
    rw [h.waiters u]
    by_cases hu : u = t
    . subst hu
      rw [Function.update_self, hpc]
      simp
    . rw [Function.update_of_ne hu]
  . exact h.nodup
  . exact h.woken

omit [DecidableEq T] in
theorem locks_of_status {status : T → TaskStatus} (h : IdeInv s owner)
    (hs : ∀ u, s.pc u ≠ .down → status u = s.locks.locks.status u)
    : LockInv { s.locks with locks.status := status } owner := by
  apply h.locks.of_status
  intro u hu
  apply hs
  intro hpc
  have hplace := h.place u
  rw [hpc, hu] at hplace
  exact absurd hplace.1 (by simp)

theorem step_block (h : IdeInv s owner) (hr : s.Runs t) (hpc : s.pc t = .down)
    (hv : s.diskDone.value = 0)
    : IdeInv { s with
        locks.locks.status := Function.update s.locks.locks.status t .blocked
        diskDone := ⟨0, s.diskDone.waiters ++ [t]⟩ } owner := by
  have hrun : (s.locks.locks.status t).stopped = false := hr
  have htokens : IdeSys.tokens { s with
      locks.locks.status := Function.update s.locks.locks.status t .blocked
      diskDone := ⟨0, s.diskDone.waiters ++ [t]⟩ } = s.tokens := by
    unfold IdeSys.tokens
    rw [hv]
  constructor
  . apply h.locks_of_status
    intro u hu
    apply Function.update_of_ne
    rintro rfl
    exact hu hpc
  . exact h.place
  . intro hno
    rw [htokens]
    exact h.idle hno
  . intro u hu
    rw [htokens]
    exact h.pending u hu
  . exact h.came
  . exact h.answered
  . exact h.finished
  . intro u
    dsimp only
    rw [List.mem_append, List.mem_singleton, h.waiters u]
    by_cases hu : u = t
    . subst hu
      simp [hpc, TaskStatus.stopped]
    . rw [Function.update_of_ne hu]
      simp [hu]
  . dsimp only
    rw [List.nodup_append]
    refine ⟨h.nodup, List.nodup_singleton t, ?_⟩
    intro a ha b hb heq
    rw [List.mem_singleton] at hb
    have hstop := ((h.waiters a).mp ha).2
    rw [heq, hb, hrun] at hstop
    contradiction
  . intro _
    rfl

theorem step_take {c : IdeCall} (h : IdeInv s owner) (hpc : s.pc t = .down)
    (hv : s.diskDone.value = 1) (hc : c.write = (s.call t).write)
    : IdeInv { s with
        diskDone.value := 0
        pc := Function.update s.pc t (s.call t).afterDown
        call := Function.update s.call t c } owner := by
  have hpend : s.PendingAt t := by
    unfold IdeSys.PendingAt
    rw [hpc]
    trivial
  have htokens := h.pending t hpend
  have hexp : s.expectingIntr = false := by
    unfold IdeSys.tokens at htokens
    rw [hv] at htokens
    cases hexp : s.expectingIntr with
    | false => rfl
    | true =>
      rw [hexp] at htokens
      contradiction
  have hplace := h.depth_of_body (.inl hpend)
  have hempty : s.diskDone.waiters = [] := by
    by_contra hne
    have hzero := h.woken hne
    rw [hv] at hzero
    contradiction
  have hno : ∀ u,
      ¬ (Function.update s.call t c u).Pending (Function.update s.pc t (s.call t).afterDown u) := by
    intro u hu
    by_cases heq : u = t
    . subst heq
      rw [Function.update_self, Function.update_self] at hu
      unfold IdeCall.afterDown at hu
      cases hw : (s.call u).write <;> rw [hw] at hu hc <;> simp [IdeCall.Pending, hc] at hu
    . rw [Function.update_of_ne heq, Function.update_of_ne heq] at hu
      exact heq (h.pending_unique (t := t) (by rw [hplace.2]; exact Nat.one_pos) hu)
  constructor
  . exact h.locks
  . intro u
    dsimp only
    by_cases hu : u = t
    . subst hu
      rw [Function.update_self]
      unfold IdeCall.afterDown
      split
      . exact hplace
      . exact hplace
    . rw [Function.update_of_ne hu]
      exact h.place u
  . intro _
    unfold IdeSys.tokens
    dsimp only
    rw [hexp]
    rfl
  . intro u hu
    exact absurd hu (hno u)
  . intro u hu
    exact absurd hu (hno u)
  . intro u hu
    by_cases heq : u = t
    . subst heq
      exact h.came u hpend hexp
    . unfold IdeSys.AnsweredAt at hu
      dsimp only at hu
      rw [Function.update_of_ne heq, Function.update_of_ne heq] at hu
      exact h.answered u hu
  . exact h.finished
  . intro u
    dsimp only
    rw [hempty]
    constructor
    . intro hu
      contradiction
    . rintro ⟨hu, hstop⟩
      by_cases heq : u = t
      . subst heq
        rw [Function.update_self] at hu
        unfold IdeCall.afterDown at hu
        split at hu <;> contradiction
      . rw [Function.update_of_ne heq] at hu
        rw [← hempty]
        exact (h.waiters u).mpr ⟨hu, hstop⟩
  . exact h.nodup
  . intro hne
    exact absurd hempty hne

theorem came_note {i : IntrSince} {pc : IdePc} : (i.note pc).Came := by
  unfold IntrSince.note IntrSince.Came
  split
  . exact .inl rfl
  . exact .inr rfl

omit [DecidableEq T] in
theorem step_note (h : IdeInv s owner)
    : IdeInv { s with since := fun t => (s.since t).note (s.pc t) } owner where
  locks := h.locks
  place := h.place
  idle := h.idle
  pending := h.pending
  came := fun _ _ _ => came_note
  answered := fun _ _ => came_note
  finished := h.finished
  waiters := h.waiters
  nodup := h.nodup
  woken := h.woken

theorem step_up {status : T → TaskStatus} (h : IdeInv s owner) (hcame : ∀ t, (s.since t).Came)
    (hexp : s.expectingIntr = true) (hv : s.diskDone.value = 0)
    (hq : (s.diskDone.waiters = [] ∧ status = s.locks.locks.status)
      ∨ ∃ u, s.diskDone.waiters = [u] ∧ status = Function.update s.locks.locks.status u .ready)
    : IdeInv { s with
        expectingIntr := false
        locks.locks.status := status
        diskDone := ⟨1, []⟩ } owner := by
  have htokens : IdeSys.tokens { s with
      expectingIntr := false
      locks.locks.status := status
      diskDone := ⟨1, []⟩ } = s.tokens := by
    unfold IdeSys.tokens
    dsimp only
    rw [hv, hexp]
    rfl
  constructor
  . apply h.locks_of_status
    intro u hu
    obtain ⟨-, hst⟩ | ⟨w, hw, hst⟩ := hq
    . rw [hst]
    . rw [hst]
      apply Function.update_of_ne
      rintro rfl
      apply hu
      apply ((h.waiters u).mp _).1
      rw [hw]
      exact List.mem_singleton_self u
  . exact h.place
  . intro hno
    rw [htokens]
    exact h.idle hno
  . intro u hu
    rw [htokens]
    exact h.pending u hu
  . intro u _ _
    exact hcame u
  . intro u _
    exact hcame u
  . exact h.finished
  . intro u
    dsimp only
    have hmem := h.waiters u
    obtain ⟨hnil, hst⟩ | ⟨w, hw, hst⟩ := hq
    . rw [hst, ← hmem, hnil]
    . rw [hw, List.mem_singleton] at hmem
      rw [hst]
      by_cases hu : u = w
      . subst hu
        simp [TaskStatus.stopped]
      . rw [Function.update_of_ne hu, ← hmem]
        simp [hu]
  . exact List.nodup_nil
  . intro hne
    exact absurd rfl hne

end IdeInv

end RogOS
