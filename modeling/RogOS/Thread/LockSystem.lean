import RogOS.Thread.Lemmas.Sync

/-!
Tasks that acquire and release one lock, each interrupted between any two statements.
-/

namespace RogOS

structure LockSys (T : Type) where
  locks : LockState T
  pc : T → LockPc
  -- The number of calls of `lock_acquire` that returned, less that of the calls of `lock_release`
  -- that returned
  depth : T → Nat

inductive LockOp (T : Type) where
  | acquire (t : T)
  | release (t : T)
  -- The task executes its next statement.
  | stmt (t : T)

def LockPc.after : LockPc → Nat → Nat
  | .setRepeat, d | .incRepeat, d => d + 1
  | .decRepeat, d | .up, d => d - 1
  | _, d => d

namespace LockSys

variable {T : Type} [DecidableEq T]

def goto (s : LockSys T) (t : T) (pc : LockPc)
    : LockSys T := { s with pc := Function.update s.pc t pc }

def stmt (t : T) : Cmd Fault (LockSys T) Unit := do
  let s ← get
  let pc ← Cmd.zoom LockSys.locks (fun s l => { s with locks := l }) (lockStmt t (s.pc t))
  modify fun s => { s with
    pc := Function.update s.pc t pc
    depth := Function.update s.depth t ((s.pc t).after (s.depth t)) }

def exec : LockOp T → Cmd Fault (LockSys T) Unit
  | .acquire t => modify fun s => s.goto t .testHolder
  | .release t => modify fun s => s.goto t .checkHolder
  | .stmt t => stmt t

def Runs (s : LockSys T) (t : T) : Prop := (s.locks.status t).stopped = false

def Allowed (s : LockSys T) : LockOp T → Prop
  | .acquire t => s.Runs t ∧ s.pc t = .outside
  | .release t => s.Runs t ∧ s.pc t = .outside ∧ 0 < s.depth t
  | .stmt t => s.Runs t ∧ s.pc t ≠ .outside

def Bounded (s : LockSys T) : LockOp T → Prop
  | .acquire t => s.depth t + 1 < 2 ^ 32
  | _ => True

def start (status : T → TaskStatus)
    : LockSys T := ⟨⟨status, lockInit T⟩, fun _ => .outside, fun _ => 0⟩

end LockSys

def LockPc.Owns (d : Nat) : LockPc → Prop
  | .setHolder | .checkZero | .setRepeat => True
  | _ => 0 < d

def LockPc.AtOwner {T : Type} (t : T) (l : Lock T) (d : Nat) : LockPc → Prop
  | .outside | .checkHolder | .testRepeat => 0 < d ∧ l.holder = some t ∧ l.holderRepeatNr.toNat = d
  | .testHolder | .incRepeat => 0 < d ∧ d + 1 < 2 ^ 32 ∧ l.holder = some t ∧ l.holderRepeatNr.toNat
      = d
  | .decRepeat => 1 < d ∧ l.holder = some t ∧ l.holderRepeatNr.toNat = d
  | .checkOne | .clearHolder => d = 1 ∧ l.holder = some t ∧ l.holderRepeatNr.toNat = 1
  | .clearRepeat => d = 1 ∧ l.holder = none ∧ l.holderRepeatNr.toNat = 1
  | .up => d = 1 ∧ l.holder = none ∧ l.holderRepeatNr.toNat = 0
  | .setHolder => d = 0 ∧ l.holder = none ∧ l.holderRepeatNr.toNat = 0
  | .checkZero | .setRepeat => d = 0 ∧ l.holder = some t ∧ l.holderRepeatNr.toNat = 0
  | .down | .retry => False

def LockPc.AtOther : LockPc → Prop
  | .outside | .testHolder | .down | .retry => True
  | _ => False

structure LockInv {T : Type} (s : LockSys T) (owner : Option T) : Prop where
  owns : ∀ t, (s.pc t).Owns (s.depth t) ↔ owner = some t
  value : s.locks.lock.semaphore.value = if owner.isSome then 0 else 1
  free : owner = none → s.locks.lock.holder = none ∧ s.locks.lock.holderRepeatNr.toNat = 0
  held : ∀ t, owner = some t → (s.pc t).AtOwner t s.locks.lock (s.depth t)
  other : ∀ t, owner ≠ some t → (s.pc t).AtOther ∧ s.depth t = 0
  waiters : ∀ t, t ∈ s.locks.lock.semaphore.waiters ↔ s.pc t = .retry ∧ (s.locks.status t).stopped
    = true
  nodup : s.locks.lock.semaphore.waiters.Nodup
  woken : owner = none → s.locks.lock.semaphore.waiters ≠ [] → ∃ t, s.pc t = .retry
    ∧ s.locks.status t = .ready

namespace LockInv

variable {T : Type} {s : LockSys T} {owner : Option T} {t u : T}

theorem start {status : T → TaskStatus} : LockInv (LockSys.start status) none where
  owns := by
    intro t
    simp [LockSys.start, LockPc.Owns]
  value := rfl
  free := fun _ => ⟨rfl, rfl⟩
  held := by
    intro t ht
    contradiction
  other := fun t _ => ⟨trivial, rfl⟩
  waiters := by
    intro t
    simp [LockSys.start, lockInit, semaInit]
  nodup := List.nodup_nil
  woken := by
    intro _ h
    exact absurd rfl h

theorem holder_ne (h : LockInv s owner) (hu : owner ≠ some u) : s.locks.lock.holder ≠ some u := by
  cases owner with
  | none =>
    rw [(h.free rfl).1]
    simp
  | some t =>
    have hne : t ≠ u := by
      rintro rfl
      exact hu rfl
    have hat := h.held t rfl
    cases hpc : s.pc t <;> rw [hpc] at hat <;> simp only [LockPc.AtOwner] at hat <;> grind

theorem owner_of_depth (h : LockInv s owner) (hd : 0 < s.depth t) : owner = some t := by
  by_contra hne
  have := (h.other t hne).2
  omega

theorem of_status {status : T → TaskStatus} (h : LockInv s owner)
    (hs : ∀ t, s.pc t = .retry → status t = s.locks.status t)
    : LockInv { s with locks.status := status } owner where
  owns := h.owns
  value := h.value
  free := h.free
  held := h.held
  other := h.other
  waiters := by
    intro t
    rw [h.waiters t]
    apply and_congr_right
    intro hpc
    dsimp only
    rw [hs t hpc]
  nodup := h.nodup
  woken := by
    intro hno hw
    obtain ⟨t, hpc, hr⟩ := h.woken hno hw
    exact ⟨t, hpc, (hs t hpc).trans hr⟩

variable [DecidableEq T]

theorem step_owner {l : Lock T} {q : LockPc} {d : Nat} (h : LockInv s (some t))
    (hsema : l.semaphore = s.locks.lock.semaphore)
    (hq : q.AtOwner t l d) (hd : q.Owns d)
    : LockInv ⟨⟨s.locks.status, l⟩, Function.update s.pc t q, Function.update s.depth t d⟩
        (some t) where
  owns := by
    intro u
    dsimp only
    by_cases hu : u = t
    . subst hu
      rw [Function.update_self, Function.update_self]
      simp [hd]
    . rw [Function.update_of_ne hu, Function.update_of_ne hu]
      exact h.owns u
  value := by
    dsimp only
    rw [hsema]
    exact h.value
  free := by
    intro hno
    contradiction
  held := by
    intro u hu
    cases hu
    dsimp only
    rw [Function.update_self, Function.update_self]
    exact hq
  other := by
    intro u hu
    have hne : u ≠ t := by
      rintro rfl
      exact hu rfl
    dsimp only
    rw [Function.update_of_ne hne, Function.update_of_ne hne]
    exact h.other u hu
  waiters := by
    intro u
    dsimp only
    rw [hsema, h.waiters u]
    by_cases hu : u = t
    . -- the owner of the lock does not wait for it
      subst hu
      have hold := h.held u rfl
      have h1 : s.pc u ≠ .retry := by
        intro heq
        rw [heq] at hold
        exact hold
      have h2 : q ≠ .retry := by
        rintro rfl
        exact hq
      simp [h1, h2]
    . rw [Function.update_of_ne hu]
  nodup := by
    dsimp only
    rw [hsema]
    exact h.nodup
  woken := by
    intro hno
    contradiction

theorem step_other {q : LockPc} (h : LockInv s owner) (ht : owner ≠ some t) (hq : q.AtOther)
    (h1 : s.pc t ≠ .retry)
    (h2 : q ≠ .retry) : LockInv { s with pc := Function.update s.pc t q } owner where
  owns := by
    intro u
    dsimp only
    by_cases hu : u = t
    . subst hu
      have hd := (h.other u ht).2
      rw [Function.update_self, hd]
      cases q <;> simp_all [LockPc.Owns, LockPc.AtOther]
    . rw [Function.update_of_ne hu]
      exact h.owns u
  value := h.value
  free := h.free
  held := by
    intro u hu
    have hne : u ≠ t := by
      rintro rfl
      exact ht hu
    dsimp only
    rw [Function.update_of_ne hne]
    exact h.held u hu
  other := by
    intro u hu
    dsimp only
    by_cases heq : u = t
    . subst heq
      rw [Function.update_self]
      exact ⟨hq, (h.other u hu).2⟩
    . rw [Function.update_of_ne heq]
      exact h.other u hu
  waiters := by
    intro u
    dsimp only
    rw [h.waiters u]
    by_cases hu : u = t
    . subst hu
      simp [h1, h2]
    . rw [Function.update_of_ne hu]
  nodup := h.nodup
  woken := by
    intro hno hw
    obtain ⟨u, hu, hr⟩ := h.woken hno hw
    refine ⟨u, ?_, hr⟩
    dsimp only
    rw [Function.update_of_ne]
    . exact hu
    . rintro rfl
      exact h1 hu

theorem step_take (h : LockInv s none) (hr : s.Runs t)
    : LockInv { s with
        locks.lock.semaphore.value := 0
        pc := Function.update s.pc t .setHolder } (some t) where
  owns := by
    intro u
    dsimp only
    by_cases hu : u = t
    . subst hu
      rw [Function.update_self]
      simp [LockPc.Owns]
    . rw [Function.update_of_ne hu, h.owns u]
      simp [Ne.symm hu]
  value := rfl
  free := by
    intro hno
    contradiction
  held := by
    intro u hu
    cases hu
    dsimp only
    rw [Function.update_self]
    exact ⟨(h.other _ (by simp)).2, h.free rfl⟩
  other := by
    intro u hu
    have hne : u ≠ t := by
      rintro rfl
      exact hu rfl
    dsimp only
    rw [Function.update_of_ne hne]
    exact h.other u (by simp)
  waiters := by
    intro u
    dsimp only
    rw [h.waiters u]
    by_cases hu : u = t
    . subst hu
      have hrun : (s.locks.status u).stopped = false := hr
      simp [hrun]
    . rw [Function.update_of_ne hu]
  nodup := h.nodup
  woken := by
    intro hno
    contradiction

theorem step_block (h : LockInv s (some u)) (hne : t ≠ u) (hr : s.Runs t)
    : LockInv { s with
        locks := ⟨Function.update s.locks.status t .blocked, { s.locks.lock with
          semaphore := ⟨0, s.locks.lock.semaphore.waiters ++ [t]⟩ }⟩
        pc := Function.update s.pc t .retry } (some u) where
  owns := by
    intro v
    dsimp only
    by_cases hv : v = t
    . subst hv
      have hd := (h.other v (by simp [Ne.symm hne])).2
      rw [Function.update_self, hd]
      simp [LockPc.Owns, Ne.symm hne]
    . rw [Function.update_of_ne hv]
      exact h.owns v
  value := rfl
  free := by
    intro hno
    contradiction
  held := by
    intro v hv
    cases hv
    dsimp only
    rw [Function.update_of_ne (Ne.symm hne)]
    have hold := h.held u rfl
    generalize s.pc u = pc at hold ⊢
    cases pc <;> exact hold
  other := by
    intro v hv
    dsimp only
    by_cases heq : v = t
    . subst heq
      rw [Function.update_self]
      exact ⟨trivial, (h.other v hv).2⟩
    . rw [Function.update_of_ne heq]
      exact h.other v hv
  waiters := by
    intro v
    dsimp only
    rw [List.mem_append, List.mem_singleton, h.waiters v]
    by_cases hv : v = t
    . subst hv
      simp [TaskStatus.stopped]
    . rw [Function.update_of_ne hv, Function.update_of_ne hv]
      simp [hv]
  nodup := by
    dsimp only
    rw [List.nodup_append]
    refine ⟨h.nodup, List.nodup_singleton t, ?_⟩
    intro a ha b hb heq
    rw [List.mem_singleton] at hb
    have hstop := ((h.waiters a).mp ha).2
    have hrun : (s.locks.status t).stopped = false := hr
    rw [heq, hb, hrun] at hstop
    contradiction
  woken := by
    intro hno
    contradiction

theorem step_up {status : T → TaskStatus} {waiters : List T} (h : LockInv s (some t))
    (hpc : s.pc t = .up)
    (hq : (s.locks.lock.semaphore.waiters = [] ∧ waiters = [] ∧ status = s.locks.status)
      ∨ ∃ u, s.locks.lock.semaphore.waiters = u :: waiters
          ∧ status = Function.update s.locks.status u .ready)
    : LockInv ⟨⟨status, { s.locks.lock with semaphore := ⟨1, waiters⟩ }⟩,
        Function.update s.pc t .outside,
        Function.update s.depth t 0⟩ none := by
  have hold := h.held t rfl
  rw [hpc] at hold
  obtain ⟨-, hholder, hrepeat⟩ := hold
  have hother : ∀ u, u ≠ t → (s.pc u).AtOther ∧ s.depth u = 0 := by
    intro u hu
    apply h.other
    simp [Ne.symm hu]
  have hretry : ∀ u, Function.update s.pc t .outside u = .retry ↔ s.pc u = .retry := by
    intro u
    by_cases hu : u = t
    . subst hu
      simp [hpc]
    . rw [Function.update_of_ne hu]
  constructor
  . intro u
    dsimp only
    by_cases hu : u = t
    . subst hu
      simp [LockPc.Owns]
    . rw [Function.update_of_ne hu, Function.update_of_ne hu, h.owns u]
      simp [Ne.symm hu]
  . rfl
  . intro _
    exact ⟨hholder, hrepeat⟩
  . intro u hu
    contradiction
  . intro u _
    dsimp only
    by_cases hu : u = t
    . subst hu
      rw [Function.update_self, Function.update_self]
      exact ⟨trivial, rfl⟩
    . rw [Function.update_of_ne hu, Function.update_of_ne hu]
      exact hother u hu
  . intro u
    dsimp only
    rw [hretry]
    cases hq with
    | inl hq =>
      obtain ⟨hnil, hw, hst⟩ := hq
      rw [hst, ← h.waiters u, hnil, hw]
    | inr hq =>
      obtain ⟨v, hcons, hst⟩ := hq
      have hnd := h.nodup
      have hmem := h.waiters u
      rw [hcons, List.mem_cons] at hmem
      rw [hcons, List.nodup_cons] at hnd
      rw [hst]
      by_cases hu : u = v
      . subst hu
        rw [Function.update_self]
        simp [hnd.1, TaskStatus.stopped]
      . rw [Function.update_of_ne hu, ← hmem]
        simp [hu]
  . have hnd := h.nodup
    cases hq with
    | inl hq =>
      rw [hq.2.1]
      exact List.nodup_nil
    | inr hq =>
      obtain ⟨v, hcons, -⟩ := hq
      rw [hcons, List.nodup_cons] at hnd
      exact hnd.2
  . intro _ hne
    cases hq with
    | inl hq => exact absurd hq.2.1 hne
    | inr hq =>
      -- the task that was woken is about to retry
      obtain ⟨v, hcons, hst⟩ := hq
      refine ⟨v, ?_, ?_⟩
      . rw [hretry]
        apply ((h.waiters v).mp _).1
        rw [hcons]
        exact List.mem_cons_self
      . dsimp only
        rw [hst, Function.update_self]

end LockInv

namespace LockSys

variable {T : Type} [DecidableEq T] {s : LockSys T} {owner : Option T} {t : T}

theorem stmt_exec {l : LockState T} {q : LockPc}
    (h : (lockStmt t (s.pc t)).run s.locks = .ok (q, l))
    : (stmt t).run s
        =
      .ok ((), ⟨l, Function.update s.pc t q,
        Function.update s.depth t ((s.pc t).after (s.depth t))⟩) := by
  unfold stmt
  rw [Cmd.exec_get_bind, Cmd.exec_bind (Cmd.exec_zoom h), Cmd.exec_modify]

theorem stmt_run {r : Unit × LockSys T} (h : (stmt t).run s = .ok r)
    : ∃ q l, (lockStmt t (s.pc t)).run s.locks = .ok (q, l)
        ∧ r.2 = ⟨l, Function.update s.pc t q,
            Function.update s.depth t ((s.pc t).after (s.depth t))⟩ := by
  unfold stmt at h
  rw [Cmd.exec_get_bind, Cmd.bind_run] at h
  obtain ⟨q, s1, h1, h2⟩ := h
  rw [Cmd.zoom_run] at h1
  obtain ⟨l, hl, hs1⟩ := h1
  rw [Cmd.exec_modify] at h2
  cases h2
  refine ⟨q, l, hl, ?_⟩
  dsimp only at hs1
  rw [hs1]

theorem update_depth_self
    : Function.update s.depth t (s.depth t) = s.depth := Function.update_eq_self ..

end LockSys

section Step

variable {T : Type} [DecidableEq T] {s : LockSys T} {owner : Option T} {t : T}

open LockSys

namespace LockInv

theorem down_step (h : LockInv s owner) (hr : s.Runs t) (hpc : s.pc t = .down ∨ s.pc t = .retry)
    : ∃ s' owner', (stmt t).run s = .ok ((), s') ∧ LockInv s' owner' := by
  have hafter : (s.pc t).after (s.depth t) = s.depth t := by
    cases hpc with
    | inl hpc =>
      rw [hpc]
      rfl
    | inr hpc =>
      rw [hpc]
      rfl
  have hrun : ∀ {b : Bool} {p : SemaState T},
      (semaDown t).run ⟨s.locks.status, s.locks.lock.semaphore⟩ = .ok (b, p) →
      (lockStmt t (s.pc t)).run s.locks
        = .ok (if b then .setHolder
            else .retry, ⟨p.status, { s.locks.lock with semaphore := p.sema }⟩) := by
    intro b p hdown
    have hdown' : (onSemaphore (semaDown t)).run s.locks
        = .ok (b, ⟨p.status, { s.locks.lock with semaphore := p.sema }⟩) := Cmd.exec_zoom hdown
    cases hpc with
    | inl hpc =>
      rw [hpc, lockStmt, Cmd.exec_get_bind, Cmd.exec_bind hdown']
      cases b <;> rfl
    | inr hpc =>
      rw [hpc, lockStmt, Cmd.exec_get_bind, Cmd.exec_bind hdown']
      cases b <;> rfl
  cases owner with
  | none =>
    have hexec :=
      stmt_exec (hrun (semaDown_takes t (p := ⟨s.locks.status, s.locks.lock.semaphore⟩) h.value))
    rw [hafter, update_depth_self] at hexec
    exact ⟨_, _, hexec, h.step_take hr⟩
  | some u =>
    have hne : t ≠ u := by
      rintro rfl
      have hold := h.held t rfl
      cases hpc with
      | inl hpc =>
        rw [hpc] at hold
        exact hold
      | inr hpc =>
        rw [hpc] at hold
        exact hold
    have hnot : t ∉ s.locks.lock.semaphore.waiters := by
      intro hmem
      have hstop := ((h.waiters t).mp hmem).2
      have hrun : (s.locks.status t).stopped = false := hr
      rw [hrun] at hstop
      contradiction
    have hexec :=
      stmt_exec
        (hrun (semaDown_blocks (p := ⟨s.locks.status, s.locks.lock.semaphore⟩) h.value hnot))
    rw [hafter, update_depth_self] at hexec
    exact ⟨_, _, hexec, h.step_block hne hr⟩

theorem up_step (h : LockInv s (some t)) (hpc : s.pc t = .up)
    : ∃ s' owner', (stmt t).run s = .ok ((), s') ∧ LockInv s' owner' := by
  have hold := h.held t rfl
  rw [hpc] at hold
  have hafter : (s.pc t).after (s.depth t) = 0 := by
    rw [hpc, LockPc.after, hold.1]
  have hrun : ∀ {p : SemaState T}, semaUp.run ⟨s.locks.status, s.locks.lock.semaphore⟩ = .ok ((), p)
      →
      (stmt t).run s = .ok ((), ⟨⟨p.status, { s.locks.lock with semaphore := p.sema }⟩,
        Function.update s.pc t .outside, Function.update s.depth t 0⟩) := by
    intro p hup
    have hup' : (onSemaphore semaUp).run s.locks
        = .ok ((), ⟨p.status, { s.locks.lock with semaphore := p.sema }⟩) := Cmd.exec_zoom hup
    have hstmt : (lockStmt t (s.pc t)).run s.locks
        = .ok (.outside, ⟨p.status, { s.locks.lock with semaphore := p.sema }⟩) := by
      rw [hpc, lockStmt, Cmd.exec_get_bind, Cmd.exec_bind hup', Cmd.exec_pure]
    have hexec := stmt_exec hstmt
    rw [hafter] at hexec
    exact hexec
  cases hw : s.locks.lock.semaphore.waiters with
  | nil =>
    have hexec := hrun (semaUp_nil (p := ⟨s.locks.status, s.locks.lock.semaphore⟩) h.value hw)
    exact ⟨_, _, hexec, h.step_up hpc (.inl ⟨hw, rfl, rfl⟩)⟩
  | cons u waiters =>
    have hmem : u ∈ s.locks.lock.semaphore.waiters := by
      rw [hw]
      exact List.mem_cons_self
    have hstop := ((h.waiters u).mp hmem).2
    have hexec :=
      hrun (semaUp_cons (p := ⟨s.locks.status, s.locks.lock.semaphore⟩) h.value hw hstop)
    exact ⟨_, _, hexec, h.step_up hpc (.inr ⟨u, hw, rfl⟩)⟩

theorem owner_step {l : Lock T} {q : LockPc} (h : LockInv s (some t))
    (hsema : l.semaphore = s.locks.lock.semaphore)
    (hrun : (lockStmt t (s.pc t)).run s.locks = .ok (q, ⟨s.locks.status, l⟩))
    (hq : q.AtOwner t l ((s.pc t).after (s.depth t))) (hd : q.Owns ((s.pc t).after (s.depth t)))
    : ∃ s' owner', (stmt t).run s = .ok ((), s') ∧ LockInv s' owner' :=
  ⟨_, _, stmt_exec hrun, h.step_owner hsema hq hd⟩

theorem toNat_add_one {x : UInt32} {d : Nat} (hx : x.toNat = d) (hd : d + 1 < 2 ^ 32)
    : (x + 1).toNat = d + 1 := by
  rw [UInt32.toNat_add, hx]
  exact Nat.mod_eq_of_lt hd

theorem toNat_sub_one {x : UInt32} {d : Nat} (hx : x.toNat = d) (hd : 0 < d)
    : (x - 1).toNat = d - 1 := by
  rw [UInt32.toNat_sub_of_le, hx]
  . rfl
  . rw [UInt32.le_iff_toNat_le, hx]
    exact hd

section Owner

variable {p q : LockPc} {l : Lock T} (h : LockInv s (some t))

include h

omit [DecidableEq T] in
theorem held_at (hat : s.pc t = p) : p.AtOwner t s.locks.lock (s.depth t) := by
  rw [← hat]
  exact h.held t rfl

theorem owner_at (hat : s.pc t = p) (hsema : l.semaphore = s.locks.lock.semaphore)
    (hrun : (lockStmt t p).run s.locks = .ok (q, ⟨s.locks.status, l⟩))
    (hq : q.AtOwner t l (p.after (s.depth t))) (hd : q.Owns (p.after (s.depth t)))
    : ∃ s' owner', (stmt t).run s = .ok ((), s') ∧ LockInv s' owner' := by
  subst hat
  exact h.owner_step hsema hrun hq hd

theorem testHolder_step (hat : s.pc t = .testHolder)
    : ∃ s' owner', (stmt t).run s = .ok ((), s') ∧ LockInv s' owner' := by
  obtain ⟨h1, h2, h3, h4⟩ := h.held_at hat
  have hrun : (lockStmt t .testHolder).run s.locks = .ok (.incRepeat, s.locks) := by
    rw [lockStmt, Cmd.exec_get_bind]
    simp only [h3, ne_eq, not_true_eq_false, ↓reduceIte, Cmd.exec_pure]
  exact h.owner_at hat rfl hrun ⟨h1, h2, h3, h4⟩ h1

theorem setHolder_step (hat : s.pc t = .setHolder)
    : ∃ s' owner', (stmt t).run s = .ok ((), s') ∧ LockInv s' owner' := by
  obtain ⟨h1, -, h3⟩ := h.held_at hat
  exact h.owner_at (l := { s.locks.lock with holder := some t }) (q := .checkZero) hat rfl rfl ⟨h1,
    rfl, h3⟩ trivial

theorem checkZero_step (hat : s.pc t = .checkZero)
    : ∃ s' owner', (stmt t).run s = .ok ((), s') ∧ LockInv s' owner' := by
  obtain ⟨h1, h2, h3⟩ := h.held_at hat
  have hzero : s.locks.lock.holderRepeatNr = 0 := UInt32.toNat_inj.mp h3
  have hrun : (lockStmt t .checkZero).run s.locks = .ok (.setRepeat, s.locks) := by
    rw [lockStmt, Cmd.exec_get_bind]
    simp only [hzero, Cmd.exec_assert_bind, ↓reduceIte, Cmd.exec_pure]
  exact h.owner_at hat rfl hrun ⟨h1, h2, h3⟩ trivial

theorem setRepeat_step (hat : s.pc t = .setRepeat)
    : ∃ s' owner', (stmt t).run s = .ok ((), s') ∧ LockInv s' owner' := by
  obtain ⟨h1, h2, -⟩ := h.held_at hat
  have hdepth : 1 = s.depth t + 1 := by omega
  exact h.owner_at (l := { s.locks.lock with holderRepeatNr := 1 }) (q := .outside) hat rfl rfl
    ⟨Nat.succ_pos _, h2, hdepth⟩ (Nat.succ_pos _)

theorem incRepeat_step (hat : s.pc t = .incRepeat)
    : ∃ s' owner', (stmt t).run s = .ok ((), s') ∧ LockInv s' owner' := by
  obtain ⟨-, h2, h3, h4⟩ := h.held_at hat
  exact h.owner_at (l := { s.locks.lock with holderRepeatNr := s.locks.lock.holderRepeatNr + 1 })
    (q := .outside) hat rfl rfl
    ⟨Nat.succ_pos _, h3, toNat_add_one h4 h2⟩ (Nat.succ_pos _)

theorem checkHolder_step (hat : s.pc t = .checkHolder)
    : ∃ s' owner', (stmt t).run s = .ok ((), s') ∧ LockInv s' owner' := by
  obtain ⟨h1, h2, h3⟩ := h.held_at hat
  have hrun : (lockStmt t .checkHolder).run s.locks = .ok (.testRepeat, s.locks) := by
    rw [lockStmt, Cmd.exec_get_bind]
    simp only [h2, Cmd.exec_assert_bind, ↓reduceIte, Cmd.exec_pure]
  exact h.owner_at hat rfl hrun ⟨h1, h2, h3⟩ h1

theorem testRepeat_step (hat : s.pc t = .testRepeat)
    : ∃ s' owner', (stmt t).run s = .ok ((), s') ∧ LockInv s' owner' := by
  obtain ⟨h1, h2, h3⟩ := h.held_at hat
  have hiff : 1 < s.locks.lock.holderRepeatNr ↔ 1 < s.depth t := by
    rw [UInt32.lt_iff_toNat_lt, h3]
    exact Iff.rfl
  by_cases hone : 1 < s.locks.lock.holderRepeatNr
  . have hrun : (lockStmt t .testRepeat).run s.locks = .ok (.decRepeat, s.locks) := by
      rw [lockStmt, Cmd.exec_get_bind]
      simp only [hone, ↓reduceIte, Cmd.exec_pure]
    exact h.owner_at hat rfl hrun ⟨hiff.mp hone, h2, h3⟩ h1
  . have hrun : (lockStmt t .testRepeat).run s.locks = .ok (.checkOne, s.locks) := by
      rw [lockStmt, Cmd.exec_get_bind]
      simp only [hone, ↓reduceIte, Cmd.exec_pure]
    have heq : s.depth t = 1 := by
      rw [hiff] at hone
      omega
    exact h.owner_at hat rfl hrun ⟨heq, h2, h3.trans heq⟩ h1

theorem decRepeat_step (hat : s.pc t = .decRepeat)
    : ∃ s' owner', (stmt t).run s = .ok ((), s') ∧ LockInv s' owner' := by
  obtain ⟨h1, h2, h3⟩ := h.held_at hat
  have hpos : 0 < s.depth t - 1 := by omega
  exact h.owner_at (l := { s.locks.lock with holderRepeatNr := s.locks.lock.holderRepeatNr - 1 })
    (q := .outside) hat rfl rfl
    ⟨hpos, h2, toNat_sub_one h3 (by omega)⟩ hpos

theorem checkOne_step (hat : s.pc t = .checkOne)
    : ∃ s' owner', (stmt t).run s = .ok ((), s') ∧ LockInv s' owner' := by
  obtain ⟨h1, h2, h3⟩ := h.held_at hat
  have hone : s.locks.lock.holderRepeatNr = 1 := UInt32.toNat_inj.mp h3
  have hrun : (lockStmt t .checkOne).run s.locks = .ok (.clearHolder, s.locks) := by
    rw [lockStmt, Cmd.exec_get_bind]
    simp only [hone, Cmd.exec_assert_bind, ↓reduceIte, Cmd.exec_pure]
  have hpos : 0 < s.depth t := by omega
  exact h.owner_at hat rfl hrun ⟨h1, h2, h3⟩ hpos

theorem clearHolder_step (hat : s.pc t = .clearHolder)
    : ∃ s' owner', (stmt t).run s = .ok ((), s') ∧ LockInv s' owner' := by
  obtain ⟨h1, -, h3⟩ := h.held_at hat
  have hpos : 0 < s.depth t := by omega
  exact h.owner_at (l := { s.locks.lock with holder := none }) (q := .clearRepeat) hat rfl rfl ⟨h1,
    rfl, h3⟩ hpos

theorem clearRepeat_step (hat : s.pc t = .clearRepeat)
    : ∃ s' owner', (stmt t).run s = .ok ((), s') ∧ LockInv s' owner' := by
  obtain ⟨h1, h2, -⟩ := h.held_at hat
  have hpos : 0 < s.depth t := by omega
  exact h.owner_at (l := { s.locks.lock with holderRepeatNr := 0 }) (q := .up) hat rfl rfl ⟨h1, h2,
    rfl⟩ hpos

theorem stmt_owner (hpc : s.pc t ≠ .outside)
    : ∃ s' owner', (stmt t).run s = .ok ((), s') ∧ LockInv s' owner' := by
  cases hat : s.pc t with
  | outside => exact absurd hat hpc
  | testHolder => exact h.testHolder_step hat
  | down => exact absurd (h.held_at hat) id
  | retry => exact absurd (h.held_at hat) id
  | setHolder => exact h.setHolder_step hat
  | checkZero => exact h.checkZero_step hat
  | setRepeat => exact h.setRepeat_step hat
  | incRepeat => exact h.incRepeat_step hat
  | checkHolder => exact h.checkHolder_step hat
  | testRepeat => exact h.testRepeat_step hat
  | decRepeat => exact h.decRepeat_step hat
  | checkOne => exact h.checkOne_step hat
  | clearHolder => exact h.clearHolder_step hat
  | clearRepeat => exact h.clearRepeat_step hat
  | up => exact h.up_step hat

end Owner

theorem stmt_other (h : LockInv s owner) (ht : owner ≠ some t) (hr : s.Runs t)
    (hpc : s.pc t ≠ .outside)
    : ∃ s' owner', (stmt t).run s = .ok ((), s') ∧ LockInv s' owner' := by
  have hat := (h.other t ht).1
  cases hs : s.pc t with
  | outside => exact absurd hs hpc
  | testHolder =>
    have hholder := h.holder_ne ht
    have hrun : (lockStmt t (s.pc t)).run s.locks = .ok (.down, s.locks) := by
      rw [hs, lockStmt, Cmd.exec_get_bind]
      simp only [ne_eq, hholder, not_false_eq_true, ↓reduceIte, Cmd.exec_pure]
    have hexec := stmt_exec hrun
    have hafter : (s.pc t).after (s.depth t) = s.depth t := by
      rw [hs]
      rfl
    rw [hafter, update_depth_self] at hexec
    refine ⟨_, owner, hexec, h.step_other (q := .down) ht trivial ?_ (by simp)⟩
    rw [hs]
    simp
  | down => exact h.down_step hr (.inl hs)
  | retry => exact h.down_step hr (.inr hs)
  | _ =>
    rw [hs] at hat
    contradiction

theorem step (h : LockInv s owner) {op : LockOp T} (ha : s.Allowed op) (hb : s.Bounded op)
    : ∃ s' owner', (exec op).run s = .ok ((), s') ∧ LockInv s' owner' := by
  cases op with
  | acquire t =>
    obtain ⟨-, hpc⟩ := ha
    refine ⟨_, owner, Cmd.exec_modify, ?_⟩
    by_cases ht : owner = some t
    . subst ht
      have hold := h.held t rfl
      rw [hpc] at hold
      have hinv := h.step_owner (l := s.locks.lock) (q := .testHolder) (d := s.depth t) rfl ⟨hold.1,
          hb, hold.2⟩ hold.1
      rw [update_depth_self] at hinv
      exact hinv
    . apply h.step_other (q := .testHolder) ht trivial
      . rw [hpc]
        simp
      . simp
  | release t =>
    obtain ⟨-, hpc, hd⟩ := ha
    refine ⟨_, owner, Cmd.exec_modify, ?_⟩
    have ht : owner = some t := by
      rw [← h.owns t, hpc]
      exact hd
    subst ht
    have hold := h.held t rfl
    rw [hpc] at hold
    have hinv := h.step_owner (l := s.locks.lock) (q := .checkHolder) (d :=
        s.depth t) rfl hold hold.1
    rw [update_depth_self] at hinv
    exact hinv
  | stmt t =>
    obtain ⟨hr, hpc⟩ := ha
    by_cases ht : owner = some t
    . subst ht
      exact h.stmt_owner hpc
    . exact h.stmt_other ht hr hpc

end LockInv

end Step

end RogOS
