import Mathlib.Data.Finset.Card
import RogOS.Thread.Impl.Pid
import RogOS.Thread.Lemmas.LockCalls

/-!
`allocate_pid` returns `next_pid` after the lock was released. The pids are unique in the runs in
which nobody adds to `next_pid` between that and the return of another task.
-/

namespace RogOS

def PidPc.LockAt (p : LockPc) (d : Nat) : PidPc → Prop
  | .outside | .acquire => p = .outside ∧ d = 0
  | .incr => (p = .outside ∧ d = 1) ∨ (p.Acquires ∧ d = 0)
  | .release => p = .outside ∧ d = 1
  | .ret => (p = .outside ∧ d = 0) ∨ (p.Releases ∧ d = 1)

def PidPc.Counted : PidPc → Prop
  | .release | .ret => True
  | _ => False

def firstPids (n : Nat) : List Int16 := (List.range n).map fun i => Int16.ofNat (i + 1)

theorem firstPids_succ {n : Nat} : firstPids (n + 1) = firstPids n ++ [Int16.ofNat (n + 1)] := by
  unfold firstPids
  rw [List.range_succ, List.map_append, List.map_singleton]

theorem firstPids_nodup {n : Nat} (hn : n < 2 ^ 15) : (firstPids n).Nodup := by
  unfold firstPids
  apply List.Nodup.map_on
  . intro i hi j hj heq
    rw [List.mem_range] at hi hj
    have hinj := congrArg Int16.toInt heq
    rw [Int16.toInt_ofNat_of_lt (by omega), Int16.toInt_ofNat_of_lt (by omega)] at hinj
    omega
  . exact List.nodup_range

namespace PidSys

variable {T : Type}

def Prompt (s : PidSys T) : PidOp T → Prop
  | .call _ => True
  | .stmt t => s.pc t = .incr → s.locks.pc t = .outside → ∀ u, s.pc u ≠ .ret

end PidSys

structure PidInv {T : Type} (s : PidSys T) (owner : Option T) (active : Finset T) : Prop where
  locks : LockInv s.locks owner
  place : ∀ t, (s.pc t).LockAt (s.locks.pc t) (s.locks.depth t)
  pids : s.pids = firstPids s.pids.length
  one : ∀ t u, (s.pc t).Counted → (s.pc u).Counted → t = u
  idle : (∀ t, ¬ (s.pc t).Counted) → s.nextPid = Int16.ofNat s.pids.length
  counted : ∀ t, (s.pc t).Counted → s.nextPid = Int16.ofNat (s.pids.length + 1)
  mem_active : ∀ t, t ∈ active ↔ s.pc t ≠ .outside
  calls : s.calls = s.pids.length + active.card

namespace PidInv

variable {T : Type} {s : PidSys T} {owner : Option T} {active : Finset T} {t : T}

theorem start {status : T → TaskStatus} : PidInv (PidSys.start status) none ∅ where
  locks := LockInv.start
  place := fun _ => ⟨rfl, rfl⟩
  pids := rfl
  one := fun _ _ h _ => absurd h id
  idle := fun _ => rfl
  counted := fun _ h => absurd h id
  mem_active := by
    intro t
    simp [PidSys.start]
  calls := rfl

theorem depth_of_locked (h : PidInv s owner active) (hl : s.locks.pc t = .outside)
    (hpc : s.pc t = .incr ∨ s.pc t = .release)
    : s.locks.depth t = 1 := by
  have hplace := h.place t
  obtain hpc | hpc := hpc
  . rw [hpc, hl] at hplace
    obtain ⟨-, hd⟩ | ⟨hacq, -⟩ := hplace
    . exact hd
    . exact absurd hacq id
  . rw [hpc] at hplace
    exact hplace.2

theorem depth_of_ret (h : PidInv s owner active) (hl : s.locks.pc t = .outside)
    (hpc : s.pc t = .ret)
    : s.locks.depth t = 0 := by
  have hplace := h.place t
  rw [hpc, hl] at hplace
  obtain ⟨-, hd⟩ | ⟨hrel, -⟩ := hplace
  . exact hd
  . exact absurd hrel id

variable [DecidableEq T]

theorem step_own {l : LockSys T} {owner' : Option T} {q : PidPc} (h : PidInv s owner active)
    (hl : LockInv l owner') (happ : s.locks.Apart t l) (hq : q.LockAt (l.pc t) (l.depth t))
    (hcount : q.Counted ↔ (s.pc t).Counted) (hin : s.pc t ≠ .outside) (hin' : q ≠ .outside)
    : PidInv { s with locks := l, pc := Function.update s.pc t q } owner' active := by
  have hcounted : ∀ u, (Function.update s.pc t q u).Counted ↔ (s.pc u).Counted := by
    intro u
    by_cases hu : u = t
    . subst hu
      rw [Function.update_self]
      exact hcount
    . rw [Function.update_of_ne hu]
  constructor
  . exact hl
  . intro u
    dsimp only
    by_cases hu : u = t
    . subst hu
      rw [Function.update_self]
      exact hq
    . rw [Function.update_of_ne hu, happ.pc u hu, happ.depth u hu]
      exact h.place u
  . exact h.pids
  . intro u v hu hv
    exact h.one u v ((hcounted u).mp hu) ((hcounted v).mp hv)
  . intro hno
    exact h.idle fun u hu => hno u ((hcounted u).mpr hu)
  . intro u hu
    exact h.counted u ((hcounted u).mp hu)
  . intro u
    dsimp only
    rw [h.mem_active u]
    by_cases hu : u = t
    . subst hu
      rw [Function.update_self]
      exact iff_of_true hin hin'
    . rw [Function.update_of_ne hu]
  . exact h.calls

theorem step_call (h : PidInv s owner active) (hpc : s.pc t = .outside)
    : PidInv { s with calls := s.calls + 1, pc := Function.update s.pc t .acquire } owner
        (insert t active) := by
  have hcounted : ∀ u, (Function.update s.pc t PidPc.acquire u).Counted ↔ (s.pc u).Counted := by
    intro u
    by_cases hu : u = t
    . subst hu
      rw [Function.update_self, hpc]
      exact Iff.rfl
    . rw [Function.update_of_ne hu]
  have hnot : t ∉ active := by
    rw [h.mem_active t, hpc]
    exact not_not_intro rfl
  constructor
  . exact h.locks
  . intro u
    dsimp only
    have hplace := h.place u
    by_cases hu : u = t
    . subst hu
      rw [hpc] at hplace
      rw [Function.update_self]
      exact hplace
    . rw [Function.update_of_ne hu]
      exact hplace
  . exact h.pids
  . intro u v hu hv
    exact h.one u v ((hcounted u).mp hu) ((hcounted v).mp hv)
  . intro hno
    exact h.idle fun u hu => hno u ((hcounted u).mpr hu)
  . intro u hu
    exact h.counted u ((hcounted u).mp hu)
  . intro u
    dsimp only
    rw [Finset.mem_insert, h.mem_active u]
    by_cases hu : u = t
    . subst hu
      rw [Function.update_self]
      simp
    . rw [Function.update_of_ne hu]
      simp [hu]
  . dsimp only
    rw [Finset.card_insert_of_notMem hnot, h.calls]
    omega

theorem step_incr (h : PidInv s owner active) (hl : s.locks.pc t = .outside) (hpc : s.pc t = .incr)
    (hret : ∀ u, s.pc u ≠ .ret)
    : PidInv { s with nextPid := s.nextPid + 1, pc := Function.update s.pc t .release } owner
        active := by
  have hd := h.depth_of_locked hl (.inl hpc)
  have hno : ∀ u, ¬ (s.pc u).Counted := by
    intro u hu
    have hrelease : s.pc u = .release := by
      have hne := hret u
      cases hcase : s.pc u <;> rw [hcase] at hu hne <;> first | rfl | contradiction
    -- both tasks would have the lock
    have hplace := h.place u
    rw [hrelease] at hplace
    have hu' := h.locks.owner_of_depth (t := u) (by have := hplace.2; omega)
    have ht' := h.locks.owner_of_depth (t := t) (by omega)
    have heq := Option.some.inj (hu'.symm.trans ht')
    subst heq
    rw [hrelease] at hpc
    contradiction
  have hnext := h.idle hno
  have hself : ∀ u, (Function.update s.pc t PidPc.release u).Counted → u = t := by
    intro u hu
    by_contra hne
    rw [Function.update_of_ne hne] at hu
    exact hno u hu
  constructor
  . exact h.locks
  . intro u
    dsimp only
    by_cases hu : u = t
    . subst hu
      rw [Function.update_self]
      exact ⟨hl, hd⟩
    . rw [Function.update_of_ne hu]
      exact h.place u
  . exact h.pids
  . intro u v hu hv
    exact (hself u hu).trans (hself v hv).symm
  . intro hidle
    apply absurd _ (hidle t)
    dsimp only
    rw [Function.update_self]
    trivial
  . intro u _
    dsimp only
    rw [hnext, Int16.ofNat_add]
    rfl
  . intro u
    dsimp only
    rw [h.mem_active u]
    by_cases hu : u = t
    . subst hu
      rw [Function.update_self, hpc]
      simp
    . rw [Function.update_of_ne hu]
  . exact h.calls

theorem step_ret (h : PidInv s owner active) (hl : s.locks.pc t = .outside) (hpc : s.pc t = .ret)
    : PidInv { s with pids := s.pids ++ [s.nextPid], pc := Function.update s.pc t .outside } owner
        (active.erase t) := by
  have hd := h.depth_of_ret hl hpc
  have hcount : (s.pc t).Counted := by
    rw [hpc]
    trivial
  have hnext := h.counted t hcount
  have hno : ∀ u, ¬ (Function.update s.pc t PidPc.outside u).Counted := by
    intro u hu
    by_cases hne : u = t
    . subst hne
      rw [Function.update_self] at hu
      exact hu
    . rw [Function.update_of_ne hne] at hu
      exact hne (h.one u t hu hcount)
  constructor
  . exact h.locks
  . intro u
    dsimp only
    by_cases hu : u = t
    . subst hu
      rw [Function.update_self]
      exact ⟨hl, hd⟩
    . rw [Function.update_of_ne hu]
      exact h.place u
  . dsimp only
    rw [List.length_append, List.length_singleton, firstPids_succ, ← h.pids, hnext]
  . intro u v hu
    exact absurd hu (hno u)
  . intro _
    dsimp only
    rw [List.length_append, List.length_singleton]
    exact hnext
  . intro u hu
    exact absurd hu (hno u)
  . intro u
    dsimp only
    rw [Finset.mem_erase, h.mem_active u]
    by_cases hu : u = t
    . subst hu
      rw [Function.update_self]
      simp
    . rw [Function.update_of_ne hu]
      simp [hu]
  . have hmem : t ∈ active := by
      rw [h.mem_active t, hpc]
      simp
    have hcard := Finset.card_erase_add_one hmem
    dsimp only
    rw [List.length_append, List.length_singleton, h.calls]
    omega

section Step

open PidSys

omit [DecidableEq T] in
theorem onLocks_run {x : Cmd Fault (LockSys T) Unit} {l : LockSys T}
    (h : x.run s.locks = .ok ((), l))
    : (onLocks x).run s = .ok ((), { s with locks := l }) := Cmd.exec_zoom h

theorem move_run {q : PidPc}
    : (move t q).run s = .ok ((), { s with pc := Function.update s.pc t q }) := rfl

theorem step_lock {o : LockOp T} {p : LockPc} {q : PidPc} (h : PidInv s owner active)
    (hop : LockSys.exec o = modify fun l => l.goto t p) (ha : s.locks.Allowed o)
    (hb : s.locks.Bounded o) (hq : q.LockAt p (s.locks.depth t))
    (hcount : q.Counted ↔ (s.pc t).Counted) (hin : s.pc t ≠ .outside)
    (hin' : q ≠ .outside)
    : ∃ s' owner' active', (onLocks (LockSys.exec o) >>= fun _ => move t q).run s = .ok ((), s')
        ∧ PidInv s' owner' active' := by
  obtain ⟨l, owner', hrun, hl⟩ := h.locks.step ha hb
  have hgoto : l = s.locks.goto t p := by
    rw [hop, Cmd.exec_modify] at hrun
    cases hrun
    rfl
  refine ⟨_, owner', active, (Cmd.exec_bind (onLocks_run hrun)).trans move_run, ?_⟩
  subst hgoto
  apply h.step_own hl
  . refine ⟨?_, fun _ _ => rfl, fun _ _ _ => rfl⟩
    intro u hu
    exact Function.update_of_ne hu ..
  . unfold LockSys.goto
    dsimp only
    rw [Function.update_self]
    exact hq
  . exact hcount
  . exact hin
  . exact hin'

theorem step_inLock (h : PidInv s owner active) (hr : s.locks.Runs t) (hl : s.locks.pc t ≠ .outside)
    : ∃ s' owner' active', (onLocks (LockSys.exec (.stmt t))).run s = .ok ((), s')
        ∧ PidInv s' owner' active' := by
  obtain ⟨l, owner', hrun, hinv⟩ :=
    h.locks.step (show s.locks.Allowed (.stmt t) from ⟨hr, hl⟩) trivial
  have hplace := h.place t
  have hin : s.pc t ≠ .outside := by
    intro hpc
    rw [hpc] at hplace
    exact hl hplace.1
  have hplace' : (s.pc t).LockAt (l.pc t) (l.depth t) := by
    cases hpc : s.pc t <;> rw [hpc] at hplace
    case incr =>
      obtain ⟨hout, -⟩ | ⟨hacq, hd⟩ := hplace
      . exact absurd hout hl
      . exact hinv.acquires_stmt hrun hacq hd
    case ret =>
      obtain ⟨hout, -⟩ | ⟨hrel, hd⟩ := hplace
      . exact absurd hout hl
      . exact hinv.releases_stmt hrun hrel hd
    all_goals exact absurd hplace.1 hl
  have hstep := h.step_own (q := s.pc t) hinv (h.locks.apart hrun) hplace' Iff.rfl hin hin
  rw [Function.update_eq_self] at hstep
  exact ⟨_, owner', active, onLocks_run hrun, hstep⟩

theorem step_stmt (h : PidInv s owner active) (hr : s.locks.Runs t) (hl : s.locks.pc t = .outside)
    (hin : s.pc t ≠ .outside) (hp : s.Prompt (.stmt t))
    : ∃ s' owner' active', (allocatePid t).run s = .ok ((), s') ∧ PidInv s' owner' active' := by
  have hplace := h.place t
  unfold allocatePid
  rw [Cmd.exec_get_bind]
  cases hpc : s.pc t <;> rw [hpc] at hplace
  case outside => exact absurd hpc hin
  case acquire =>
    have hb : s.locks.Bounded (.acquire t) := by
      show s.locks.depth t + 1 < 2 ^ 32
      rw [hplace.2]
      decide
    apply h.step_lock (o := .acquire t) (p := .testHolder) (q := .incr) rfl ⟨hr, hl⟩ hb
      (.inr ⟨trivial, hplace.2⟩) _ hin
    . simp
    . rw [hpc]
      exact Iff.rfl
  case incr => exact ⟨_, owner, active, rfl, h.step_incr hl hpc (hp hpc hl)⟩
  case release =>
    have hpos : 0 < s.locks.depth t := by
      rw [hplace.2]
      exact Nat.one_pos
    apply h.step_lock (o := .release t) (p := .checkHolder) (q := .ret) rfl ⟨hr, hl, hpos⟩ trivial
      (.inr ⟨trivial, hplace.2⟩) _ hin
    . simp
    . rw [hpc]
      exact Iff.rfl
  case ret => exact ⟨_, owner, _, rfl, h.step_ret hl hpc⟩

theorem step (h : PidInv s owner active) {op : PidOp T} (ha : s.Allowed op) (hp : s.Prompt op)
    : ∃ s' owner' active', (exec op).run s = .ok ((), s') ∧ PidInv s' owner' active' := by
  cases op with
  | call t => exact ⟨_, owner, _, rfl, h.step_call ha.2⟩
  | stmt t =>
    obtain ⟨hr, hin⟩ := ha
    unfold exec
    rw [Cmd.exec_get_bind]
    split
    . next hl => exact h.step_stmt hr hl hin hp
    . next hl => exact h.step_inLock hr hl

end Step

end PidInv

section Pids

variable {T : Type} [DecidableEq T]

abbrev PidSys.Reach (guard : PidSys T → PidOp T → Prop)
    : PidSys T → PidSys T → Prop := Cmd.Reach PidSys.exec guard

/--
Any number of tasks call `allocate_pid`, interrupted between any two statements. As long as
`next_pid++` is never executed while another task is between its `lock_release` and its return, no
pid is returned twice.
-/
theorem pids_unique {status : T → TaskStatus} {s : PidSys T}
    (h : PidSys.Reach (fun s op => s.Allowed op ∧ s.Prompt op) (PidSys.start status) s)
    (hcalls : s.calls < 32767)
    : s.pids.Nodup := by
  have hinv : ∃ owner active, PidInv s owner active := by
    refine Cmd.Reach.invariant (P := fun s => ∃ owner active, PidInv s owner active) ?_ ⟨none, ∅,
      PidInv.start⟩ h
    rintro s op _ s' ⟨owner, active, hs⟩ ⟨ha, hp⟩ hrun
    obtain ⟨s'', owner', active', hrun', hs'⟩ := hs.step ha hp
    rw [hrun'] at hrun
    cases hrun
    exact ⟨owner', active', hs'⟩
  obtain ⟨owner, active, hs⟩ := hinv
  have hle := hs.calls
  rw [hs.pids]
  apply firstPids_nodup
  omega

end Pids

section Runs

instance PidSys.decidableAllowed {T : Type} {s : PidSys T} {op : PidOp T}
    : Decidable (s.Allowed op) :=
  match op with
  | .call t =>
    inferInstanceAs (Decidable ((s.locks.locks.status t).stopped = false ∧ s.pc t = .outside))
  | .stmt t =>
    inferInstanceAs (Decidable ((s.locks.locks.status t).stopped = false ∧ s.pc t ≠ .outside))

instance PidSys.decidablePrompt {s : PidSys Bool} {op : PidOp Bool} : Decidable (s.Prompt op) :=
  match op with
  | .call _ => inferInstanceAs (Decidable True)
  | .stmt t =>
    inferInstanceAs (Decidable (s.pc t = .incr → s.locks.pc t = .outside → ∀ u, s.pc u ≠ .ret))

def noPids : PidSys Bool := PidSys.start fun _ => .running

def toReturn (t : Bool) : List (PidOp Bool) := .call t :: List.replicate 14 (.stmt t)

def inTurn : List (PidOp Bool) := toReturn true ++ .stmt true :: (toReturn false ++ [.stmt false])

theorem pids_unique_inTurn : (Cmd.afterAll PidSys.exec inTurn noPids).pids.Nodup :=
  pids_unique (Cmd.reach_of_returnsWhile (k := fun s op => decide (s.Allowed op ∧ s.Prompt op))
    (fun _ _ _ h => of_decide_eq_true h) (by decide +kernel)) (by decide +kernel)

def interrupted
    : List (PidOp Bool) := toReturn true ++ (toReturn false ++ [.stmt true, .stmt false])

/-- Both tasks get the pid 2. -/
theorem not_pids_unique
    : ¬ ∀ s : PidSys Bool, PidSys.Reach PidSys.Allowed noPids s → s.calls < 32767
        → s.pids.Nodup := by
  intro h
  have hreach : PidSys.Reach PidSys.Allowed noPids (Cmd.afterAll PidSys.exec interrupted noPids) :=
    Cmd.reach_of_returnsWhile (k := fun s op => decide (s.Allowed op)) (fun _ _ _ h =>
      of_decide_eq_true h) (by decide +kernel)
  have hnodup := h _ hreach (by decide +kernel)
  revert hnodup
  decide +kernel

end Runs

end RogOS
