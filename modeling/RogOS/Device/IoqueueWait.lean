import RogOS.Device.IoqueueSystem

/-!
When a task waits on the queue although there is something for it to do.
-/

namespace RogOS

variable {T : Type} [DecidableEq T] {s s' : IoqSys T} {t : T}

structure IoqSys.Quiet (s : IoqSys T) : Prop where
  consumer : s.st.ioq.waiter .consumer ≠ none → ioqueueEmpty s.st.ioq = true
  producer : s.st.ioq.waiter .producer ≠ none → ioqueueFull s.st.ioq = true

def IoqPc.Tested (q : Ioqueue T) : IoqPc → Prop
  | .getLock => ioqueueEmpty q = true
  | .putLock _ => ioqueueFull q = true
  | _ => True

def IoqSys.Timely (s : IoqSys T) : IoqOp T → Prop
  | .resume t => s.st.ioq.lock.semaphore.value ≠ 0 → (s.pc t).Tested s.st.ioq
  | _ => True

omit [DecidableEq T] in
theorem IoqSys.Timely.waits {op : IoqOp T} {side : IoqSide} (h : s.Timely op) (hw : op.Waits s side)
    : (side = .consumer ∧ ioqueueEmpty s.st.ioq = true)
        ∨ (side = .producer ∧ ioqueueFull s.st.ioq = true) := by
  cases op with
  | getchar t => exact .inl hw
  | putchar t byte => exact .inr hw
  | keyboard t byte => exact .inr hw
  | resume t =>
    have h : s.st.ioq.lock.semaphore.value ≠ 0 → (s.pc t).Tested s.st.ioq := h
    have hw : (s.pc t).Waits s.st.ioq side := hw
    cases hpc : s.pc t with
    | outside =>
      rw [hpc] at hw
      contradiction
    | getLock =>
      rw [hpc] at h hw
      exact .inl ⟨hw.1, h hw.2⟩
    | getWait =>
      rw [hpc] at hw
      exact .inl hw
    | putLock byte =>
      rw [hpc] at h hw
      exact .inr ⟨hw.1, h hw.2⟩
    | putWait byte =>
      rw [hpc] at hw
      exact .inr hw

theorem IoqSys.Quiet.step {op : IoqOp T} {u : Unit} (h : s.Quiet) (ht : s.Timely op)
    (hrun : (IoqSys.exec op).run s = .ok (u, s')) : s'.Quiet := by
  obtain rfl | ⟨t, r, hran, -, -⟩ := IoqSys.exec_run hrun
  . exact h
  . cases hran with
    | lock bytes waiter =>
      constructor
      . rw [waiter, bytes.empty_eq]
        exact h.consumer
      . rw [waiter, bytes.full_eq]
        exact h.producer
    | wait why bytes waiter =>
      obtain ⟨rfl, hempty⟩ | ⟨rfl, hfull⟩ := ht.waits why
      . constructor
        . intro _
          rw [bytes.empty_eq]
          exact hempty
        . rw [waiter, bytes.full_eq, Function.update_of_ne (by decide)]
          exact h.producer
      . constructor
        . rw [waiter, bytes.empty_eq, Function.update_of_ne (by decide)]
          exact h.consumer
        . intro _
          rw [bytes.full_eq]
          exact hfull
    | got tested range buf head tail waiter =>
      -- the producer was woken, and there was no consumer beside the byte
      constructor
      . intro hne
        rw [waiter, Function.update_of_ne (by decide)] at hne
        rw [h.consumer hne] at tested
        contradiction
      . intro hne
        rw [waiter, Function.update_self] at hne
        exact absurd rfl hne
    | put tested range buf head tail waiter =>
      constructor
      . intro hne
        rw [waiter, Function.update_self] at hne
        exact absurd rfl hne
      . intro hne
        rw [waiter, Function.update_of_ne (by decide)] at hne
        rw [h.producer hne] at tested
        contradiction

theorem lockDown_run {s : IoqState T} {r : Bool × IoqState T} (hv : s.ioq.lock.semaphore.value ≠ 0)
    (h : (Ioqueue.onLock (lockDown t)).run s = .ok r) : r.1 = true := by
  unfold Ioqueue.onLock at h
  rw [Cmd.zoom_run] at h
  obtain ⟨p, h, -⟩ := h
  unfold lockDown onSemaphore at h
  rw [Cmd.bind_run] at h
  obtain ⟨b, l, h1, h2⟩ := h
  rw [Cmd.zoom_run] at h1
  obtain ⟨p', h1, -⟩ := h1
  unfold semaDown at h1
  rw [Cmd.exec_get_bind, if_neg hv] at h1
  simp only [Cmd.bind_run, Cmd.pure_run] at h1
  obtain ⟨_, _, -, _, _, -, _, _, -, h3⟩ := h1
  rw [Prod.mk.injEq] at h3
  obtain ⟨rfl, -⟩ := h3
  rw [if_pos rfl, Cmd.bind_run] at h2
  obtain ⟨_, _, -, h4⟩ := h2
  rw [Cmd.pure_run, Prod.mk.injEq] at h4
  exact h4.1

theorem IoqSys.Quiet.timely {op : IoqOp T} {u : Unit} (hrun : (IoqSys.exec op).run s = .ok (u, s'))
    (h : s'.Quiet)
    : s.Timely op := by
  cases op with
  | getchar t => trivial
  | putchar t byte => trivial
  | keyboard t byte => trivial
  | resume t =>
    unfold IoqSys.exec at hrun
    rw [Cmd.exec_get_bind] at hrun
    obtain ⟨r, hres, -, -⟩ := IoqSys.call_run hrun
    intro hv
    show (s.pc t).Tested s.st.ioq
    cases hpc : s.pc t with
    | getLock =>
      rw [hpc, ioqueueResume, Cmd.bind_run] at hres
      obtain ⟨taken, s1, h1, h2⟩ := hres
      have htaken : taken = true := lockDown_run hv h1
      obtain ⟨hb, -⟩ := Ioqueue.onLock_run h1
      rw [htaken, getLocked, if_pos rfl, Cmd.bind_run] at h2
      obtain ⟨_, s2, h3, h4⟩ := h2
      rw [Cmd.pure_run, Prod.mk.injEq] at h4
      obtain ⟨hb', hw⟩ := ioqueueWait_run h3
      have hempty := h.consumer (by rw [h4.2, hw, Function.update_self]; simp)
      rw [h4.2, hb'.empty_eq, hb.empty_eq] at hempty
      exact hempty
    | putLock byte =>
      rw [hpc, ioqueueResume, Cmd.bind_run] at hres
      obtain ⟨taken, s1, h1, h2⟩ := hres
      have htaken : taken = true := lockDown_run hv h1
      obtain ⟨hb, -⟩ := Ioqueue.onLock_run h1
      rw [htaken, putLocked, if_pos rfl, Cmd.bind_run] at h2
      obtain ⟨_, s2, h3, h4⟩ := h2
      rw [Cmd.pure_run, Prod.mk.injEq] at h4
      obtain ⟨hb', hw⟩ := ioqueueWait_run h3
      have hfull := h.producer (by rw [h4.2, hw, Function.update_self]; simp)
      rw [h4.2, hb'.full_eq, hb.full_eq] at hfull
      exact hfull
    | _ => trivial

/--
Nobody waits beside something to do in every run of timely operations; the first one that is not
timely leaves a task that does.
-/
theorem ioqueue_quiet {status : T → TaskStatus} {buf : Mem}
    (h : IoqSys.Reach (fun s op => s.Allowed op ∧ s.Timely op) (IoqSys.start status buf) s)
    : s.Quiet ∧ ∀ op s', s.Allowed op → (IoqSys.exec op).run s = .ok ((), s')
        → (s'.Quiet ↔ s.Timely op) := by
  have hquiet : s.Quiet := by
    refine Cmd.Reach.invariant ?_ ?_ h
    . intro s op _ s' hs hop hrun
      exact hs.step hop.2 hrun
    . constructor
      . intro hne
        exact absurd rfl hne
      . intro hne
        exact absurd rfl hne
  refine ⟨hquiet, ?_⟩
  intro op s' _ hrun
  exact ⟨fun hq => hq.timely hrun, fun ht => hquiet.step ht hrun⟩

instance IoqPc.decidableTested {q : Ioqueue T} {pc : IoqPc} : Decidable (pc.Tested q) :=
  match pc with
  | .getLock => inferInstanceAs (Decidable (ioqueueEmpty q = true))
  | .putLock _ => inferInstanceAs (Decidable (ioqueueFull q = true))
  | .outside | .getWait | .putWait _ => inferInstanceAs (Decidable True)

instance IoqSys.decidableTimely {op : IoqOp T} : Decidable (s.Timely op) :=
  match op with
  | .getchar _ | .putchar _ _ | .keyboard _ _ => inferInstanceAs (Decidable True)
  | .resume t =>
    inferInstanceAs (Decidable (s.st.ioq.lock.semaphore.value ≠ 0 → (s.pc t).Tested s.st.ioq))

def twoConsumers
    : List (IoqOp (Fin 3)) := [.getchar 0, .getchar 1, .keyboard 2 97, .resume 0, .resume 1]

theorem ioqueue_quiet_twoConsumers
    : (Cmd.afterAll IoqSys.exec twoConsumers (IoqSys.start (fun _ => .running) Mem.zero)).Quiet :=
  (ioqueue_quiet (Cmd.reach_of_returnsWhile (k := fun s op => decide (s.Allowed op ∧ s.Timely op))
    (fun _ _ _ h => of_decide_eq_true h) (by decide))).1

def twoKeys
    : List (IoqOp (Fin 3)) := [.getchar 0, .getchar 1, .keyboard 2 97, .keyboard 2 98, .resume 0,
        .resume 1]

/-- The second consumer waits beside the second key. -/
theorem not_ioqueue_quiet
    : ¬ ∀ s : IoqSys (Fin 3),
        IoqSys.Reach IoqSys.Allowed (IoqSys.start (fun _ => .running) Mem.zero) s → s.Quiet := by
  intro h
  have hreach : IoqSys.Reach IoqSys.Allowed (IoqSys.start (fun _ => .running) Mem.zero)
      (Cmd.afterAll IoqSys.exec twoKeys (IoqSys.start (fun _ => .running) Mem.zero)) :=
    Cmd.reach_of_returnsWhile (k := fun s op => decide (s.Allowed op)) (fun _ _ _ h =>
      of_decide_eq_true h) (by decide)
  have hempty := (h _ hreach).consumer (by decide)
  revert hempty
  decide

end RogOS
