import RogOS.Thread.Lemmas.Sched

/-!
Every interrupt-disabled section of the scheduler keeps the tasks in the lists that their status
asks for.
-/

namespace RogOS

variable {T S W : Type}

structure SchedInv (s : Sched T S W) (q : Queues T S) (r : Option T) : Prop where
  linked : q.Linked s.links
  inv : q.Inv s.status s.idleThread s.waiter r
  all : q.all = s.tasks
  value : ∀ psema, s.value psema = 0 ∨ s.value psema = 1
  magic : ∀ t ∈ s.tasks, (s.pcb t).stackMagic = stackMagic

namespace SchedInv

open Sched

variable [DecidableEq T] [DecidableEq S] {s : Sched T S W} {q : Queues T S} {r : Option T} {t : T}

omit [DecidableEq S] in
theorem of_pcb {q' : Queues T S} {r' : Option T} {k : Links (TaskElem T S)} {p : TaskStruct}
    (h : SchedInv s q r) (hk : q'.Linked k) (hall : q'.all = q.all)
    (hmagic : p.stackMagic = (s.pcb t).stackMagic)
    (hinv : q'.Inv (Function.update s.status t p.status) s.idleThread s.waiter r')
    : SchedInv { s with links := k, pcb := Function.update s.pcb t p } q' r' where
  linked := hk
  inv := by
    have hst : Sched.status { s with links := k, pcb := Function.update s.pcb t p }
        = Function.update s.status t p.status :=
      status_update
    rw [hst]
    exact hinv
  all := hall.trans h.all
  value := h.value
  magic := by
    intro u hu
    dsimp only
    by_cases heq : u = t
    . subst heq
      rw [Function.update_self, hmagic]
      exact h.magic u hu
    . rw [Function.update_of_ne heq]
      exact h.magic u hu

omit [DecidableEq T] [DecidableEq S] in
theorem of_cur (h : SchedInv s q r) (cur : T) (ticks : UInt32) (intrOn : Bool)
    : SchedInv { s with cur := cur, ticks := ticks, intrOn := intrOn } q r :=
  ⟨h.linked, h.inv, h.all, h.value, h.magic⟩

omit [DecidableEq S] in
theorem of_pcb_same {p : TaskStruct} (h : SchedInv s q r) (hst : p.status = (s.pcb t).status)
    (hmagic : p.stackMagic = (s.pcb t).stackMagic)
    : SchedInv { s with pcb := Function.update s.pcb t p } q r := by
  apply h.of_pcb h.linked rfl hmagic
  have hself : Function.update s.status t p.status = s.status := by
    rw [hst]
    exact Function.update_eq_self ..
  rw [hself]
  exact h.inv

omit [DecidableEq T] in
theorem of_value (h : SchedInv s q r) (psema : S) {v : UInt8} (hv : v = 0 ∨ v = 1)
    : SchedInv { s with value := Function.update s.value psema v } q r where
  linked := h.linked
  inv := h.inv
  all := h.all
  value := by
    intro psema'
    dsimp only
    by_cases heq : psema' = psema
    . rw [heq, Function.update_self]
      exact hv
    . rw [Function.update_of_ne heq]
      exact h.value psema'
  magic := h.magic

theorem pop_waiters {psema : S} {rest : List T} (h : SchedInv s q r)
    (hq : q.waiters psema = t :: rest)
    : SchedInv { s with links := s.links.remove (.generalTag t) }
        { q with waiters := Function.update q.waiters psema rest } r
      ∧ ∀ psema', t ∉ Function.update q.waiters psema rest psema' := by
  have hmem : t ∈ q.waiters psema := by
    rw [hq]
    exact List.mem_cons_self
  have hnd := h.linked.waiters_nodup psema
  rw [hq, List.nodup_cons] at hnd
  refine ⟨⟨(h.linked.pop_waiters hq).2, ?_, h.all, h.value, h.magic⟩, ?_⟩
  . apply h.inv.mono_waiters
    intro psema' u hu
    by_cases heq : psema' = psema
    . rw [heq, Function.update_self] at hu
      rw [heq, hq]
      exact List.mem_cons_of_mem _ hu
    . rw [Function.update_of_ne heq] at hu
      exact hu
  . intro psema' hin
    by_cases heq : psema' = psema
    . rw [heq, Function.update_self] at hin
      exact hnd.1 hin
    . rw [Function.update_of_ne heq] at hin
      exact heq (h.linked.waiters_unique hin hmem)

section Schedule

variable [Fintype T]

theorem threadUnblock_step (h : SchedInv s q r) (ht : t ∈ q.all)
    (hstop : (s.status t).stopped = true) (hw : ∀ psema, t ∉ q.waiters psema)
    (hp : ∀ w, s.waiter w ≠ some t)
    : ∃ k, (Sched.threadUnblock t).run s = .ok ((), { s with
          links := k
          pcb := Function.update s.pcb t { s.pcb t with status := .ready } })
        ∧ SchedInv { s with
            links := k
            pcb := Function.update s.pcb t { s.pcb t with status := .ready } }
          { q with ready := t :: q.ready } r := by
  have hr : t ∉ q.ready := by
    intro hmem
    have hst := ((h.inv.ready t).mp hmem).2
    rw [hst] at hstop
    contradiction
  obtain ⟨k, hrun, hk⟩ := Sched.threadUnblock_exec h.linked hstop hr hw
  exact ⟨k, hrun, h.of_pcb hk rfl rfl (h.inv.unblock ht hstop hw hp)⟩

theorem wakeIdle_step (h : SchedInv s q none)
    : ∃ s' q', wakeIdle.run s = .ok ((), s') ∧ SchedInv s' q' none ∧ q'.ready ≠ [] := by
  unfold wakeIdle
  by_cases hready : q.ready = []
  . have hempty : Sched.listEmpty s .ready = true := by
      rw [listEmpty_iff _ h.linked]
      unfold Queues.elems
      rw [hready, List.map_nil]
    have hnot : s.idleThread ∉ q.ready := by
      rw [hready]
      exact List.not_mem_nil
    -- nobody else is running, so that the idle task is stopped
    have hstop := h.inv.stopped_of_not_ready h.inv.idle_mem (by simp) hnot
    have hw : ∀ psema, s.idleThread ∉ q.waiters psema := fun psema hmem =>
      (h.inv.waiting psema _ hmem).2.2 rfl
    have hp : ∀ w, s.waiter w ≠ some s.idleThread := fun w hw => (h.inv.placed w _ hw).2.2.1 rfl
    obtain ⟨k, hrun, hinv⟩ := h.threadUnblock_step h.inv.idle_mem hstop hw hp
    refine ⟨_, _, ?_, hinv, by simp⟩
    rw [Cmd.exec_get_bind, if_pos hempty]
    exact hrun
  . have hempty : ¬ Sched.listEmpty s .ready = true := by
      rw [listEmpty_iff _ h.linked]
      unfold Queues.elems
      rw [List.map_eq_nil_iff]
      exact hready
    refine ⟨s, q, ?_, h, hready⟩
    rw [Cmd.exec_get_bind, if_neg hempty]
    rfl

omit [Fintype T] in
theorem switchNext_step (h : SchedInv s q none) (hready : q.ready ≠ [])
    : ∃ s' q', switchNext.run s = .ok ((), s') ∧ SchedInv s' q' (some s'.cur) := by
  obtain ⟨t, rest, hq⟩ := List.exists_cons_of_ne_nil hready
  obtain ⟨hnext, hk⟩ := h.linked.pop_ready hq
  have hempty : Sched.listEmpty s .ready = false := by
    rw [← Bool.not_eq_true, listEmpty_iff _ h.linked]
    unfold Queues.elems
    rw [List.map_eq_nil_iff]
    exact hready
  have hinv := h.of_pcb (p := { s.pcb t with status := .running }) hk rfl rfl
    (h.inv.dispatch h.linked.ready_nodup hq)
  exact ⟨_, _, switchNext_exec hempty hnext, hinv.of_cur t s.ticks s.intrOn⟩

theorem scheduleNext_step (h : SchedInv s q none)
    : ∃ s' q', scheduleNext.run s = .ok ((), s') ∧ SchedInv s' q' (some s'.cur) := by
  obtain ⟨s1, q1, hrun1, hinv1, hready⟩ := h.wakeIdle_step
  obtain ⟨s2, q2, hrun2, hinv2⟩ := hinv1.switchNext_step hready
  refine ⟨s2, q2, ?_, hinv2⟩
  unfold scheduleNext
  rw [Cmd.exec_bind hrun1, hrun2]

theorem schedule_step_stopped (h : SchedInv s q none) (hintr : s.intrOn = false)
    (hcur : s.cur ∈ q.all)
    : ∃ s' q', schedule.run s = .ok ((), s') ∧ SchedInv s' q' (some s'.cur) := by
  have hne : ¬ (s.pcb s.cur).status = .running := by
    intro hst
    have hr := (h.inv.running s.cur hcur).mp hst
    contradiction
  obtain ⟨s', q', hrun, hinv⟩ := h.scheduleNext_step
  refine ⟨s', q', ?_, hinv⟩
  unfold schedule
  rw [Cmd.exec_get_bind, Cmd.exec_assert_bind, if_pos hintr, if_neg hne]
  exact hrun

theorem schedule_step_running (h : SchedInv s q (some s.cur)) (hintr : s.intrOn = false)
    : ∃ s' q', schedule.run s = .ok ((), s') ∧ SchedInv s' q' (some s'.cur) := by
  obtain ⟨hready, hw, -⟩ := h.inv.free_of_running
  have hst : (s.pcb s.cur).status = .running := h.inv.status_of_running
  have hk := h.linked.append_ready hready hw
  have hpark :=
    h.of_pcb (p := { s.pcb s.cur with ticks := (s.pcb s.cur).priority, status := .ready }) hk rfl
      rfl h.inv.park
  obtain ⟨s', q', hrun, hinv⟩ := hpark.scheduleNext_step
  refine ⟨s', q', ?_, hinv⟩
  have hnot : TaskElem.generalTag s.cur ∉ q.elems .ready := by
    simp [hready]
  unfold schedule
  rw [Cmd.exec_get_bind, Cmd.exec_assert_bind, if_pos hintr, if_pos hst,
    Cmd.exec_bind (assertNotFound_exec h.linked hnot)]
  exact hrun

theorem threadBlock_of {stat : TaskStatus} (hstat : stat.stopped = true)
    (h : SchedInv { s with pcb := Function.update s.pcb s.cur { s.pcb s.cur with status := stat } }
      q none)
    (hcur : s.cur ∈ q.all)
    : ∃ s' q', (Sched.threadBlock stat).run s = .ok ((), s') ∧ SchedInv s' q' (some s'.cur) := by
  have hoff := h.of_cur s.cur s.ticks false
  obtain ⟨s', q', hrun, hinv⟩ := hoff.schedule_step_stopped rfl hcur
  refine ⟨s', q', ?_, hinv⟩
  unfold Sched.threadBlock
  rw [Cmd.exec_assert_bind, if_pos hstat]
  exact hrun

theorem threadBlock_step {stat : TaskStatus} (h : SchedInv s q (some s.cur))
    (hstat : stat.stopped = true)
    : ∃ s' q', (Sched.threadBlock stat).run s = .ok ((), s') ∧ SchedInv s' q' (some s'.cur) :=
  threadBlock_of hstat (h.of_pcb (p := { s.pcb s.cur with status := stat }) h.linked rfl rfl
    (h.inv.block hstat))
    (h.inv.current s.cur rfl)

theorem threadYield_step (h : SchedInv s q (some s.cur))
    : ∃ s' q', threadYield.run s = .ok ((), s') ∧ SchedInv s' q' (some s'.cur) := by
  obtain ⟨hready, hw, -⟩ := h.inv.free_of_running
  have hk := h.linked.append_ready hready hw
  have hpark := h.of_pcb (p := { s.pcb s.cur with status := .ready }) hk rfl rfl h.inv.park
  have hoff := hpark.of_cur s.cur s.ticks false
  obtain ⟨s', q', hrun, hinv⟩ := hoff.schedule_step_stopped rfl (h.inv.current s.cur rfl)
  refine ⟨s', q', ?_, hinv⟩
  have hnot : TaskElem.generalTag s.cur ∉ q.elems .ready := by
    simp [hready]
  have hoff' : q.Linked { s with intrOn := false }.links := h.linked
  unfold threadYield intrDisable
  rw [Cmd.exec_modify_bind, Cmd.exec_get_bind, Cmd.exec_bind (assertNotFound_exec hoff' hnot)]
  exact hrun

theorem intrTimerHandler_step (h : SchedInv s q (some s.cur))
    : ∃ s' q', intrTimerHandler.run s = .ok ((), s') ∧ SchedInv s' q' (some s'.cur) := by
  have hcur := h.inv.current s.cur rfl
  rw [h.all] at hcur
  have hmagic := h.magic s.cur hcur
  have htick :=
    (h.of_pcb_same (p := { s.pcb s.cur with elapsedTicks := (s.pcb s.cur).elapsedTicks + 1 }) rfl
      rfl).of_cur
    s.cur (s.ticks + 1) false
  by_cases hslice : (s.pcb s.cur).ticks = 0
  . obtain ⟨s', q', hrun, hinv⟩ := htick.schedule_step_running rfl
    refine ⟨s', q', ?_, hinv⟩
    unfold intrTimerHandler intrDisable
    rw [Cmd.exec_modify_bind, Cmd.exec_get_bind, Cmd.exec_assert_bind, if_pos hmagic, if_pos hslice]
    exact hrun
  . refine ⟨_, q, ?_, htick.of_pcb_same (t := s.cur) (p := { Function.update s.pcb s.cur
      { s.pcb s.cur with elapsedTicks := (s.pcb s.cur).elapsedTicks + 1 } s.cur with
        ticks := (Function.update s.pcb s.cur
          { s.pcb s.cur with elapsedTicks := (s.pcb s.cur).elapsedTicks + 1 } s.cur).ticks - 1 })
            rfl rfl⟩
    unfold intrTimerHandler intrDisable
    rw [Cmd.exec_modify_bind, Cmd.exec_get_bind, Cmd.exec_assert_bind, if_pos hmagic, if_neg hslice]
    rfl

theorem semaDown_step {psema : S} (h : SchedInv s q (some s.cur)) (hne : s.cur ≠ s.idleThread)
    : ∃ s' q', (Sched.semaDown psema).run s = .ok ((), s') ∧ SchedInv s' q' (some s'.cur) := by
  obtain ⟨hready, hw, -⟩ := h.inv.free_of_running
  by_cases hv : s.value psema = 0
  . have hk := h.linked.append_waiters psema hready hw
    have hwait := h.of_pcb (p := { s.pcb s.cur with status := .blocked }) hk rfl rfl
      (h.inv.wait hne)
    have hoff := hwait.of_cur s.cur s.ticks false
    obtain ⟨s', q', hrun, hinv⟩ := threadBlock_of (s := { s with
      intrOn := false
      links := s.links.insertBefore (.tail (.waiters psema)) (.generalTag s.cur) }) rfl hoff
        (h.inv.current s.cur rfl)
    refine ⟨s', q', ?_, hinv⟩
    have hnot : TaskElem.generalTag s.cur ∉ q.elems (.waiters psema) := by
      simp [hw psema]
    have hoff' : q.Linked { s with intrOn := false }.links := h.linked
    unfold Sched.semaDown intrDisable
    rw [Cmd.exec_modify_bind, Cmd.exec_get_bind, if_pos hv,
      Cmd.exec_bind (assertNotFound_exec hoff' hnot)]
    exact hrun
  . have hone : s.value psema = 1 := (h.value psema).resolve_left hv
    have htake := (h.of_value psema (v := 0) (.inl rfl)).of_cur s.cur s.ticks false
    refine ⟨_, q, ?_, htake⟩
    have hsub : (1 : UInt8) - 1 = 0 := by decide
    have hzero : Function.update s.value psema 0 psema = 0 := Function.update_self ..
    unfold Sched.semaDown intrDisable
    rw [Cmd.exec_modify_bind, Cmd.exec_get_bind, if_neg hv, Cmd.exec_modify_bind, Cmd.exec_get_bind]
    dsimp only
    rw [hone, hsub, Cmd.exec_assert, if_pos hzero]

theorem semaUp_step {psema : S} (h : SchedInv s q (some s.cur)) (hv : s.value psema = 0)
    : ∃ s' q', (Sched.semaUp psema).run s = .ok ((), s') ∧ SchedInv s' q' (some s'.cur) := by
  have hadd : (0 : UInt8) + 1 = 1 := by decide
  have hone : Function.update s.value psema 1 psema = 1 := Function.update_self ..
  have hempty := listEmpty_iff (.waiters psema) h.linked
  unfold Sched.semaUp
  rw [Cmd.exec_get_bind, Cmd.exec_assert_bind, if_pos hv]
  cases hq : q.waiters psema with
  | nil =>
    refine ⟨_, q, ?_, h.of_value psema (v := 1) (.inr rfl)⟩
    have hyes : ¬ Sched.listEmpty s (.waiters psema) = false := by
      rw [Bool.not_eq_false, hempty]
      unfold Queues.elems
      dsimp only
      rw [hq, List.map_nil]
    rw [if_neg hyes, Cmd.exec_modify_bind, Cmd.exec_get_bind]
    dsimp only
    rw [hv, hadd, Cmd.exec_assert, if_pos hone]
  | cons t rest =>
    have hmem : t ∈ q.waiters psema := by
      rw [hq]
      exact List.mem_cons_self
    have hno : Sched.listEmpty s (.waiters psema) = false := by
      rw [← Bool.not_eq_true, hempty]
      unfold Queues.elems
      dsimp only
      rw [hq, List.map_cons]
      simp
    obtain ⟨hall, hstop, -⟩ := h.inv.waiting psema t hmem
    obtain ⟨hpop, hfree⟩ := h.pop_waiters hq
    have hp : ∀ w, s.waiter w ≠ some t := fun w hw => (h.inv.placed w t hw).2.2.2 psema hmem
    obtain ⟨k, hrun, hinv⟩ := hpop.threadUnblock_step hall hstop hfree hp
    refine ⟨_, _, ?_, hinv.of_value psema (v := 1) (.inr rfl)⟩
    rw [if_pos hno, Cmd.exec_bind (listPop_exec (h.linked.pop_waiters hq).1)]
    unfold elem2entry
    dsimp only
    rw [Cmd.exec_pure_bind, Cmd.exec_bind hrun, Cmd.exec_modify_bind, Cmd.exec_get_bind]
    dsimp only
    rw [hv, hadd, Cmd.exec_assert, if_pos hone]

theorem ioqueueWait_step [DecidableEq W] {w : W} (h : SchedInv s q (some s.cur))
    (hne : s.cur ≠ s.idleThread) (hw : s.waiter w = none)
    : ∃ s' q', (Sched.ioqueueWait w).run s = .ok ((), s') ∧ SchedInv s' q' (some s'.cur) := by
  have hb := h.of_pcb (p := { s.pcb s.cur with status := .blocked }) h.linked rfl rfl
    (h.inv.block rfl)
  have hst : Sched.status { s with pcb := Function.update s.pcb s.cur { s.pcb s.cur with
      status := .blocked } }
      = Function.update s.status s.cur .blocked := status_update
  have hplace : SchedInv { s with
      waiter := Function.update s.waiter w (some s.cur)
      pcb := Function.update s.pcb s.cur { s.pcb s.cur with status := .blocked } } q none := by
    refine ⟨h.linked, ?_, h.all, h.value, hb.magic⟩
    have hinv := h.inv.place (w := w) hne
    rw [← hst] at hinv
    exact hinv
  obtain ⟨s', q', hrun, hinv⟩ :=
    threadBlock_of (s := { s with waiter := Function.update s.waiter w (some s.cur) }) rfl
    hplace (h.inv.current s.cur rfl)
  refine ⟨s', q', ?_, hinv⟩
  unfold Sched.ioqueueWait
  rw [Cmd.exec_get_bind, Cmd.exec_assert_bind, if_pos hw]
  exact hrun

theorem wakeup_step [DecidableEq W] {w : W} (h : SchedInv s q (some s.cur)) (hw : s.waiter w ≠ none)
    : ∃ s' q', (Sched.wakeup w).run s = .ok ((), s') ∧ SchedInv s' q' (some s'.cur) := by
  obtain ⟨t, ht⟩ := Option.ne_none_iff_exists'.mp hw
  obtain ⟨hall, hstop, -, hfree⟩ := h.inv.placed w t ht
  have hr : t ∉ q.ready := by
    intro hmem
    have hst := ((h.inv.ready t).mp hmem).2
    rw [hst] at hstop
    contradiction
  obtain ⟨k, hrun, hk⟩ := Sched.threadUnblock_exec h.linked hstop hr hfree
  -- the task has left its place when it is ready
  have hclear : SchedInv { s with waiter := Function.update s.waiter w none } q (some s.cur) := by
    refine ⟨h.linked, h.inv.mono_waiter ?_, h.all, h.value, h.magic⟩
    intro w' u hu
    dsimp only at hu
    by_cases heq : w' = w
    . rw [heq, Function.update_self] at hu
      contradiction
    . rw [Function.update_of_ne heq] at hu
      exact hu
  have hp : ∀ w', Function.update s.waiter w none w' ≠ some t := by
    intro w' hw'
    by_cases heq : w' = w
    . rw [heq, Function.update_self] at hw'
      contradiction
    . rw [Function.update_of_ne heq] at hw'
      exact heq (h.inv.one_place w' w t hw' ht)
  refine ⟨_, _, ?_, hclear.of_pcb (p := { s.pcb t with status := .ready }) hk rfl rfl
    (hclear.inv.unblock hall hstop hfree hp)⟩
  unfold Sched.wakeup
  rw [Cmd.exec_get_bind, ht]
  dsimp only
  rw [Cmd.exec_bind hrun]
  rfl

theorem addTask_step {p : TaskStruct} (h : SchedInv s q r) (ht : t ∉ s.tasks)
    (hst : p.status = .ready) (hmagic : p.stackMagic = stackMagic)
    : ∃ s', (addTask t).run { s with pcb := Function.update s.pcb t p } = .ok ((), s')
        ∧ SchedInv s' { q with ready := q.ready ++ [t], all := q.all ++ [t] } r
            ∧ s'.cur = s.cur := by
  have hall : t ∉ q.all := by
    rw [h.all]
    exact ht
  have hready : t ∉ q.ready := fun hmem => hall ((h.inv.ready t).mp hmem).1
  have hw : ∀ psema, t ∉ q.waiters psema := fun psema hmem => hall (h.inv.waiting psema t hmem).1
  have hl : q.Linked { s with pcb := Function.update s.pcb t p }.links := h.linked
  obtain ⟨k, hrun, hk⟩ := addTask_exec hl hready hw hall
  refine ⟨_, hrun, ⟨hk, ?_, ?_, h.value, ?_⟩, rfl⟩
  . have hinv := h.inv.add hall
    rw [← hst] at hinv
    have hstatus : Sched.status { s with pcb := Function.update s.pcb t p }
        = Function.update s.status t p.status :=
      status_update
    rw [← hstatus] at hinv
    exact hinv
  . rw [h.all]
  . intro u hu
    dsimp only
    by_cases heq : u = t
    . subst heq
      rw [Function.update_self]
      exact hmagic
    . rw [Function.update_of_ne heq]
      rw [List.mem_append, List.mem_singleton] at hu
      exact h.magic u (hu.resolve_right heq)

end Schedule

end SchedInv

end RogOS
