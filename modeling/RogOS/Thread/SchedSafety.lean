import RogOS.Thread.SchedSystem

/-!
Whatever the order of timer ticks, of new tasks and of tasks that block and are woken: one task is
running, the ready list has the tasks that are ready, and every tag is in one list at most.
-/

namespace RogOS

inductive SchedOp (T S W : Type) where
  -- The timer interrupt
  | tick
  -- The task that is running enables or disables interrupts.
  | setIntr (on : Bool)
  | threadBlock (stat : TaskStatus)
  | threadYield
  | semaDown (psema : S)
  | semaUp (psema : S)
  | ioqueueWait (waiter : W)
  | wakeup (waiter : W)
  | threadStart (thread : T) (prio : UInt8)
  | processExecute (thread : T)
  | sysFork (childThread : T)

namespace Sched

variable {T S W : Type} [DecidableEq T] [DecidableEq S] [DecidableEq W] [Fintype T]

def exec : SchedOp T S W → SchedM T S W Unit
  | .tick => intrTimerHandler
  | .setIntr on => modify fun s => { s with intrOn := on }
  | .threadBlock stat => Sched.threadBlock stat
  | .threadYield => threadYield
  | .semaDown psema => Sched.semaDown psema
  | .semaUp psema => Sched.semaUp psema
  | .ioqueueWait waiter => ioqueueWait waiter
  | .wakeup waiter => Sched.wakeup waiter
  | .threadStart thread prio => threadStart thread prio
  | .processExecute thread => processExecute thread
  | .sysFork childThread => sysFork childThread

/--
What the tasks do: `idle` calls `thread_block` and nothing else that waits, and `get_kernel_pages`
returns a page that is not the PCB of a task.
-/
def Allowed (s : Sched T S W) : SchedOp T S W → Prop
  | .tick => s.intrOn = true
  | .threadBlock stat => stat.stopped = true
  | .semaDown _ | .ioqueueWait _ => s.cur ≠ s.idleThread
  | .threadStart thread _ | .processExecute thread | .sysFork thread => thread ∉ s.tasks
  | .setIntr _ | .threadYield | .semaUp _ | .wakeup _ => True

def Asserted (s : Sched T S W) : SchedOp T S W → Prop
  | .semaUp psema => s.value psema = 0
  | .ioqueueWait waiter => s.waiter waiter = none
  | .wakeup waiter => s.waiter waiter ≠ none
  | _ => True

abbrev Reach : Sched T S W → Sched T S W → Prop := Cmd.Reach exec Allowed

structure Fresh (s : Sched T S W) : Prop where
  tasks : s.tasks = []
  next : ∀ psema, s.links.next (.head (.waiters psema)) = .tail (.waiters psema)
  prev : ∀ psema, s.links.prev (.tail (.waiters psema)) = .head (.waiters psema)
  value : ∀ psema, s.value psema = 0 ∨ s.value psema = 1
  waiter : ∀ w, s.waiter w = none

structure Sound (s : Sched T S W) : Prop where
  current : s.cur ∈ s.tasks
  -- Exactly one task is running.
  running : ∀ t ∈ s.tasks, (s.pcb t).status = .running ↔ t = s.cur
  -- It is in no list.
  running_free : ∀ plist, .generalTag s.cur ∉ s.elems plist
  -- The elements of a list, from its head to its tail
  linked : ∀ plist, s.links.Chain (.head plist) (s.elems plist) (.tail plist)
  nodup : ∀ plist, (s.elems plist).Nodup
  -- The ready list has the tasks that are ready.
  ready : ∀ x, x ∈ s.elems .ready ↔ ∃ t ∈ s.tasks, (s.pcb t).status = .ready ∧ x = .generalTag t
  -- A tag is in one list.
  one_list : ∀ t plist plist', .generalTag t ∈ s.elems plist → .generalTag t ∈ s.elems plist'
    → plist = plist'
  -- No other assertion fails, and no search in a list goes on for ever.
  returns : ∀ op, s.Allowed op → s.Asserted op → ∃ s', (exec op).run s = .ok ((), s')

end Sched

namespace SchedInv

open Sched

variable {T S W : Type} [DecidableEq T] [DecidableEq S] [Fintype T] {s : Sched T S W}
  {q : Queues T S}

theorem elems_eq {r : Option T} (h : SchedInv s q r) (plist : TaskList S)
    : s.elems plist = q.elems plist :=
  Links.Lists.walk_eq h.linked (h.linked.length_elems plist)

variable [DecidableEq W]

theorem step (h : SchedInv s q (some s.cur)) {op : SchedOp T S W} (ha : s.Allowed op)
    (hb : s.Asserted op)
    : ∃ s' q', (exec op).run s = .ok ((), s') ∧ SchedInv s' q' (some s'.cur) := by
  have hnew : ∀ {t p}, t ∉ s.tasks → p.status = .ready → p.stackMagic = stackMagic →
      ∃ s' q', (modifyPcb t (fun _ => p) >>= fun _ => addTask t).run s = .ok ((), s')
        ∧ SchedInv s' q' (some s'.cur) := by
    intro t p ht hst hmagic
    obtain ⟨s', hrun, hinv, hcur⟩ := h.addTask_step ht hst hmagic
    rw [← hcur] at hinv
    exact ⟨s', _, hrun, hinv⟩
  cases op with
  | tick => exact h.intrTimerHandler_step
  | setIntr on => exact ⟨_, q, Cmd.exec_modify, h.of_cur s.cur s.ticks on⟩
  | threadBlock stat => exact h.threadBlock_step ha
  | threadYield => exact h.threadYield_step
  | semaDown psema => exact h.semaDown_step ha
  | semaUp psema => exact h.semaUp_step hb
  | ioqueueWait w => exact h.ioqueueWait_step ha hb
  | wakeup w => exact h.wakeup_step hb
  | threadStart t prio => exact hnew ha rfl rfl
  | processExecute t => exact hnew ha rfl rfl
  | sysFork t =>
    have hcur := h.inv.current s.cur rfl
    rw [h.all] at hcur
    exact hnew (p := (s.pcb s.cur).copyPcb) ha rfl (h.magic s.cur hcur)

theorem asserted_of_run {op : SchedOp T S W} {s' : Sched T S W}
    (hrun : (exec op).run s = .ok ((), s')) : s.Asserted op := by
  cases op with
  | semaUp psema =>
    unfold exec Sched.semaUp at hrun
    rw [Cmd.exec_get_bind, Cmd.exec_assert_bind] at hrun
    split at hrun
    . next hv => exact hv
    . contradiction
  | ioqueueWait w =>
    unfold exec Sched.ioqueueWait at hrun
    rw [Cmd.exec_get_bind, Cmd.exec_assert_bind] at hrun
    split at hrun
    . next hw => exact hw
    . contradiction
  | wakeup w =>
    unfold exec Sched.wakeup at hrun
    rw [Cmd.exec_get_bind] at hrun
    intro hw
    rw [hw] at hrun
    contradiction
  | _ => trivial

theorem sound (h : SchedInv s q (some s.cur)) : s.Sound where
  current := by
    rw [← h.all]
    exact h.inv.current s.cur rfl
  running := by
    intro t ht
    rw [← h.all] at ht
    refine (h.inv.running t ht).trans ?_
    rw [Option.some.injEq]
    exact eq_comm
  running_free := by
    intro plist
    rw [h.elems_eq]
    obtain ⟨hready, hw, -⟩ := h.inv.free_of_running
    cases plist with
    | ready => simp [hready]
    | all => simp [Queues.elems]
    | waiters psema => simp [hw psema]
  linked := by
    intro plist
    rw [h.elems_eq]
    exact h.linked.chain plist
  nodup := by
    intro plist
    rw [h.elems_eq]
    exact h.linked.nodup_elems plist
  ready := by
    intro x
    rw [h.elems_eq]
    unfold Queues.elems
    rw [List.mem_map]
    constructor
    . rintro ⟨t, ht, rfl⟩
      obtain ⟨hall, hst⟩ := (h.inv.ready t).mp ht
      rw [h.all] at hall
      exact ⟨t, hall, hst, rfl⟩
    . rintro ⟨t, ht, hst, rfl⟩
      rw [← h.all] at ht
      exact ⟨t, (h.inv.ready t).mpr ⟨ht, hst⟩, rfl⟩
  one_list := by
    intro t plist plist' h1 h2
    rw [h.elems_eq] at h1 h2
    exact h.linked.eq_of_mem h1 h2
  returns := by
    intro op ha hb
    obtain ⟨s', -, hrun, -⟩ := h.step ha hb
    exact ⟨s', hrun⟩

end SchedInv

section Init

open Sched

variable {T S W : Type} [DecidableEq T] [DecidableEq S] {s : Sched T S W}

theorem listInit_linked (h : s.Fresh)
    : Queues.Linked ⟨[], [], fun _ =>
        []⟩ (Sched.listInit (Sched.listInit s.links .ready) .all) where
  chain := by
    intro plist
    cases plist with
    | waiters psema =>
      have hnext := h.next psema
      have hprev := h.prev psema
      refine ⟨?_, ?_⟩ <;> simp [Sched.listInit, hnext, hprev]
    | _ => refine ⟨?_, ?_⟩ <;> simp [Sched.listInit]
  nodup := by
    intro plist
    cases plist <;> simp [Links.span, Queues.elems]
  apart := by
    intro i j x hi hj
    rw [Links.mem_span] at hi hj
    have hempty : ∀ plist, (⟨[], [], fun _ => []⟩ : Queues T S).elems plist = [] := by
      intro plist
      cases plist <;> rfl
    rw [hempty] at hi hj
    obtain rfl | hi | rfl := hi
    . simpa using hj
    . contradiction
    . simpa using hj

variable [Fintype T]

theorem threadStart_exec {t : T} {prio : UInt8} {s' : Sched T S W}
    (h : (addTask t).run { s with pcb := Function.update s.pcb t (initThread prio) } = .ok ((), s'))
    : (threadStart t prio).run s = .ok ((), s') := h

theorem threadInit_step {init idle : T} (h : s.Fresh) (hne : [s.cur, init, idle].Nodup)
    : ∃ s', (threadInit init idle).run s = .ok ((), s')
        ∧ SchedInv s' ⟨[init, idle], [init, s.cur, idle], fun _ => []⟩ (some s.cur)
            ∧ s'.cur = s.cur := by
  have hne' := hne
  simp only [List.nodup_cons, List.mem_cons, List.not_mem_nil, or_false, not_or] at hne'
  obtain ⟨⟨h1, h2⟩, h3, -⟩ := hne'
  -- `init`
  obtain ⟨k1, hrun1, hk1⟩ := addTask_exec (t := init) (s := { s with
      links := Sched.listInit (Sched.listInit s.links .ready) .all
      pcb := Function.update s.pcb init (initThread defaultPrio) }) (listInit_linked h) (by simp)
        (by simp) (by simp)
  -- the main thread
  have hnot : TaskElem.allListTag s.cur ∉ (⟨[init], [init], fun _ => []⟩ : Queues T S).elems
      .all := by
    simp [h1]
  have hk2 := Queues.Linked.append_all (t := s.cur) hk1 (by simp [h1])
  -- the idle task
  obtain ⟨k3, hrun3, hk3⟩ := addTask_exec (t := idle) (s := { s with
      links := k1.insertBefore (.tail .all) (.allListTag s.cur)
      pcb := Function.update
        (Function.update (Function.update s.pcb init (initThread defaultPrio)) s.cur
        { initThread 31 with status := .running }) idle (initThread 10)
      tasks := s.tasks ++ [init] ++ [s.cur] }) hk2 (by simp [Ne.symm h3]) (by simp)
        (by simp [Ne.symm h2, Ne.symm h3])
  have hinit :
      (Function.update (Function.update (Function.update s.pcb init (initThread defaultPrio)) s.cur
      { initThread 31 with status := .running }) idle (initThread 10)) init
        = initThread defaultPrio := by
    rw [Function.update_of_ne h3, Function.update_of_ne (Ne.symm h1), Function.update_self]
  have hmain :
      (Function.update (Function.update (Function.update s.pcb init (initThread defaultPrio)) s.cur
      { initThread 31 with status := .running }) idle (initThread 10)) s.cur
      = { initThread 31 with status := .running } := by
    rw [Function.update_of_ne h2, Function.update_self]
  have hidle :
      (Function.update (Function.update (Function.update s.pcb init (initThread defaultPrio)) s.cur
      { initThread 31 with status := .running }) idle (initThread 10)) idle = initThread 10 :=
        Function.update_self ..
  refine ⟨{ s with
    links := k3
    pcb := Function.update
      (Function.update (Function.update s.pcb init (initThread defaultPrio)) s.cur
      { initThread 31 with status := .running }) idle (initThread 10)
    idleThread := idle
    tasks := s.tasks ++ [init] ++ [s.cur] ++ [idle] }, ?_, ⟨hk3, ?_, ?_, h.value, ?_⟩, rfl⟩
  . have hexecute : (processExecute init).run { s with
        links := Sched.listInit (Sched.listInit s.links .ready) .all }
        = .ok ((), { s with
          links := k1
          pcb := Function.update s.pcb init (initThread defaultPrio)
          tasks := s.tasks ++ [init] }) := hrun1
    have hthread : makeMainThread.run { s with
          links := k1
          pcb := Function.update s.pcb init (initThread defaultPrio)
          tasks := s.tasks ++ [init] }
        = .ok ((), { s with
          links := k1.insertBefore (.tail .all) (.allListTag s.cur)
          pcb := Function.update (Function.update s.pcb init (initThread defaultPrio)) s.cur
            { initThread 31 with status := .running }
          tasks := s.tasks ++ [init] ++ [s.cur] }) := by
      unfold makeMainThread modifyPcb
      rw [Cmd.exec_get_bind, Cmd.exec_modify_bind, Cmd.exec_bind (assertNotFound_exec hk1 hnot)]
      rfl
    unfold threadInit
    rw [Cmd.exec_modify_bind, Cmd.exec_modify_bind, Cmd.exec_bind hexecute, Cmd.exec_bind hthread]
    refine (Cmd.exec_bind (threadStart_exec hrun3)).trans ?_
    rfl
  . apply Queues.Inv.init hne h.waiter
    . exact congrArg TaskStruct.status hinit
    . exact congrArg TaskStruct.status hmain
    . exact congrArg TaskStruct.status hidle
  . dsimp only
    rw [h.tasks]
    rfl
  . intro t ht
    dsimp only at ht ⊢
    rw [h.tasks] at ht
    simp only [List.nil_append, List.cons_append, List.mem_cons, List.not_mem_nil, or_false] at ht
    obtain rfl | rfl | rfl := ht
    . rw [hinit]
      rfl
    . rw [hmain]
      rfl
    . rw [hidle]
      rfl

/--
Any order of timer ticks, of new tasks and of tasks that block and are woken, from `thread_init` on:
one task is running, the lists are those that the status of the tasks asks for, and no assertion of
the scheduler fails.
-/
theorem sched_sound [DecidableEq W] {s0 s1 : Sched T S W} {init idle : T} (h0 : s0.Fresh)
    (hne : [s0.cur, init, idle].Nodup) (h1 : (threadInit init idle).run s0 = .ok ((), s1))
    (h : Reach s1 s) : s.Sound := by
  obtain ⟨s1', hrun, hinv, hcur⟩ := threadInit_step h0 hne
  rw [h1] at hrun
  cases hrun
  rw [← hcur] at hinv
  have hreach : ∃ q, SchedInv s q (some s.cur) := by
    refine Cmd.Reach.invariant (P := fun s => ∃ q, SchedInv s q (some s.cur)) ?_ ⟨_, hinv⟩ h
    rintro s op _ s' ⟨q, hs⟩ ha hrun
    obtain ⟨s'', q', hrun', hs'⟩ := hs.step ha (SchedInv.asserted_of_run hrun)
    rw [hrun] at hrun'
    cases hrun'
    exact ⟨q', hs'⟩
  obtain ⟨q, hs⟩ := hreach
  exact hs.sound

end Init

section Run

open Sched

instance Sched.decidableAllowed {T S W : Type} [DecidableEq T] {s : Sched T S W}
    {op : SchedOp T S W} : Decidable (s.Allowed op) :=
  match op with
  | .tick => inferInstanceAs (Decidable (s.intrOn = true))
  | .threadBlock stat => inferInstanceAs (Decidable (stat.stopped = true))
  | .semaDown _ | .ioqueueWait _ => inferInstanceAs (Decidable (s.cur ≠ s.idleThread))
  | .threadStart t _ | .processExecute t | .sysFork t => inferInstanceAs (Decidable (t ∉ s.tasks))
  | .setIntr _ | .threadYield | .semaUp _ | .wakeup _ => inferInstanceAs (Decidable True)

def beforeInit : Sched (Fin 4) Unit Unit where
  links := Sched.listInit ⟨fun _ => .null, fun _ => .null⟩ (.waiters ())
  pcb := fun _ => initThread 0
  value := fun _ => 0
  waiter := fun _ => none
  cur := 0
  idleThread := 0
  ticks := 0
  intrOn := false
  tasks := []

theorem beforeInit_fresh : beforeInit.Fresh where
  tasks := rfl
  next := fun _ => rfl
  prev := fun _ => rfl
  value := fun _ => .inl rfl
  waiter := fun _ => rfl

def sleepWake : List (SchedOp (Fin 4) Unit Unit) :=
  [.semaDown (), .sysFork 3, .ioqueueWait (), .threadBlock .blocked, .semaUp (), .setIntr true,
    .tick, .threadYield,
    .semaDown (), .semaDown (), .threadBlock .hanging, .wakeup (), .threadYield]

theorem sched_sound_sleepWake
    : (Cmd.afterAll exec sleepWake ((threadInit 1 2).after beforeInit)).Sound :=
  sched_sound beforeInit_fresh (by decide)
    (show (threadInit 1 2).run beforeInit = .ok ((), (threadInit 1 2).after beforeInit) from rfl)
    (Cmd.reach_of_returnsWhile (k := fun s op => decide (s.Allowed op)) (fun _ _ _ h =>
      of_decide_eq_true h)
      (by decide +kernel))

end Run

end RogOS
