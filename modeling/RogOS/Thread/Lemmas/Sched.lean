import RogOS.Thread.Impl.Sched
import RogOS.Thread.Queues

/-!
What the functions of the scheduler do to links that are those of lists of tasks.
-/

namespace RogOS

variable {T S W : Type}

def Queues.elems (q : Queues T S) : TaskList S → List (TaskElem T S)
  | .ready => q.ready.map .generalTag
  | .all => q.all.map .allListTag
  | .waiters psema => (q.waiters psema).map .generalTag

def Queues.Linked (q : Queues T S) (k : Links (TaskElem T S)) : Prop := k.Lists .head .tail q.elems

namespace Queues

variable {q : Queues T S} {k : Links (TaskElem T S)} {t : T} {psema : S}

@[simp] theorem generalTag_mem_ready : TaskElem.generalTag t ∈ q.elems .ready ↔ t ∈ q.ready := by
  simp [elems]

@[simp] theorem generalTag_mem_waiters
    : TaskElem.generalTag t ∈ q.elems (.waiters psema) ↔ t ∈ q.waiters psema := by
  simp [elems]

@[simp] theorem allListTag_mem_all : TaskElem.allListTag t ∈ q.elems .all ↔ t ∈ q.all := by
  simp [elems]

theorem generalTag_free (hr : t ∉ q.ready) (hw : ∀ psema, t ∉ q.waiters psema)
    : ∀ j, TaskElem.generalTag t ∉ Links.span .head .tail q.elems j := by
  intro j
  rw [Links.mem_span]
  cases j with
  | ready => simp [hr]
  | all => simp [elems]
  | waiters psema => simp [hw psema]

theorem allListTag_free (ht : t ∉ q.all)
    : ∀ j, TaskElem.allListTag t ∉ Links.span .head .tail q.elems j := by
  intro j
  rw [Links.mem_span]
  cases j <;> simp [elems, ht]

namespace Linked

theorem nodup_elems (h : q.Linked k) (plist : TaskList S)
    : (q.elems plist).Nodup := Links.Lists.nodup_list h

theorem ready_nodup (h : q.Linked k) : q.ready.Nodup := by
  have hnd := h.nodup_elems .ready
  exact List.Nodup.of_map _ hnd

theorem all_nodup (h : q.Linked k) : q.all.Nodup := by
  have hnd := h.nodup_elems .all
  exact List.Nodup.of_map _ hnd

theorem waiters_nodup (h : q.Linked k) (psema : S) : (q.waiters psema).Nodup := by
  have hnd := h.nodup_elems (.waiters psema)
  exact List.Nodup.of_map _ hnd

theorem waiters_unique {psema' : S} (h : q.Linked k) (h1 : t ∈ q.waiters psema)
    (h2 : t ∈ q.waiters psema')
    : psema = psema' := by
  have heq := h.eq_of_mem (generalTag_mem_waiters.mpr h1) (generalTag_mem_waiters.mpr h2)
  cases heq
  rfl

theorem length_elems [Fintype T] (h : q.Linked k) (plist : TaskList S)
    : (q.elems plist).length < Fintype.card T + 1 := by
  have key : ∀ l : List T, l.Nodup → l.length < Fintype.card T + 1 := fun l hl =>
    Nat.lt_succ_of_le hl.length_le_card
  cases plist with
  | ready =>
    unfold elems
    rw [List.length_map]
    exact key _ h.ready_nodup
  | all =>
    unfold elems
    rw [List.length_map]
    exact key _ h.all_nodup
  | waiters psema =>
    unfold elems
    rw [List.length_map]
    exact key _ (h.waiters_nodup psema)

variable [DecidableEq T] [DecidableEq S]

section Update

omit [DecidableEq T]

theorem update_ready {l : List T}
    : Function.update q.elems .ready (l.map .generalTag)
        = ({ q with ready := l } : Queues T S).elems := by
  funext j
  cases j <;> simp [elems]

theorem update_all {l : List T}
    : Function.update q.elems .all (l.map .allListTag)
        = ({ q with all := l } : Queues T S).elems := by
  funext j
  cases j <;> simp [elems]

theorem update_waiters {l : List T}
    : Function.update q.elems (.waiters psema) (l.map .generalTag)
        =
      ({ q with waiters := Function.update q.waiters psema l } : Queues T S).elems := by
  funext j
  cases j with
  | waiters psema' =>
    by_cases heq : psema' = psema
    . subst heq
      simp [elems]
    . have hne : TaskList.waiters psema' ≠ TaskList.waiters psema := by
        intro h
        cases h
        exact heq rfl
      rw [Function.update_of_ne hne]
      simp [elems, heq]
  | _ => simp [elems]

end Update

theorem append_ready (h : q.Linked k) (hr : t ∉ q.ready) (hw : ∀ psema, t ∉ q.waiters psema)
    : ({ q with ready := q.ready ++ [t] } : Queues T S).Linked
        (k.insertBefore (.tail .ready) (.generalTag t)) := by
  have hl := Links.Lists.insertLast h (i := .ready) (generalTag_free hr hw)
  unfold Linked
  rw [← update_ready, List.map_append]
  exact hl

theorem push_ready (h : q.Linked k) (hr : t ∉ q.ready) (hw : ∀ psema, t ∉ q.waiters psema)
    : ({ q with ready := t :: q.ready } : Queues T S).Linked
        (k.insertBefore (k.next (.head .ready)) (.generalTag t)) := by
  have hl := Links.Lists.insertFirst h (i := .ready) (generalTag_free hr hw)
  unfold Linked
  rw [← update_ready, List.map_cons]
  exact hl

theorem append_all (h : q.Linked k) (ht : t ∉ q.all)
    : ({ q with all := q.all ++ [t] } : Queues T S).Linked
        (k.insertBefore (.tail .all) (.allListTag t)) := by
  have hl := Links.Lists.insertLast h (i := .all) (allListTag_free ht)
  unfold Linked
  rw [← update_all, List.map_append]
  exact hl

theorem append_waiters (psema : S) (h : q.Linked k) (hr : t ∉ q.ready)
    (hw : ∀ psema, t ∉ q.waiters psema)
    : ({ q with waiters := Function.update q.waiters psema (q.waiters psema ++ [t]) } :
        Queues T S).Linked
        (k.insertBefore (.tail (.waiters psema)) (.generalTag t)) := by
  have hl := Links.Lists.insertLast h (i := .waiters psema) (generalTag_free hr hw)
  unfold Linked
  rw [← update_waiters, List.map_append]
  exact hl

theorem pop_ready {rest : List T} (h : q.Linked k) (hq : q.ready = t :: rest)
    : k.next (.head .ready) = .generalTag t
        ∧ ({ q with ready := rest } : Queues T S).Linked (k.remove (.generalTag t)) := by
  have hl : q.elems .ready = .generalTag t :: rest.map .generalTag := by
    unfold elems
    rw [hq, List.map_cons]
  refine ⟨Links.Lists.next_head h hl, ?_⟩
  unfold Linked
  rw [← update_ready]
  exact Links.Lists.removeFirst h hl

theorem pop_waiters {rest : List T} (h : q.Linked k) (hq : q.waiters psema = t :: rest)
    : k.next (.head (.waiters psema)) = .generalTag t
        ∧ ({ q with waiters := Function.update q.waiters psema rest } : Queues T S).Linked
            (k.remove (.generalTag t)) := by
  have hl : q.elems (.waiters psema) = .generalTag t :: rest.map .generalTag := by
    unfold elems
    dsimp only
    rw [hq, List.map_cons]
  refine ⟨Links.Lists.next_head h hl, ?_⟩
  unfold Linked
  rw [← update_waiters]
  exact Links.Lists.removeFirst h hl

end Linked

end Queues

namespace Sched

variable [DecidableEq T] [DecidableEq S] {s : Sched T S W} {q : Queues T S} {plist : TaskList S}
  {x : TaskElem T S} {t : T}

def status (s : Sched T S W) (t : T) : TaskStatus := (s.pcb t).status

theorem status_update {pcb : T → TaskStruct} {p : TaskStruct}
    : (fun u => (Function.update pcb t p u).status) = Function.update (fun u =>
        (pcb u).status) t p.status := by
  funext u
  by_cases hu : u = t
  . subst hu
    rw [Function.update_self, Function.update_self]
  . rw [Function.update_of_ne hu, Function.update_of_ne hu]

theorem listEmpty_iff (plist : TaskList S) (h : q.Linked s.links)
    : listEmpty s plist = true ↔ q.elems plist = [] := by
  unfold listEmpty
  rw [decide_eq_true_iff]
  exact Links.Lists.next_eq_tail_iff h

theorem listPop_exec (hx : s.links.next (.head plist) = x)
    : (listPop plist).run s = .ok (x, { s with links := s.links.remove x }) := by
  subst hx
  rfl

theorem switchNext_exec (hempty : listEmpty s .ready = false)
    (hx : s.links.next (.head .ready) = .generalTag t)
    : switchNext.run s = .ok ((), { s with
        links := s.links.remove (.generalTag t)
        pcb := Function.update s.pcb t { s.pcb t with status := .running }
        cur := t }) := by
  unfold switchNext
  rw [Cmd.exec_get_bind, Cmd.exec_assert_bind, if_pos hempty, Cmd.exec_bind (listPop_exec hx)]
  rfl

variable [Fintype T]

theorem elemFind_exec (h : q.Linked s.links)
    : (elemFind plist x).run s = .ok (decide (x ∈ q.elems plist), s) := by
  unfold elemFind
  rw [Cmd.exec_get_bind, Links.Lists.find_eq h (h.length_elems plist)]
  rfl

theorem assertNotFound_exec (h : q.Linked s.links) (hx : x ∉ q.elems plist)
    : (assertNotFound plist x).run s = .ok ((), s) := by
  unfold assertNotFound
  rw [Cmd.exec_bind (elemFind_exec h), Cmd.exec_assert, if_pos (decide_eq_false hx)]

theorem addTask_exec (h : q.Linked s.links) (hr : t ∉ q.ready) (hw : ∀ psema, t ∉ q.waiters psema)
    (ht : t ∉ q.all)
    : ∃ k, (addTask t).run s = .ok ((), { s with links := k, tasks := s.tasks ++ [t] })
        ∧ ({ q with ready := q.ready ++ [t], all := q.all ++ [t] } : Queues T S).Linked k := by
  have h1 := h.append_ready hr hw
  refine ⟨_, ?_, h1.append_all ht⟩
  have hnot1 : TaskElem.generalTag t ∉ q.elems .ready := by
    simp [hr]
  have hnot2 : TaskElem.allListTag t ∉ ({ q with ready := q.ready ++ [t] } : Queues T S).elems
      .all := by
    simp [ht]
  have h1' : Queues.Linked { q with ready := q.ready ++ [t] }
      { s with links := s.links.insertBefore (.tail .ready) (.generalTag t) }.links := h1
  unfold addTask
  rw [Cmd.exec_bind (assertNotFound_exec h hnot1)]
  unfold listAppend
  rw [Cmd.exec_modify_bind, Cmd.exec_bind (assertNotFound_exec h1' hnot2)]
  rfl

theorem threadUnblock_exec (h : q.Linked s.links) (hstop : (s.status t).stopped = true)
    (hr : t ∉ q.ready) (hw : ∀ psema, t ∉ q.waiters psema)
    : ∃ k, (threadUnblock t).run s = .ok ((), { s with
          links := k
          pcb := Function.update s.pcb t { s.pcb t with status := .ready } })
        ∧ ({ q with ready := t :: q.ready } : Queues T S).Linked k := by
  refine ⟨_, ?_, h.push_ready hr hw⟩
  have hne : (s.pcb t).status ≠ .ready := by
    intro hst
    unfold status at hstop
    rw [hst] at hstop
    contradiction
  have hstop' : (s.pcb t).status.stopped = true := hstop
  have hnot : decide (TaskElem.generalTag t ∈ q.elems .ready) = false := by
    simp [hr]
  unfold threadUnblock
  rw [Cmd.exec_get_bind, Cmd.exec_assert_bind, if_pos hstop', if_pos hne,
    Cmd.exec_bind (elemFind_exec h), hnot]
  rfl

end Sched

end RogOS
