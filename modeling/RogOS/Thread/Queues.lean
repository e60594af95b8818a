import RogOS.Thread.Impl.Sync

/-!
Which task is in which list, by its status: what the scheduler is to keep, as lists of tasks without
links.
-/

namespace RogOS

structure Queues (T S : Type) where
  ready : List T
  all : List T
  waiters : S → List T

namespace Queues

/--
Each list has the tasks that it is for; `r` is the task that is running, and `waiter` has the tasks
that are blocked without being in a list. `idle` waits for nothing but an empty ready list.
-/
structure Inv {T S W : Type} (q : Queues T S) (status : T → TaskStatus) (idle : T)
    (waiter : W → Option T) (r : Option T)
    : Prop where
  ready : ∀ t, t ∈ q.ready ↔ t ∈ q.all ∧ status t = .ready
  running : ∀ t ∈ q.all, status t = .running ↔ r = some t
  current : ∀ t, r = some t → t ∈ q.all
  alive : ∀ t ∈ q.all, status t ≠ .died
  idle_mem : idle ∈ q.all
  waiting : ∀ psema, ∀ t ∈ q.waiters psema, t ∈ q.all ∧ (status t).stopped = true ∧ t ≠ idle
  placed : ∀ w t, waiter w = some t →
    t ∈ q.all ∧ (status t).stopped = true ∧ t ≠ idle ∧ ∀ psema, t ∉ q.waiters psema
  one_place : ∀ w w' t, waiter w = some t → waiter w' = some t → w = w'

namespace Inv

variable {T S W : Type} {q : Queues T S} {status : T → TaskStatus} {idle : T}
  {waiter : W → Option T} {r : Option T} {t u : T}

theorem stopped_of_not_ready (h : q.Inv status idle waiter r) (ht : t ∈ q.all) (hr : r ≠ some t)
    (hq : t ∉ q.ready)
    : (status t).stopped = true := by
  have h1 := (h.running t ht).not.mpr hr
  have h2 : status t ≠ .ready := fun hst => hq ((h.ready t).mpr ⟨ht, hst⟩)
  have h3 := h.alive t ht
  cases hst : status t with
  | running => exact absurd hst h1
  | ready => exact absurd hst h2
  | died => exact absurd hst h3
  | _ => rfl

theorem status_of_running (h : q.Inv status idle waiter (some t)) : status t = .running :=
  (h.running t (h.current t rfl)).mpr rfl

theorem free_of_running (h : q.Inv status idle waiter (some t))
    : t ∉ q.ready ∧ (∀ psema, t ∉ q.waiters psema) ∧ ∀ w, waiter w ≠ some t := by
  have hrun := h.status_of_running
  refine ⟨?_, ?_, ?_⟩
  . intro hmem
    have hst := ((h.ready t).mp hmem).2
    rw [hrun] at hst
    contradiction
  . intro psema hmem
    have hst := (h.waiting psema t hmem).2.1
    rw [hrun] at hst
    contradiction
  . intro w hw
    have hst := (h.placed w t hw).2.1
    rw [hrun] at hst
    contradiction

theorem mono_waiters {waiters : S → List T} (h : q.Inv status idle waiter r)
    (hsub : ∀ psema, ∀ t ∈ waiters psema, t ∈ q.waiters psema)
    : ({ q with waiters := waiters } : Queues T S).Inv status idle waiter r where
  ready := h.ready
  running := h.running
  current := h.current
  alive := h.alive
  idle_mem := h.idle_mem
  waiting := fun psema t ht => h.waiting psema t (hsub psema t ht)
  placed := by
    intro w t hw
    obtain ⟨h1, h2, h3, h4⟩ := h.placed w t hw
    exact ⟨h1, h2, h3, fun psema ht => h4 psema (hsub psema t ht)⟩
  one_place := h.one_place

theorem mono_waiter {waiter' : W → Option T} (h : q.Inv status idle waiter r)
    (hsub : ∀ w t, waiter' w = some t → waiter w = some t) : q.Inv status idle waiter' r where
  ready := h.ready
  running := h.running
  current := h.current
  alive := h.alive
  idle_mem := h.idle_mem
  waiting := h.waiting
  placed := fun w t hw => h.placed w t (hsub w t hw)
  one_place := fun w w' t hw hw' => h.one_place w w' t (hsub w t hw) (hsub w' t hw')

theorem init {init main : T} (hne : [main, init, idle].Nodup)
    (hw : ∀ w, waiter w = none) (hinit : status init = .ready) (hmain : status main = .running)
    (hidle : status idle = .ready)
    : (⟨[init, idle], [init, main, idle], fun _ => []⟩ : Queues T S).Inv status idle waiter
        (some main) := by
  simp only [List.nodup_cons, List.mem_cons, List.not_mem_nil, or_false, not_or] at hne
  obtain ⟨⟨h1, h2⟩, h3, -⟩ := hne
  constructor
  . intro t
    simp only [List.mem_cons, List.not_mem_nil, or_false]
    constructor
    . rintro (rfl | rfl)
      . exact ⟨.inl rfl, hinit⟩
      . exact ⟨.inr (.inr rfl), hidle⟩
    . rintro ⟨rfl | rfl | rfl, hst⟩
      . exact .inl rfl
      . rw [hmain] at hst
        contradiction
      . exact .inr rfl
  . intro t ht
    simp only [List.mem_cons, List.not_mem_nil, or_false] at ht
    obtain rfl | rfl | rfl := ht
    . simp [hinit, h1]
    . simp [hmain]
    . simp [hidle, h2]
  . intro t ht
    cases ht
    simp
  . intro t ht
    simp only [List.mem_cons, List.not_mem_nil, or_false] at ht
    obtain rfl | rfl | rfl := ht
    . simp [hinit]
    . simp [hmain]
    . simp [hidle]
  . simp
  . intro psema t ht
    contradiction
  . intro w t ht
    rw [hw w] at ht
    contradiction
  . intro w w' t ht
    rw [hw w] at ht
    contradiction

variable [DecidableEq T]

theorem set_status {stat : TaskStatus} {ready : List T} {r' : Option T}
    (h : q.Inv status idle waiter r) (ht : t ∈ q.all) (hdied : stat ≠ .died)
    (hw : ∀ psema, t ∉ q.waiters psema) (hp : ∀ w, waiter w ≠ some t)
    (hself : t ∈ ready ↔ stat = .ready) (hother : ∀ u, u ≠ t → (u ∈ ready ↔ u ∈ q.ready))
    (hrun : stat = .running ↔ r' = some t) (hr : ∀ u, u ≠ t → (r' = some u ↔ r = some u))
    : ({ q with ready := ready } : Queues T S).Inv (Function.update status t stat) idle waiter
        r' where
  ready := by
    intro u
    by_cases hu : u = t
    . subst hu
      rw [Function.update_self]
      simp [hself, ht]
    . rw [Function.update_of_ne hu]
      exact (hother u hu).trans (h.ready u)
  running := by
    intro u hmem
    by_cases hu : u = t
    . subst hu
      rw [Function.update_self]
      exact hrun
    . rw [Function.update_of_ne hu, hr u hu]
      exact h.running u hmem
  current := by
    intro u hu
    by_cases heq : u = t
    . rw [heq]
      exact ht
    . exact h.current u ((hr u heq).mp hu)
  alive := by
    intro u hmem
    by_cases hu : u = t
    . subst hu
      rw [Function.update_self]
      exact hdied
    . rw [Function.update_of_ne hu]
      exact h.alive u hmem
  idle_mem := h.idle_mem
  waiting := by
    intro psema u hu
    have hne : u ≠ t := by
      rintro rfl
      exact hw psema hu
    rw [Function.update_of_ne hne]
    exact h.waiting psema u hu
  placed := by
    intro w u hu
    have hne : u ≠ t := by
      rintro rfl
      exact hp w hu
    rw [Function.update_of_ne hne]
    exact h.placed w u hu
  one_place := h.one_place

theorem park (h : q.Inv status idle waiter (some t))
    : ({ q with ready := q.ready ++ [t] } : Queues T S).Inv (Function.update status t .ready) idle
        waiter none := by
  obtain ⟨hready, hw, hp⟩ := h.free_of_running
  apply h.set_status (h.current t rfl) (by simp) hw hp
  . simp
  . intro u hu
    simp [hu]
  . simp
  . intro u hu
    simp [Ne.symm hu]

theorem block {stat : TaskStatus} (h : q.Inv status idle waiter (some t))
    (hstat : stat.stopped = true)
    : q.Inv (Function.update status t stat) idle waiter none := by
  obtain ⟨hready, hw, hp⟩ := h.free_of_running
  apply h.set_status (h.current t rfl) _ hw hp
  . constructor
    . intro hmem
      exact absurd hmem hready
    . rintro rfl
      contradiction
  . exact fun _ _ => Iff.rfl
  . constructor
    . rintro rfl
      contradiction
    . intro hno
      contradiction
  . intro u hu
    simp [Ne.symm hu]
  . rintro rfl
    contradiction

theorem unblock (h : q.Inv status idle waiter r) (ht : t ∈ q.all)
    (hstop : (status t).stopped = true) (hw : ∀ psema, t ∉ q.waiters psema)
    (hp : ∀ w, waiter w ≠ some t)
    : ({ q with ready := t :: q.ready } : Queues T S).Inv (Function.update status t .ready) idle
        waiter r := by
  have hne : r ≠ some t := by
    rw [ne_eq, ← h.running t ht]
    intro hst
    rw [hst] at hstop
    contradiction
  apply h.set_status ht (by simp) hw hp
  . simp
  . intro u hu
    simp [hu]
  . simp [hne]
  . exact fun _ _ => Iff.rfl

theorem dispatch {rest : List T} (h : q.Inv status idle waiter none) (hnd : q.ready.Nodup)
    (hq : q.ready = t :: rest)
    : ({ q with ready := rest } : Queues T S).Inv (Function.update status t .running) idle waiter
        (some t) := by
  have hmem : t ∈ q.ready := by
    rw [hq]
    exact List.mem_cons_self
  obtain ⟨hall, hst⟩ := (h.ready t).mp hmem
  rw [hq, List.nodup_cons] at hnd
  apply h.set_status hall (by simp)
  . intro psema hw
    have hstop := (h.waiting psema t hw).2.1
    rw [hst] at hstop
    contradiction
  . intro w hw
    have hstop := (h.placed w t hw).2.1
    rw [hst] at hstop
    contradiction
  . simp [hnd.1]
  . intro u hu
    rw [hq]
    simp [hu]
  . simp
  . intro u hu
    simp [Ne.symm hu]

theorem wait [DecidableEq S] {psema : S} (h : q.Inv status idle waiter (some t)) (hne : t ≠ idle)
    : ({ q with waiters := Function.update q.waiters psema (q.waiters psema ++ [t]) } :
        Queues T S).Inv
        (Function.update status t .blocked) idle waiter none := by
  have hb := h.block (show TaskStatus.blocked.stopped = true from rfl)
  have hp := h.free_of_running.2.2
  have hall := h.current t rfl
  have hmem : ∀ {psema' u}, u ∈ Function.update q.waiters psema (q.waiters psema ++ [t]) psema' →
      u ∈ q.waiters psema' ∨ u = t := by
    intro psema' u hu
    by_cases heq : psema' = psema
    . subst heq
      rw [Function.update_self, List.mem_append, List.mem_singleton] at hu
      exact hu
    . rw [Function.update_of_ne heq] at hu
      exact .inl hu
  refine ⟨hb.ready, hb.running, hb.current, hb.alive, hb.idle_mem, ?_, ?_, hb.one_place⟩
  . intro psema' u hu
    obtain hu | rfl := hmem hu
    . exact hb.waiting psema' u hu
    . rw [Function.update_self]
      exact ⟨hall, rfl, hne⟩
  . intro w u hu
    obtain ⟨h1, h2, h3, h4⟩ := hb.placed w u hu
    refine ⟨h1, h2, h3, ?_⟩
    intro psema' hin
    obtain hin | rfl := hmem hin
    . exact h4 psema' hin
    . exact hp w hu

theorem place [DecidableEq W] {w : W} (h : q.Inv status idle waiter (some t)) (hne : t ≠ idle)
    : q.Inv (Function.update status t .blocked) idle (Function.update waiter w (some t)) none := by
  have hb := h.block (show TaskStatus.blocked.stopped = true from rfl)
  obtain ⟨-, hfree, hp⟩ := h.free_of_running
  have hall := h.current t rfl
  refine ⟨hb.ready, hb.running, hb.current, hb.alive, hb.idle_mem, hb.waiting, ?_, ?_⟩
  . intro w' u hu
    by_cases heq : w' = w
    . rw [heq, Function.update_self] at hu
      cases hu
      rw [Function.update_self]
      exact ⟨hall, rfl, hne, hfree⟩
    . rw [Function.update_of_ne heq] at hu
      exact hb.placed w' u hu
  . intro w1 w2 u h1 h2
    by_cases heq1 : w1 = w
    . by_cases heq2 : w2 = w
      . rw [heq1, heq2]
      . rw [heq1, Function.update_self] at h1
        rw [Function.update_of_ne heq2] at h2
        cases h1
        exact absurd h2 (hp w2)
    . rw [Function.update_of_ne heq1] at h1
      by_cases heq2 : w2 = w
      . rw [heq2, Function.update_self] at h2
        cases h2
        exact absurd h1 (hp w1)
      . rw [Function.update_of_ne heq2] at h2
        exact h.one_place w1 w2 u h1 h2

theorem add (h : q.Inv status idle waiter r) (ht : t ∉ q.all)
    : ({ q with ready := q.ready ++ [t], all := q.all ++ [t] } : Queues T S).Inv
        (Function.update status t .ready) idle
        waiter r := by
  have hne : ∀ u ∈ q.all, u ≠ t := by
    rintro u hu rfl
    exact ht hu
  constructor
  . intro u
    dsimp only
    rw [List.mem_append, List.mem_append, List.mem_singleton]
    by_cases hu : u = t
    . subst hu
      simp
    . rw [Function.update_of_ne hu]
      simp [hu, h.ready u]
  . intro u hu
    dsimp only at hu
    rw [List.mem_append, List.mem_singleton] at hu
    obtain hu | rfl := hu
    . rw [Function.update_of_ne (hne u hu)]
      exact h.running u hu
    . rw [Function.update_self]
      constructor
      . intro hst
        contradiction
      . intro hr
        exact absurd (h.current u hr) ht
  . intro u hu
    exact List.mem_append_left _ (h.current u hu)
  . intro u hu
    dsimp only at hu
    rw [List.mem_append, List.mem_singleton] at hu
    obtain hu | rfl := hu
    . rw [Function.update_of_ne (hne u hu)]
      exact h.alive u hu
    . rw [Function.update_self]
      simp
  . exact List.mem_append_left _ h.idle_mem
  . intro psema u hu
    obtain ⟨h1, h2⟩ := h.waiting psema u hu
    rw [Function.update_of_ne (hne u h1)]
    exact ⟨List.mem_append_left _ h1, h2⟩
  . intro w u hu
    obtain ⟨h1, h2⟩ := h.placed w u hu
    rw [Function.update_of_ne (hne u h1)]
    exact ⟨List.mem_append_left _ h1, h2⟩
  . exact h.one_place

end Inv

end Queues

end RogOS
