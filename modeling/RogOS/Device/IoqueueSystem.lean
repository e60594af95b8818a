import RogOS.Device.Impl.Ioqueue

/-!
Any number of consumers and producers, and the keyboard, on one queue.
-/

namespace RogOS

structure IoqSys (T : Type) where
  st : IoqState T
  pc : T → IoqPc
  -- The bytes that completed calls of `ioqueue_putchar` stored, in this order
  puts : List UInt8
  -- The bytes that completed calls of `ioqueue_getchar` returned, in this order
  gets : List UInt8

inductive IoqOp (T : Type) where
  | getchar (t : T)
  | putchar (t : T) (byte : UInt8)
  -- The keyboard interrupt, while `t` is running
  | keyboard (t : T) (byte : UInt8)
  -- The task goes on where it was blocked.
  | resume (t : T)

namespace IoqSys

variable {T : Type} [DecidableEq T]

def onSt {α : Type} (x : IoqM T α)
    : Cmd Fault (IoqSys T) α := Cmd.zoom IoqSys.st (fun s st => { s with st := st }) x

def record (s : IoqSys T) : IoqRet → IoqSys T
  | .blocked _ => s
  | .got byte => { s with gets := s.gets ++ [byte] }
  | .put byte => { s with puts := s.puts ++ [byte] }

def settle (s : IoqSys T) (t : T) (r : IoqRet) : IoqSys T :=
  { s.record r with
    pc := Function.update s.pc t (match r with
      | .blocked pc => pc
      | _ => .outside) }

def call (t : T) (x : IoqM T IoqRet) : Cmd Fault (IoqSys T) Unit := do
  let r ← onSt x
  modify fun s => s.settle t r

def keyboard (t : T) (byte : UInt8) : Cmd Fault (IoqSys T) Unit := do
  let s ← get
  if ¬ ioqueueFull s.st.ioq then
    let r ← onSt (ioqueuePutchar t byte)
    modify fun s => s.record r

def exec : IoqOp T → Cmd Fault (IoqSys T) Unit
  | .getchar t => call t (ioqueueGetchar t)
  | .putchar t byte => call t (ioqueuePutchar t byte)
  | .keyboard t byte => keyboard t byte
  | .resume t => do
    let s ← get
    call t (ioqueueResume t (s.pc t))

def Runs (s : IoqSys T) (t : T) : Prop := (s.st.status t).stopped = false

def Allowed (s : IoqSys T) : IoqOp T → Prop
  | .getchar t | .putchar t _ => s.Runs t ∧ s.pc t = .outside
  | .keyboard _ _ => True
  | .resume t => s.Runs t ∧ s.pc t ≠ .outside

def start (status : T → TaskStatus) (buf : Mem) : IoqSys T :=
  ⟨⟨status, ioqueueInit ⟨⟨none, ⟨0, []⟩, 0⟩, fun _ => none, buf, 0, 0⟩⟩, fun _ => .outside, [], []⟩

abbrev Reach (guard : IoqSys T → IoqOp T → Prop)
    : IoqSys T → IoqSys T → Prop := Cmd.Reach exec guard

end IoqSys

section Spec

variable {T : Type} {q q' : Ioqueue T} {t : T}

structure Ioqueue.SameBytes (q q' : Ioqueue T) : Prop where
  buf : q'.buf = q.buf
  head : q'.head = q.head
  tail : q'.tail = q.tail

theorem Ioqueue.SameBytes.trans {q1 : Ioqueue T} (h1 : q.SameBytes q1) (h2 : q1.SameBytes q')
    : q.SameBytes q' where
  buf := h2.buf.trans h1.buf
  head := h2.head.trans h1.head
  tail := h2.tail.trans h1.tail

theorem Ioqueue.SameBytes.empty_eq (h : q.SameBytes q') : ioqueueEmpty q' = ioqueueEmpty q := by
  unfold ioqueueEmpty
  rw [h.head, h.tail]

theorem Ioqueue.SameBytes.full_eq (h : q.SameBytes q') : ioqueueFull q' = ioqueueFull q := by
  unfold ioqueueFull
  rw [h.head, h.tail]

variable [DecidableEq T]

inductive Ioqueue.Ran (waits : IoqSide → Prop) (t : T) (q q' : Ioqueue T) : IoqRet → Prop where
  -- The task waits for the lock.
  | lock {pc : IoqPc} (bytes : q.SameBytes q') (waiter : q'.waiter = q.waiter)
      : Ran waits t q q' (.blocked pc)
  -- The task waits for a byte, or for room for one.
  | wait {pc : IoqPc} {side : IoqSide} (why : waits side) (bytes : q.SameBytes q')
    (waiter : q'.waiter = Function.update q.waiter side (some t)) : Ran waits t q q' (.blocked pc)
  | got (tested : ioqueueEmpty q = false) (range : 0 ≤ q.tail ∧ q.tail < 64) (buf : q'.buf = q.buf)
      (head : q'.head = q.head)
    (tail : q'.tail = nextPos q.tail) (waiter : q'.waiter = Function.update q.waiter .producer none)
    : Ran waits t q q' (.got (q.buf q.tail.toNat))
  | put {byte : UInt8} (tested : ioqueueFull q = false) (range : 0 ≤ q.head ∧ q.head < 64)
    (buf : q'.buf = Function.update q.buf q.head.toNat byte)
    (head : q'.head = nextPos q.head) (tail : q'.tail = q.tail)
    (waiter : q'.waiter = Function.update q.waiter .consumer none) : Ran waits t q q' (.put byte)

omit [DecidableEq T] in
theorem Ioqueue.onLock_run {α : Type} {x : LockM T α} {s : IoqState T} {r : α × IoqState T}
    (h : (Ioqueue.onLock x).run s = .ok r)
    : s.ioq.SameBytes r.2.ioq ∧ r.2.ioq.waiter = s.ioq.waiter := by
  unfold Ioqueue.onLock at h
  rw [Cmd.zoom_run] at h
  obtain ⟨p, -, hr⟩ := h
  rw [hr]
  exact ⟨⟨rfl, rfl, rfl⟩, rfl⟩

theorem wakeupAny_run {side : IoqSide} {s : IoqState T} {r : Unit × IoqState T}
    (h : (wakeupAny side).run s = .ok r)
    : s.ioq.SameBytes r.2.ioq ∧ r.2.ioq.waiter = Function.update s.ioq.waiter side none := by
  unfold wakeupAny at h
  rw [Cmd.exec_get_bind] at h
  split at h
  . next hne =>
    unfold wakeup at h
    rw [Cmd.exec_get_bind] at h
    cases hw : s.ioq.waiter side with
    | none => exact absurd hw hne
    | some u =>
      rw [hw] at h
      dsimp only at h
      rw [Cmd.bind_run] at h
      obtain ⟨_, s1, h1, h2⟩ := h
      unfold Ioqueue.onStatus at h1
      rw [Cmd.zoom_run] at h1
      obtain ⟨p, -, hs1⟩ := h1
      unfold Ioqueue.update at h2
      rw [Cmd.modify_run] at h2
      dsimp only at hs1
      rw [h2, hs1]
      exact ⟨⟨rfl, rfl, rfl⟩, rfl⟩
  . next hnone =>
    rw [Cmd.pure_run] at h
    rw [h]
    refine ⟨⟨rfl, rfl, rfl⟩, ?_⟩
    rw [ne_eq, not_not] at hnone
    rw [← hnone, Function.update_eq_self]

theorem ioqueueWait_run {side : IoqSide} {s : IoqState T} {r : Unit × IoqState T}
    (h : (ioqueueWait t side).run s = .ok r)
    : s.ioq.SameBytes r.2.ioq ∧ r.2.ioq.waiter = Function.update s.ioq.waiter side (some t) := by
  unfold ioqueueWait at h
  rw [Cmd.exec_get_bind, Cmd.exec_assert_bind] at h
  split at h
  . unfold Ioqueue.update Ioqueue.onStatus at h
    rw [Cmd.exec_modify_bind, Cmd.zoom_run] at h
    obtain ⟨p, -, hr⟩ := h
    rw [hr]
    exact ⟨⟨rfl, rfl, rfl⟩, rfl⟩
  . contradiction

variable {waits waits' : IoqSide → Prop}

omit [DecidableEq T] in
theorem Ioqueue.Ran.of_same {q1 : Ioqueue T} {r : IoqRet} (h : q1.Ran waits t q' r)
    (hb : q.SameBytes q1) (hw : q1.waiter = q.waiter) (himp : ∀ side, waits side → waits' side)
    : q.Ran waits' t q' r := by
  cases h with
  | lock bytes waiter => exact .lock (hb.trans bytes) (waiter.trans hw)
  | wait why bytes waiter =>
    rw [hw] at waiter
    exact .wait (himp _ why) (hb.trans bytes) waiter
  | got tested range buf head tail waiter =>
    rw [hb.empty_eq] at tested
    rw [hb.tail] at range tail ⊢
    rw [hb.buf] at buf ⊢
    rw [hw] at waiter
    exact .got tested range buf (head.trans hb.head) tail waiter
  | put tested range buf head tail waiter =>
    rw [hb.full_eq] at tested
    rw [hb.head] at range head buf
    rw [hb.buf] at buf
    rw [hw] at waiter
    exact .put tested range buf head (tail.trans hb.tail) waiter

theorem getLocked_run {taken : Bool} {s : IoqState T} {r : IoqRet × IoqState T}
    (h : (getLocked t taken).run s = .ok r)
    : s.ioq.Ran (fun side => side = .consumer ∧ taken = true) t r.2.ioq r.1 := by
  unfold getLocked at h
  split at h
  . next htaken =>
    rw [Cmd.bind_run] at h
    obtain ⟨_, s1, h1, h2⟩ := h
    rw [Cmd.pure_run] at h2
    obtain ⟨hb, hw⟩ := ioqueueWait_run h1
    rw [h2]
    exact .wait ⟨rfl, htaken⟩ hb hw
  . rw [Cmd.pure_run] at h
    rw [h]
    exact .lock ⟨rfl, rfl, rfl⟩ rfl

theorem putLocked_run {byte : UInt8} {taken : Bool} {s : IoqState T} {r : IoqRet × IoqState T}
    (h : (putLocked t byte taken).run s = .ok r)
    : s.ioq.Ran (fun side => side = .producer ∧ taken = true) t r.2.ioq r.1 := by
  unfold putLocked at h
  split at h
  . next htaken =>
    rw [Cmd.bind_run] at h
    obtain ⟨_, s1, h1, h2⟩ := h
    rw [Cmd.pure_run] at h2
    obtain ⟨hb, hw⟩ := ioqueueWait_run h1
    rw [h2]
    exact .wait ⟨rfl, htaken⟩ hb hw
  . rw [Cmd.pure_run] at h
    rw [h]
    exact .lock ⟨rfl, rfl, rfl⟩ rfl

theorem ioqueueGetchar_run {s : IoqState T} {r : IoqRet × IoqState T}
    (h : (ioqueueGetchar t).run s = .ok r)
    : s.ioq.Ran (fun side => side = .consumer ∧ ioqueueEmpty s.ioq = true) t r.2.ioq r.1 := by
  unfold ioqueueGetchar at h
  rw [Cmd.exec_get_bind] at h
  split at h
  . next hempty =>
    rw [Cmd.bind_run] at h
    obtain ⟨taken, s1, h1, h2⟩ := h
    obtain ⟨hb, hw⟩ := Ioqueue.onLock_run h1
    exact (getLocked_run h2).of_same hb hw fun side hside => ⟨hside.1, hempty⟩
  . next htested =>
    rw [Bool.not_eq_true] at htested
    unfold takeByte at h
    simp only [Cmd.bind_run, Cmd.get_run, Cmd.assert_run, Cmd.pure_run] at h
    obtain ⟨_, _, ⟨_, _, h1, _, _, ⟨hrange, h2⟩, _, _, h3, _, s2, h4, h5⟩, h6⟩ := h
    cases h1
    cases h2
    cases h5
    unfold Ioqueue.update at h3
    rw [Cmd.modify_run] at h3
    cases h3
    obtain ⟨hb, hw⟩ := wakeupAny_run h4
    rw [h6]
    exact .got htested hrange hb.buf hb.head hb.tail hw

theorem ioqueuePutchar_run {byte : UInt8} {s : IoqState T} {r : IoqRet × IoqState T}
    (h : (ioqueuePutchar t byte).run s = .ok r)
    : s.ioq.Ran (fun side => side = .producer ∧ ioqueueFull s.ioq = true) t r.2.ioq r.1 := by
  unfold ioqueuePutchar at h
  rw [Cmd.exec_get_bind] at h
  split at h
  . next hfull =>
    rw [Cmd.bind_run] at h
    obtain ⟨taken, s1, h1, h2⟩ := h
    obtain ⟨hb, hw⟩ := Ioqueue.onLock_run h1
    exact (putLocked_run h2).of_same hb hw fun side hside => ⟨hside.1, hfull⟩
  . next htested =>
    rw [Bool.not_eq_true] at htested
    unfold storeByte Ioqueue.update at h
    simp only [Cmd.bind_run, Cmd.get_run, Cmd.assert_run, Cmd.modify_run, Cmd.pure_run] at h
    obtain ⟨_, _, ⟨_, _, h1, _, _, ⟨hrange, h2⟩, _, _, h3, _, s2, h4, h5⟩, h6⟩ := h
    cases h1
    cases h2
    cases h3
    cases h4
    obtain ⟨hb, hw⟩ := wakeupAny_run h5
    rw [h6]
    exact .put htested hrange hb.buf hb.head hb.tail hw

theorem lockDown_taken {s : IoqState T} {taken : Bool} {s' : IoqState T}
    (h : (Ioqueue.onLock (lockDown t)).run s = .ok (taken, s')) (ht : taken = true)
    : s.ioq.lock.semaphore.value ≠ 0 := by
  unfold Ioqueue.onLock at h
  rw [Cmd.zoom_run] at h
  obtain ⟨p, h, -⟩ := h
  unfold lockDown onSemaphore at h
  rw [Cmd.bind_run] at h
  obtain ⟨b, l, h1, h2⟩ := h
  rw [Cmd.zoom_run] at h1
  obtain ⟨p', h1, -⟩ := h1
  intro hzero
  unfold semaDown at h1
  rw [Cmd.exec_get_bind, if_pos hzero] at h1
  simp only [Cmd.bind_run, Cmd.pure_run] at h1
  obtain ⟨_, _, -, _, _, -, _, _, -, h3⟩ := h1
  rw [Prod.mk.injEq] at h3
  obtain ⟨rfl, -⟩ := h3
  rw [if_neg Bool.false_ne_true, Cmd.pure_run, Prod.mk.injEq] at h2
  have hfalse : taken = false := h2.1
  rw [hfalse] at ht
  contradiction

def IoqPc.Waits (q : Ioqueue T) : IoqPc → IoqSide → Prop
  | .outside, _ => False
  | .getLock, side => side = .consumer ∧ q.lock.semaphore.value ≠ 0
  | .getWait, side => side = .consumer ∧ ioqueueEmpty q = true
  | .putLock _, side => side = .producer ∧ q.lock.semaphore.value ≠ 0
  | .putWait _, side => side = .producer ∧ ioqueueFull q = true

theorem ioqueueResume_run {pc : IoqPc} {s : IoqState T} {r : IoqRet × IoqState T}
    (h : (ioqueueResume t pc).run s = .ok r)
    : s.ioq.Ran (pc.Waits s.ioq) t r.2.ioq r.1 := by
  cases pc with
  | outside =>
    rw [ioqueueResume, Cmd.pure_run] at h
    rw [h]
    exact .lock ⟨rfl, rfl, rfl⟩ rfl
  | getLock =>
    rw [ioqueueResume, Cmd.bind_run] at h
    obtain ⟨taken, s1, h1, h2⟩ := h
    obtain ⟨hb, hw⟩ := Ioqueue.onLock_run h1
    exact (getLocked_run h2).of_same hb hw fun side hside => ⟨hside.1, lockDown_taken h1 hside.2⟩
  | getWait =>
    rw [ioqueueResume, Cmd.bind_run] at h
    obtain ⟨_, s1, h1, h2⟩ := h
    obtain ⟨hb, hw⟩ := Ioqueue.onLock_run h1
    exact (ioqueueGetchar_run h2).of_same hb hw fun side hside => ⟨hside.1, hb.empty_eq ▸ hside.2⟩
  | putLock byte =>
    rw [ioqueueResume, Cmd.bind_run] at h
    obtain ⟨taken, s1, h1, h2⟩ := h
    obtain ⟨hb, hw⟩ := Ioqueue.onLock_run h1
    exact (putLocked_run h2).of_same hb hw fun side hside => ⟨hside.1, lockDown_taken h1 hside.2⟩
  | putWait byte =>
    rw [ioqueueResume, Cmd.bind_run] at h
    obtain ⟨_, s1, h1, h2⟩ := h
    obtain ⟨hb, hw⟩ := Ioqueue.onLock_run h1
    exact (ioqueuePutchar_run h2).of_same hb hw fun side hside => ⟨hside.1, hb.full_eq ▸ hside.2⟩

end Spec

section Exec

variable {T : Type} [DecidableEq T] {s s' : IoqSys T}

def IoqOp.Waits (s : IoqSys T) : IoqOp T → IoqSide → Prop
  | .getchar _, side => side = .consumer ∧ ioqueueEmpty s.st.ioq = true
  | .putchar _ _, side | .keyboard _ _, side => side = .producer ∧ ioqueueFull s.st.ioq = true
  | .resume t, side => (s.pc t).Waits s.st.ioq side

omit [DecidableEq T] in
theorem IoqSys.record_st {r : IoqRet} : (s.record r).st = s.st := by
  cases r <;> rfl

theorem IoqSys.call_run {t : T} {x : IoqM T IoqRet} {u : Unit}
    (h : (IoqSys.call t x).run s = .ok (u, s'))
    : ∃ r, x.run s.st = .ok (r, s'.st) ∧ s'.puts = (s.record r).puts
        ∧ s'.gets = (s.record r).gets := by
  unfold IoqSys.call IoqSys.onSt at h
  simp only [Cmd.bind_run, Cmd.zoom_run, Cmd.modify_run] at h
  obtain ⟨r, s1, ⟨st, h1, h2⟩, h3⟩ := h
  cases h2
  cases h3
  refine ⟨r, ?_, ?_, ?_⟩
  . rw [h1]
    simp [IoqSys.settle, IoqSys.record_st]
  . cases r <;> rfl
  . cases r <;> rfl

theorem IoqSys.exec_run {op : IoqOp T} {u : Unit} (h : (IoqSys.exec op).run s = .ok (u, s'))
    : s' = s ∨ ∃ t r, s.st.ioq.Ran (op.Waits s) t s'.st.ioq r
        ∧ s'.puts = (s.record r).puts ∧ s'.gets = (s.record r).gets := by
  cases op with
  | getchar t =>
    obtain ⟨r, hrun, hp, hg⟩ := IoqSys.call_run h
    exact .inr ⟨t, r, ioqueueGetchar_run hrun, hp, hg⟩
  | putchar t byte =>
    obtain ⟨r, hrun, hp, hg⟩ := IoqSys.call_run h
    exact .inr ⟨t, r, ioqueuePutchar_run hrun, hp, hg⟩
  | keyboard t byte =>
    unfold IoqSys.exec IoqSys.keyboard at h
    rw [Cmd.exec_get_bind] at h
    split at h
    . unfold IoqSys.onSt at h
      simp only [Cmd.bind_run, Cmd.zoom_run, Cmd.modify_run] at h
      obtain ⟨r, s1, ⟨st, h1, h2⟩, h3⟩ := h
      cases h2
      cases h3
      refine .inr ⟨t, r, ?_, ?_, ?_⟩
      . have hran := ioqueuePutchar_run h1
        rw [IoqSys.record_st]
        exact hran
      . cases r <;> rfl
      . cases r <;> rfl
    . rw [Cmd.pure_run, Prod.mk.injEq] at h
      exact .inl h.2
  | resume t =>
    unfold IoqSys.exec at h
    rw [Cmd.exec_get_bind] at h
    obtain ⟨r, hrun, hp, hg⟩ := IoqSys.call_run h
    exact .inr ⟨t, r, ioqueueResume_run hrun, hp, hg⟩

instance IoqSys.decidableAllowed {op : IoqOp T} : Decidable (s.Allowed op) :=
  match op with
  | .getchar t => inferInstanceAs (Decidable ((s.st.status t).stopped = false ∧ s.pc t = .outside))
  | .putchar t _ =>
    inferInstanceAs (Decidable ((s.st.status t).stopped = false ∧ s.pc t = .outside))
  | .keyboard _ _ => inferInstanceAs (Decidable True)
  | .resume t => inferInstanceAs (Decidable ((s.st.status t).stopped = false ∧ s.pc t ≠ .outside))

end Exec

end RogOS
