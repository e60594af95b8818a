import RogOS.Device.IoqueueSystem
import RogOS.Lib.Ring

/-!
The queue hands out the bytes that were stored, each once and in order.
-/

namespace RogOS

variable {T : Type}

def Ioqueue.count (q : Ioqueue T) : Nat := ((q.head - q.tail) % bufsize).toNat

def Ioqueue.bytes (q : Ioqueue T) : List UInt8 := Ring.contents bufsize q.buf q.tail.toNat q.count

structure IoqSys.Fifo (s : IoqSys T) : Prop where
  head : 0 ≤ s.st.ioq.head ∧ s.st.ioq.head < bufsize
  tail : 0 ≤ s.st.ioq.tail ∧ s.st.ioq.tail < bufsize
  bytes : s.puts = s.gets ++ s.st.ioq.bytes
  count : s.st.ioq.bytes.length ≤ 63

theorem nextPos_eq {pos : Int} (h : 0 ≤ pos) : nextPos pos = (pos + 1) % 64 := by
  unfold nextPos bufsize
  rw [Int.tmod_eq_emod_of_nonneg (by omega)]
  rfl

theorem ioqueueFull_eq_false {q : Ioqueue T} (h : 0 ≤ q.head)
    : ioqueueFull q = false ↔ (q.head + 1) % 64 ≠ q.tail := by
  unfold ioqueueFull
  rw [nextPos_eq h]
  simp

theorem ioqueueEmpty_eq_false {q : Ioqueue T} : ioqueueEmpty q = false ↔ q.head ≠ q.tail := by
  unfold ioqueueEmpty
  simp

variable {q q' : Ioqueue T} {t : T} {waits : IoqSide → Prop}

theorem Ioqueue.SameBytes.bytes_eq (h : q.SameBytes q') : q'.bytes = q.bytes := by
  unfold Ioqueue.bytes Ioqueue.count
  rw [h.buf, h.head, h.tail]

theorem Ioqueue.bytes_put {byte : UInt8} (hh : 0 ≤ q.head ∧ q.head < 64)
    (ht : 0 ≤ q.tail ∧ q.tail < 64) (hfull : (q.head + 1) % 64 ≠ q.tail)
    (hbuf : q'.buf = Function.update q.buf q.head.toNat byte)
    (hhead : q'.head = (q.head + 1) % 64) (htail : q'.tail = q.tail)
    : q'.bytes = q.bytes ++ [byte] ∧ q'.count ≤ 63 := by
  have hcount : q'.count = q.count + 1 := by
    unfold Ioqueue.count bufsize
    rw [hhead, htail]
    omega
  have hcell : q.head.toNat = (q.tail.toNat + q.count) % bufsize := by
    unfold Ioqueue.count bufsize
    omega
  have hle : q'.count ≤ 63 := by
    unfold Ioqueue.count bufsize
    omega
  refine ⟨?_, hle⟩
  unfold Ioqueue.bytes
  rw [hcount, hbuf, htail, hcell]
  apply Ring.contents_update
  unfold bufsize
  omega

theorem Ioqueue.bytes_take (hh : 0 ≤ q.head ∧ q.head < 64) (ht : 0 ≤ q.tail ∧ q.tail < 64)
    (hempty : q.head ≠ q.tail) (hbuf : q'.buf = q.buf) (hhead : q'.head = q.head)
    (htail : q'.tail = (q.tail + 1) % 64)
    : q.bytes = q.buf q.tail.toNat :: q'.bytes := by
  have hcount : q.count = q'.count + 1 := by
    unfold Ioqueue.count bufsize
    rw [hhead, htail]
    omega
  have hcell : q'.tail.toNat = (q.tail.toNat + 1) % bufsize := by
    unfold bufsize
    omega
  unfold Ioqueue.bytes
  rw [hcount, hbuf, hcell]
  apply Ring.contents_cons
  unfold bufsize
  omega

variable {s s' : IoqSys T}

theorem IoqSys.Fifo.step {r : IoqRet} (h : s.Fifo) (hran : s.st.ioq.Ran waits t s'.st.ioq r)
    (hp : s'.puts = (s.record r).puts) (hg : s'.gets = (s.record r).gets) : s'.Fifo := by
  obtain ⟨hh, ht, hbytes, hcount⟩ := h
  have hsame : s.st.ioq.SameBytes s'.st.ioq → s'.puts = s.puts → s'.gets = s.gets → s'.Fifo := by
    intro hb hp hg
    constructor
    . rw [hb.head]
      exact hh
    . rw [hb.tail]
      exact ht
    . rw [hb.bytes_eq, hp, hg]
      exact hbytes
    . rw [hb.bytes_eq]
      exact hcount
  cases hran with
  | lock bytes waiter => exact hsame bytes hp hg
  | wait why bytes waiter => exact hsame bytes hp hg
  | got tested range buf head tail waiter =>
    rw [nextPos_eq ht.1] at tail
    rw [ioqueueEmpty_eq_false] at tested
    have htake := Ioqueue.bytes_take hh ht tested buf head tail
    have hp' : s'.puts = s.puts := hp
    have hg' : s'.gets = s.gets ++ [s.st.ioq.buf s.st.ioq.tail.toNat] := hg
    constructor
    . rw [head]
      exact hh
    . rw [tail]
      unfold bufsize
      omega
    . rw [hp', hg', hbytes, htake, List.append_assoc]
      rfl
    . rw [htake, List.length_cons] at hcount
      omega
  | put tested range buf head tail waiter =>
    rename_i byte
    rw [ioqueueFull_eq_false hh.1] at tested
    rw [nextPos_eq hh.1] at head
    obtain ⟨hput, hle⟩ := Ioqueue.bytes_put hh ht tested buf head tail
    have hp' : s'.puts = s.puts ++ [byte] := hp
    have hg' : s'.gets = s.gets := hg
    constructor
    . rw [head]
      unfold bufsize
      omega
    . rw [tail]
      exact ht
    . rw [hp', hg', hbytes, hput, List.append_assoc]
    . unfold Ioqueue.bytes
      rw [Ring.length_contents]
      exact hle

theorem IoqSys.Fifo.start {status : T → TaskStatus} {buf : Mem}
    : (IoqSys.start status buf).Fifo where
  head := ⟨le_refl _, Int.natCast_pos.mpr (Nat.succ_pos _)⟩
  tail := ⟨le_refl _, Int.natCast_pos.mpr (Nat.succ_pos _)⟩
  bytes := rfl
  count := Nat.zero_le _

variable [DecidableEq T]

/--
Any number of consumers, producers and key strokes, in any order: what was returned is a prefix of
what was stored, and the rest is in the queue.
-/
theorem ioqueue_fifo {status : T → TaskStatus} {buf : Mem}
    (h : IoqSys.Reach IoqSys.Allowed (IoqSys.start status buf) s)
    : s.Fifo := by
  refine Cmd.Reach.invariant ?_ IoqSys.Fifo.start h
  intro s op _ s' hs _ hrun
  obtain rfl | ⟨t, r, hran, hp, hg⟩ := IoqSys.exec_run hrun
  . exact hs
  . exact hs.step hran hp hg

def waitForKey
    : List (IoqOp Bool) := [.getchar true, .keyboard false 97, .keyboard false 98, .resume true]

theorem ioqueue_fifo_waitForKey
    : (Cmd.afterAll IoqSys.exec waitForKey (IoqSys.start (fun _ => .running) Mem.zero)).Fifo :=
  ioqueue_fifo (Cmd.reach_of_returnsWhile (k := fun s op => decide (s.Allowed op)) (fun _ _ _ h =>
    of_decide_eq_true h)
    (by decide))

example : (Cmd.afterAll IoqSys.exec waitForKey (IoqSys.start (fun _ => .running) Mem.zero)).gets
    = [97] := by decide

end RogOS
