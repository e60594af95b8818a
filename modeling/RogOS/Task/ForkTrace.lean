import RogOS.Memory.Lemmas.KernelMap
import RogOS.Task.Impl.Process

/-!
What `sys_fork` leaves when it fails. Pages are found one at a time, or the kernel stops; several
pages in a row may not be found, and by then the PCB of the child and the buffer for its pages are
allocated.
-/

namespace RogOS

open Cmd

namespace Procs

variable {p p' : Procs} {b j : Nat}

structure SameResources (p p' : Procs) : Prop where
  kernelPool : p'.mem.kernelPool.poolBitmap = p.mem.kernelPool.poolBitmap
  kernelVaddr : p'.mem.kernelVaddr.vaddrBitmap = p.mem.kernelVaddr.vaddrBitmap
  openCnts : ∀ addr, (p'.fs.inode? addr).map Inode.iOpenCnts
    = (p.fs.inode? addr).map Inode.iOpenCnts
  readyList : p'.threadReadyList = p.threadReadyList
  allList : p'.threadAllList = p.threadAllList

def Taken (b j : Nat) (p : Procs) : Prop := p.mem.Taken b j

theorem stable_onMem {α : Type} {x : PagingM α} (h : Stable (Paging.Taken b j) x)
    : Stable (Taken b j) (onMem x) := by
  intro p r hp hrun
  rw [onMem, zoom_run] at hrun
  obtain ⟨s, hs, hr⟩ := hrun
  have hpost := h _ _ hp hs
  unfold Taken
  rw [hr]
  exact hpost

theorem stable_setTaskMem {thread : UInt32} {f : TaskMem → TaskMem}
    : Stable (Taken b j) (setTaskMem thread f) :=
  stable_modify fun _ hp => hp

theorem keeps_modifyPage {page : UInt32} {f : Mem → Mem}
    : Cmd.Keeps Paging.books (modifyPage page f) :=
  keeps_bind keeps_get fun _ => Paging.keeps_writeRange

theorem stable_modifyPage {page : UInt32} {f : Mem → Mem}
    : Stable (Taken b j) (onMem (modifyPage page f)) :=
  stable_onMem (Paging.stable_of_keeps keeps_modifyPage)

theorem stable_copyPcb {childThread parentThread : UInt32}
    : Stable (Taken b j) (copyPcbVaddrbitmapStack0 childThread parentThread) := by
  refine stable_bind ?_ ?_
  . exact stable_modify fun _ hp => hp
  intro _
  refine stable_bind stable_get ?_
  intro p
  refine stable_bind stable_modifyPage ?_
  intro _
  refine stable_bind stable_setTaskMem ?_
  intro _
  refine stable_bind ?_ ?_
  . exact stable_modify fun _ hp => hp
  intro _
  refine stable_bind (stable_onMem Paging.stable_getKernelPages) ?_
  intro o
  split
  . exact stable_pure
  . apply stable_bind (stable_onMem (Paging.stable_of_keeps Paging.keeps_copyPages))
    intro _
    refine stable_bind stable_setTaskMem ?_
    intro _
    refine stable_bind stable_modifyPage ?_
    intro _
    refine stable_bind stable_get ?_
    intro p
    split
    . exact stable_throw
    . exact stable_bind stable_modifyPage fun _ => stable_pure

theorem createPageDir_run {s : Paging} {r : Option UInt32 × Paging}
    (h : createPageDir.run s = .ok r) : r.1 ≠ none := by
  simp only [createPageDir, bind_run] at h
  obtain ⟨o, s1, h1, h2⟩ := h
  obtain ⟨v, _, _, hv, -⟩ := Paging.getKernelPages_one h1
  dsimp only at hv
  rw [hv] at h2
  simp only [bind_run, pure_run] at h2
  obtain ⟨_, _, -, _, _, -, _, _, -, hr⟩ := h2
  rw [hr]
  exact Option.some_ne_none _

theorem onMem_run {α : Type} {x : PagingM α} {r : α × Procs} (h : (onMem x).run p = .ok r)
    : ∃ s, x.run p.mem = .ok (r.1, s) ∧ r.2 = { p with mem := s } := zoom_run.mp h

theorem copyProcess_failed {childThread parentThread intrExit : UInt32} (hp : p.Taken b j)
    (h : (copyProcess childThread parentThread intrExit).run p = .ok (false, p'))
    : p'.Taken b j := by
  simp only [copyProcess, bind_run] at h
  obtain ⟨o, p1, h1, h2⟩ := h
  have hp1 := stable_onMem Paging.stable_getKernelPages _ _ hp h1
  cases o with
  | none =>
    rw [pure_run] at h2
    cases h2
    exact hp1
  | some bufPage =>
    simp only [bind_run] at h2
    obtain ⟨copied, p2, h3, h4⟩ := h2
    have hp2 := stable_copyPcb _ _ hp1 h3
    cases copied with
    | false =>
      rw [if_neg Bool.false_ne_true, pure_run] at h4
      cases h4
      exact hp2
    | true =>
      rw [if_pos rfl] at h4
      simp only [bind_run] at h4
      obtain ⟨dir, p3, h5, h6⟩ := h4
      obtain ⟨s, hdir, -⟩ := onMem_run h5
      cases dir with
      | none => exact absurd rfl (createPageDir_run hdir)
      | some pgdir =>
        -- with a directory the result is 0
        simp only [bind_run, pure_run] at h6
        obtain ⟨_, _, -, _, _, -, _, _, -, _, _, -, _, _, -, _, _, -, _, _, -, hr⟩ := h6
        cases hr

theorem sysFork_failed {intrExit : UInt32} (h : (sysFork intrExit).run p = .ok (none, p'))
    : ∃ b j, p.mem.kernelVaddr.vaddrBitmap.bits.bit b = false
        ∧ p.mem.kernelPool.poolBitmap.bits.bit j = false
        ∧ p'.Taken b j := by
  simp only [sysFork, bind_run, get_run] at h
  obtain ⟨_, _, h0, o, p1, h1, h2⟩ := h
  cases h0
  obtain ⟨s, hpages, hp1⟩ := onMem_run h1
  obtain ⟨v, b, j, hv, hb, hj, htaken⟩ := Paging.getKernelPages_one hpages
  dsimp only at hv hp1
  refine ⟨b, j, hb, hj, ?_⟩
  have htaken1 : p1.Taken b j := by
    rw [hp1]
    exact htaken
  rw [hv] at h2
  simp only [bind_run, assert_run] at h2
  obtain ⟨_, _, ⟨-, h0⟩, done, p2, h3, h4⟩ := h2
  cases h0
  cases done with
  | false =>
    rw [if_neg Bool.false_ne_true, pure_run] at h4
    cases h4
    exact copyProcess_failed htaken1 h3
  | true =>
    rw [if_pos rfl] at h4
    simp only [bind_run, get_run, pure_run] at h4
    obtain ⟨_, _, -, _, _, -, hr⟩ := h4
    cases hr

end Procs

variable {p p' : Procs} {intrExit : UInt32}

/-- A `fork` that fails keeps a page of the kernel, whatever state it starts in. -/
theorem failed_fork_keeps_pages (h : (Procs.sysFork intrExit).run p = .ok (none, p'))
    : ¬ p.SameResources p' := by
  intro hsame
  obtain ⟨b, j, hb, -, htaken⟩ := Procs.sysFork_failed h
  have hset := htaken.1
  rw [hsame.kernelVaddr, hb] at hset
  contradiction

section Full

def lastByteFree : Bitmap := ⟨480, fun i => if i < 479 then 0xff else 0⟩

def forkingTask : TaskMem := ⟨0xc0118000, 0x8048000, userBtmpBytesLen, 0xc0101000⟩

def fullProcs : Procs where
  mem := {
    phys := Mem.ofWords (Paging.tableWords 0x218 3832)
    cr3 := 0x218000
    kernelPool := ⟨lastByteFree, 0x200000⟩
    userPool := ⟨⟨480, Mem.zero⟩, 0x1100000⟩
    kernelVaddr := ⟨lastByteFree, 0xc0100000⟩
    cur := forkingTask }
  fs := ⟨⟨Mem.zero, Mem.zero, Mem.zero⟩, [], 0, fun _ => ⟨0, 0, none⟩, fun _ => ⟨fun _ => -1, 0⟩,
    []⟩
  nextPid := 1
  intrOn := false
  taskMem := fun _ => forkingTask
  running := 0xc0100000
  threadReadyList := []
  threadAllList := [0xc0100000]

theorem sysFork_fullProcs
    : (Procs.sysFork 0xc0001500).run fullProcs
        = .ok (none, (Procs.sysFork 0xc0001500).after fullProcs) := by
  have hret : (Procs.sysFork 0xc0001500).returns fullProcs Option.isNone = true := by decide +kernel
  obtain ⟨pid, hrun, hpid⟩ := Cmd.run_of_returns hret
  cases pid with
  | none => exact hrun
  | some pid => cases hpid

theorem failed_fork_keeps_pages_fullProcs
    : ¬ fullProcs.SameResources ((Procs.sysFork 0xc0001500).after fullProcs) :=
  failed_fork_keeps_pages sysFork_fullProcs

/-- Two pages of the kernel stay in use. -/
theorem not_failed_fork_restores
    : ∃ p', (Procs.sysFork 0xc0001500).run fullProcs = .ok (none, p')
        ∧ ¬ fullProcs.SameResources p' := by
  refine ⟨_, sysFork_fullProcs, ?_⟩
  intro hsame
  have hbyte : ((Procs.sysFork 0xc0001500).after fullProcs).mem.kernelPool.poolBitmap.bits 479
      = 3 := by decide +kernel
  rw [hsame.kernelPool] at hbyte
  contradiction

end Full

end RogOS
