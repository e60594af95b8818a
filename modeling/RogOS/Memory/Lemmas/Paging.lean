import RogOS.Fs.Lemmas.Bitmap
import RogOS.Memory.Impl.Paging

/-!
What the functions on pages do to the bitmaps of `memory.c`. Only those that allocate or free change
them.
-/

namespace RogOS

namespace Paging

open Cmd

variable {s s' : Paging} {pf : PoolFlags} {vaddr dst src : UInt32}

def books (s : Paging)
    : Pool × Pool × VirtualAddr × TaskMem := (s.kernelPool, s.userPool, s.kernelVaddr, s.cur)

section Keeps

theorem keeps_phys {g : Paging → Mem}
    : Cmd.Keeps books (modify fun s => s.setPhys (g s) : PagingM Unit) :=
  keeps_modify fun _ => rfl

theorem keeps_translate : Cmd.Keeps books (translate vaddr) := by
  apply keeps_bind keeps_get
  intro s
  split
  . exact keeps_throw
  . exact keeps_pure

theorem keeps_readWord : Cmd.Keeps books (readWord vaddr) :=
  keeps_bind keeps_translate fun _ => keeps_bind keeps_get fun _ => keeps_pure

theorem keeps_writeWord {w : UInt32} : Cmd.Keeps books (writeWord vaddr w) :=
  keeps_bind keeps_translate fun _ => keeps_phys

theorem keeps_writeRange {len : Nat} {m : Mem} : Cmd.Keeps books (writeRange dst len m) :=
  keeps_bind keeps_translate fun _ => keeps_phys

theorem keeps_copyRange {len : Nat} : Cmd.Keeps books (copyRange dst src len) :=
  keeps_bind keeps_translate fun _ => keeps_bind keeps_get fun _ => keeps_writeRange

theorem keeps_copyPages {n : Nat} : Cmd.Keeps books (copyPages n dst src) := by
  induction n generalizing dst src with
  | zero => exact keeps_pure
  | succ n ih => exact keeps_bind keeps_copyRange fun _ => ih

theorem keeps_zeroPages {n : Nat} : Cmd.Keeps books (zeroPages n dst) := by
  induction n generalizing dst with
  | zero => exact keeps_pure
  | succ n ih => exact keeps_bind keeps_writeRange fun _ => ih

theorem keeps_memset {len : Nat} : Cmd.Keeps books (memset dst len) := by
  apply keeps_bind keeps_zeroPages
  intro _
  split
  . exact keeps_writeRange
  . exact keeps_pure

end Keeps

def Taken (b j : Nat) (s : Paging) : Prop :=
  s.kernelVaddr.vaddrBitmap.bits.bit b = true ∧ s.kernelPool.poolBitmap.bits.bit j = true

section Taken

variable {b j : Nat}

theorem stable_of_keeps {α : Type} {x : PagingM α} (h : Cmd.Keeps books x)
    : Stable (Taken b j) x := by
  intro s r hs hrun
  have hbooks := h s r hrun
  simp only [books, Prod.mk.injEq] at hbooks
  unfold Taken
  rw [hbooks.1, hbooks.2.2.1]
  exact hs

theorem bit_setBit_of_bit {m : Mem} {i k : Nat} (h : m.bit i = true)
    : (m.setBit k true).bit i = true := by
  rw [Mem.bit_setBit]
  split
  . rfl
  . exact h

theorem stable_kernelBitmapSet {i n : Nat} : Stable (Taken b j) (kernelBitmapSet i n true) := by
  refine stable_bind stable_get fun _ => stable_bind stable_assert fun _ => stable_modify ?_
  intro s hs
  refine ⟨?_, hs.2⟩
  rw [Mem.bit_setBits]
  split
  . rfl
  . exact hs.1

theorem bitmapScan_state {btmp : Bitmap} {cnt : UInt32} {r : Option Nat × Paging}
    (h : (bitmapScan btmp cnt).run s = .ok r) : r.2 = s := by
  unfold bitmapScan at h
  split at h
  . exact absurd h throw_run
  . dsimp only at h
    split at h
    . rw [pure_run] at h
      rw [h]
    . split at h <;>
      . rw [pure_run] at h
        rw [h]

theorem stable_bitmapScan {btmp : Bitmap} {cnt : UInt32}
    : Stable (Taken b j) (bitmapScan btmp cnt) := by
  intro s r hs h
  rw [bitmapScan_state h]
  exact hs

theorem palloc_run {r : Option UInt32 × Paging} (h : (palloc pf).run s = .ok r)
    : ∃ k, FirstClear (s.pool pf).poolBitmap.bits (s.pool pf).poolBitmap.btmpBytesLen k
        ∧ r = (some ((s.pool pf).phyAddrStart + UInt32.ofNat k * 4096), s.setPool
            { s.pool pf with
              poolBitmap :=
                { (s.pool pf).poolBitmap with bits := (s.pool pf).poolBitmap.bits.setBit k true } }
                  pf) := by
  simp only [palloc, bind_run, get_run] at h
  obtain ⟨_, _, h0, o, s1, h1, h2⟩ := h
  cases h0
  obtain ⟨k, hk, hclear⟩ := bitmapScan_run h1
  cases hk
  simp only [bitmapSet, bind_run, assert_run, pure_run, modify_run] at h2
  obtain ⟨_, _, ⟨_, _, ⟨_, h3⟩, h4⟩, _, _, h5, h6⟩ := h2
  cases h3
  cases h4
  cases h5
  exact ⟨k, hclear, h6⟩

theorem stable_palloc : Stable (Taken b j) (palloc pf) := by
  intro s r hs h
  obtain ⟨k, -, rfl⟩ := palloc_run h
  cases pf with
  | kernel => exact ⟨hs.1, bit_setBit_of_bit hs.2⟩
  | user => exact hs

theorem stable_pageTableAdd {p : UInt32} : Stable (Taken b j) (pageTableAdd vaddr p) := by
  apply stable_bind (stable_of_keeps keeps_readWord)
  intro pde
  split
  . refine stable_bind (stable_of_keeps keeps_readWord) fun _ => stable_bind stable_assert fun _ =>
      ?_
    exact stable_of_keeps keeps_writeWord
  . refine stable_bind stable_palloc fun _ => stable_bind (stable_of_keeps keeps_writeWord) fun _ =>
      ?_
    refine stable_bind (stable_of_keeps keeps_writeRange) fun _ => ?_
    refine stable_bind (stable_of_keeps keeps_readWord) fun _ => stable_bind stable_assert fun _ =>
      ?_
    exact stable_of_keeps keeps_writeWord

theorem stable_mapPages {n : Nat} : Stable (Taken b j) (mapPages pf n vaddr) := by
  induction n generalizing vaddr with
  | zero => exact stable_pure
  | succ n ih =>
    apply stable_bind stable_palloc
    intro o
    split
    . exact stable_pure
    . exact stable_bind stable_pageTableAdd fun _ => ih

theorem stable_vaddrGet {cnt : UInt32} : Stable (Taken b j) (vaddrGet .kernel cnt) := by
  refine stable_bind stable_get fun _ => stable_bind stable_bitmapScan ?_
  intro o
  split
  . exact stable_pure
  . exact stable_bind stable_kernelBitmapSet fun _ => stable_pure

theorem stable_mallocPage {cnt : UInt32} : Stable (Taken b j) (mallocPage .kernel cnt) := by
  refine stable_bind stable_assert fun _ => stable_bind stable_vaddrGet ?_
  intro o
  split
  . exact stable_pure
  . apply stable_bind stable_mapPages
    intro ok
    split <;> exact stable_pure

theorem stable_getKernelPages {cnt : UInt32} : Stable (Taken b j) (getKernelPages cnt) := by
  apply stable_bind stable_mallocPage
  intro o
  split
  . exact stable_pure
  . exact stable_bind (stable_of_keeps keeps_memset) fun _ => stable_pure

theorem getKernelPages_one {r : Option UInt32 × Paging} (h : (getKernelPages 1).run s = .ok r)
    : ∃ v b j, r.1 = some v ∧ s.kernelVaddr.vaddrBitmap.bits.bit b = false
        ∧ s.kernelPool.poolBitmap.bits.bit j = false ∧ r.2.Taken b j := by
  simp only [getKernelPages, mallocPage, bind_run, assert_run] at h
  obtain ⟨o, s1, ⟨_, _, ⟨-, h0⟩, o', s2, hget, h1⟩, h2⟩ := h
  cases h0
  -- the virtual page
  simp only [vaddrGet, bind_run, get_run] at hget
  obtain ⟨_, _, h0, _, _, hscan, hget⟩ := hget
  cases h0
  obtain ⟨b, hb, hclear⟩ := bitmapScan_run hscan
  cases hb
  simp only [kernelBitmapSet, bind_run, get_run, assert_run, modify_run, pure_run] at hget
  obtain ⟨_, _, ⟨_, _, h0, _, _, ⟨-, h3⟩, h4⟩, h5⟩ := hget
  cases h0
  cases h3
  cases h4
  cases h5
  -- the frame
  simp only [bind_run] at h1
  obtain ⟨ok, s3, hmap, h1⟩ := h1
  rw [show (1 : UInt32).toNat = 0 + 1 from rfl, mapPages] at hmap
  simp only [bind_run] at hmap
  obtain ⟨_, s4, halloc, hmap⟩ := hmap
  obtain ⟨j, hj, hr⟩ := palloc_run halloc
  cases hr
  simp only [bind_run] at hmap
  obtain ⟨_, s5, hadd, hmap⟩ := hmap
  rw [show (mapPages .kernel 0 _ : PagingM Bool) = pure true from rfl, pure_run] at hmap
  cases hmap
  rw [if_pos rfl, pure_run] at h1
  cases h1
  simp only [bind_run, pure_run] at h2
  obtain ⟨_, s6, hset, h2⟩ := h2
  refine ⟨_, b, j, by rw [h2], hclear.clear, hj.clear, ?_⟩
  rw [h2]
  apply stable_of_keeps keeps_memset _ _ _ hset
  apply stable_pageTableAdd _ _ _ hadd
  constructor
  . show Mem.bit (Mem.setBits _ b true 1) b = true
    rw [Mem.bit_setBits, if_pos (by omega)]
  . show Mem.bit (Mem.setBit _ j true) j = true
    rw [Mem.bit_setBit, if_pos rfl]

end Taken

section Palloc

def setPoolBit (s : Paging) (pf : PoolFlags) (i : Nat) (v : Bool) : Paging :=
  s.setPool { s.pool pf with
    poolBitmap := { (s.pool pf).poolBitmap with bits := (s.pool pf).poolBitmap.bits.setBit i v } }
      pf

theorem bitmapSet_exec {σ : Type} {btmp : Bitmap} {j : Nat} {b : Bool} {t : σ}
    (h : j / 8 < btmp.btmpBytesLen)
    : (bitmapSet btmp j b).run t = .ok ({ btmp with bits := btmp.bits.setBit j b }, t) := by
  unfold bitmapSet
  rw [exec_assert_bind, if_pos h]
  rfl

theorem palloc_exec (h : (s.pool pf).poolBitmap.HasClear)
    : ∃ k, FirstClear (s.pool pf).poolBitmap.bits (s.pool pf).poolBitmap.btmpBytesLen k
        ∧ (palloc pf).run s = .ok (some ((s.pool pf).phyAddrStart + UInt32.ofNat k * 4096),
            s.setPoolBit pf k true) := by
  obtain ⟨k, hk, hscan⟩ := @bitmapScan_of_hasClear Paging (s.pool pf).poolBitmap s h
  have hlt := hk.lt
  refine ⟨k, hk, ?_⟩
  rw [palloc, exec_get_bind, exec_bind hscan]
  dsimp only
  rw [exec_bind (bitmapSet_exec (by omega))]
  rfl

theorem palloc_full (h : ¬ (s.pool pf).poolBitmap.HasClear)
    : (palloc pf).run s = .error .panic := by
  rw [palloc, exec_get_bind, StateT.run_bind, bitmapScan_of_full h]
  rfl

end Palloc

end Paging

end RogOS
