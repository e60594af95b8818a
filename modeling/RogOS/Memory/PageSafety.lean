import RogOS.Memory.PageMap

/-!
The pages of the kernel heap over runs of `malloc_page` and `mfree_page`: the two bitmaps and the
page tables say the same, and what was just allocated can be freed without a trace.
-/

namespace RogOS

open Cmd

namespace Paging

inductive PageOp where
  | malloc (pgCnt : UInt32)
  | mfree (vaddr pgCnt : UInt32)

def pageOp : PageOp → PagingM (Option UInt32)
  | .malloc pgCnt => mallocPage .kernel pgCnt
  | .mfree vaddr pgCnt => do
    mfreePage .kernel vaddr pgCnt
    pure none

def scanInside (btmp : Bitmap) (cnt : UInt32) : Bool :=
  match (bitmapScan btmp cnt : Cmd Fault Unit (Option Nat)).run () with
  | .ok (some bitIdxStart, _) => bitIdxStart + cnt.toNat ≤ 8 * btmp.btmpBytesLen
  | _ => true

def heapPages (s : Paging) : Nat := 8 * s.kernelVaddr.vaddrBitmap.btmpBytesLen

def Allocated (s : Paging) (vaddr pgCnt : UInt32) : Prop :=
  0xc0100000 ≤ vaddr ∧ (vaddr.toNat - 0xc0100000) / 4096 + pgCnt.toNat ≤ s.heapPages
    ∧ ∀ i < pgCnt.toNat, s.vbit ((vaddr.toNat - 0xc0100000) / 4096 + i) = true

def Allowed (s : Paging) : PageOp → Prop
  | .malloc pgCnt => scanInside s.kernelVaddr.vaddrBitmap pgCnt = true
  | .mfree vaddr pgCnt => s.Allocated vaddr pgCnt

def pteAt (s : Paging) (vaddr : UInt32) : UInt32 :=
  match s.walk (ptePtr vaddr) with
  | none => 0
  | some a => s.phys.word a

def heapPage (i : Nat) : UInt32 := 0xc0100000 + UInt32.ofNat i * 4096

def Present (s : Paging) (i : Nat) : Prop := Mmu.present (s.pteAt (heapPage i)) = true

def HasFrame (s : Paging) (i j : Nat) : Prop :=
  4096 * Mmu.frame (s.pteAt (heapPage i)) = s.kernelPool.phyAddrStart.toNat + 4096 * j

structure Exact (s : Paging) : Prop where
  bit : ∀ i < s.heapPages, s.vbit i = true ↔ s.Present i
  frame : ∀ i < s.heapPages, s.Present i →
    ∃ j < 8 * s.kernelPool.poolBitmap.btmpBytesLen, s.HasFrame i j ∧ s.pbit j = true
  distinct : ∀ i < s.heapPages, ∀ l < s.heapPages, s.Present i → s.Present l → ∀ j, s.HasFrame i j
    → s.HasFrame l j → i = l
  owner : ∀ j < 8 * s.kernelPool.poolBitmap.btmpBytesLen, s.pbit j = true →
    ∃ i, (i < s.heapPages ∧ s.Present i ∧ s.HasFrame i j)
      ∧ ∀ l, l < s.heapPages ∧ s.Present l ∧ s.HasFrame l j → l = i

structure SamePages (s s' : Paging) : Prop where
  kernelPool : s'.kernelPool.poolBitmap = s.kernelPool.poolBitmap
  kernelVaddr : s'.kernelVaddr.vaddrBitmap = s.kernelVaddr.vaddrBitmap
  mapped : ∀ i < s.heapPages, s'.Present i ↔ s.Present i

structure Boot (s : Paging) (allMem : UInt32) : Prop where
  cr3 : s.cr3 = 0x100000
  dir : KernelDir s.phys 0x100
  empty : ∀ i < 8 * (kernelFreePages allMem / 8).toNat, ¬ s.Mapped i

variable {s s' : Paging} {N U a n i j : Nat} {v cnt allMem : UInt32} {pend : Nat → Prop}

section Exact

theorem MapInv.pteAt_eq (h : MapInv s N U pend) (hi : i < N)
    : s.pteAt (heapPage i) = s.kpte (256 + i) := by
  have hpage := h.pools.toNat_page (Nat.le_of_lt hi)
  rw [h.pools.vaddrStart] at hpage
  have hU := h.pools.userBelow
  have hB := h.pools.kernelBelow
  have hwalk := walk_ptePtr h.dir (h.lt hi) (show (heapPage i).toNat / 4096 = 0xc0000 + (256 + i) by
    unfold heapPage
    omega)
  unfold pteAt
  rw [hwalk]
  rfl

theorem MapInv.present_iff (h : MapInv s N U pend) (hi : i < N) : s.Present i ↔ s.Mapped i := by
  unfold Present
  rw [h.pteAt_eq hi]
  exact Iff.rfl

theorem MapInv.hasFrame_iff (h : MapInv s N U pend) (hi : i < N)
    : s.HasFrame i j ↔ s.heapFrame i = 512 + j := by
  unfold HasFrame heapFrame
  rw [h.pteAt_eq hi, h.pools.kernelStart]
  show 4096 * _ = 0x200000 + 4096 * j ↔ _
  omega

theorem MapInv.exact (h : MapInv s N U fun _ => False) : s.Exact := by
  have hN : s.heapPages = N := h.pools.vaddrLen
  constructor
  . rw [hN]
    intro i hi
    rw [h.present_iff hi, h.bit i hi]
    exact or_iff_left id
  . rw [hN, h.pools.kernelLen]
    intro i hi hp
    obtain ⟨j, hj, hframe, hbit⟩ := h.frame i hi ((h.present_iff hi).mp hp)
    exact ⟨j, hj, (h.hasFrame_iff hi).mpr hframe, hbit⟩
  . rw [hN]
    intro i hi l hl hpi hpl j hfi hfl
    rw [h.hasFrame_iff hi] at hfi
    rw [h.hasFrame_iff hl] at hfl
    exact h.inj i hi l hl ((h.present_iff hi).mp hpi) ((h.present_iff hl).mp hpl)
      (hfi.trans hfl.symm)
  . rw [hN, h.pools.kernelLen]
    intro j hj hbit
    obtain ⟨i, hi, hmap, hframe⟩ := h.owned j hj hbit
    refine ⟨i, ⟨hi, (h.present_iff hi).mpr hmap, (h.hasFrame_iff hi).mpr hframe⟩, ?_⟩
    rintro l ⟨hl, hpl, hfl⟩
    rw [h.hasFrame_iff hl] at hfl
    exact h.inj l hl i hi ((h.present_iff hl).mp hpl) hmap (hfl.trans hframe.symm)

end Exact

section Malloc

theorem scanInside_run {btmp : Bitmap} {b : Nat} {s' : Paging} (hin : scanInside btmp cnt = true)
    (h : (bitmapScan btmp cnt).run s = .ok (some b, s'))
    : b + cnt.toNat ≤ 8 * btmp.btmpBytesLen := by
  have hunit : (bitmapScan btmp cnt : Cmd Fault Unit (Option Nat)).run () = .ok (some b, ()) := by
    unfold bitmapScan at *
    split at h
    . exact absurd h throw_run
    . dsimp only at h ⊢
      split at h
      . next hone =>
        rw [pure_run, Prod.mk.injEq] at h
        rw [if_pos hone, h.1]
        exact exec_pure
      . next hone =>
        rw [if_neg hone]
        split at h
        . rw [pure_run, Prod.mk.injEq] at h
          cases h.1
        . next hleft =>
          rw [pure_run, Prod.mk.injEq] at h
          rw [if_neg hleft, ← h.1]
          exact exec_pure
  unfold scanInside at hin
  rw [hunit] at hin
  exact of_decide_eq_true hin

structure Malloced (s s' : Paging) (N U a n : Nat) (v : UInt32) : Prop where
  pos : 0 < n
  le : a + n ≤ N
  addr : v.toNat = 0xc0100000 + 4096 * a
  clear : ∀ i, a ≤ i → i < a + n → s.vbit i = false
  inv : MapInv s' N U fun _ => False
  within : Within (s.setVbits a n true) s' N a n
  mapped : ∀ i, a ≤ i → i < a + n → s'.Mapped i

theorem mallocPage_run {r : Option UInt32 × Paging} (h : MapInv s N U fun _ => False)
    (hin : scanInside s.kernelVaddr.vaddrBitmap cnt = true)
    (hrun : (mallocPage .kernel cnt).run s = .ok r)
    : r = (none, s) ∨ ∃ v a, r.1 = some v ∧ Malloced s r.2 N U a cnt.toNat v := by
  simp only [mallocPage, vaddrGet, bind_run, assert_run, get_run] at hrun
  obtain ⟨_, _, ⟨⟨hpos, -⟩, h0⟩, o, s1, ⟨_, _, h1, b, s2, hscan, hget⟩, hrun⟩ := hrun
  cases h0
  cases h1
  have hstate := bitmapScan_state hscan
  dsimp only at hstate
  subst hstate
  have hcnt : 0 < cnt.toNat := UInt32.lt_iff_toNat_lt.mp hpos
  cases b with
  | none =>
    rw [pure_run] at hget
    cases hget
    rw [pure_run] at hrun
    exact .inl hrun
  | some a =>
    right
    have hle := scanInside_run hin hscan
    rw [h.pools.vaddrLen] at hle
    have hclear : ∀ i, a ≤ i → i < a + cnt.toNat → s2.vbit i = false := by
      intro i h1 h2
      have hbit := (bitmapScan_clear hcnt hscan).2 (i - a) (by omega)
      rw [show a + (i - a) = i by omega] at hbit
      exact hbit
    simp only [kernelBitmapSet, bind_run, get_run, assert_run, modify_run, pure_run] at hget
    obtain ⟨_, _, ⟨_, _, h3, _, _, ⟨-, h4⟩, h5⟩, h6⟩ := hget
    cases h3
    cases h4
    cases h5
    cases h6
    simp only [bind_run] at hrun
    obtain ⟨ok, s3, hmap, hrun⟩ := hrun
    have haddr := h.pools.toNat_page (show a ≤ N by omega)
    have hreserve := (h.reserve hclear hle).congr fun i => iff_of_eq (false_or _)
    obtain ⟨hok, hinv, hwithin, hall⟩ := mapPages_run hreserve hle haddr hmap
    dsimp only at hok hinv hwithin hall
    rw [hok, if_pos rfl, pure_run] at hrun
    rw [hrun]
    exact ⟨_, a, rfl, hcnt, hle, haddr, hclear, hinv, hwithin, hall⟩

end Malloc

section Free

theorem kernelBitmapSet_exec {b : Bool}
    (hle : a + n ≤ 8 * (s.kernelVaddr.vaddrBitmap.btmpBytesLen + 1))
    : (kernelBitmapSet a n b).run s = .ok ((), s.setVbits a n b) := by
  unfold kernelBitmapSet
  rw [exec_get_bind, exec_assert_bind, if_pos hle]
  rfl

theorem mfreePage_exec (h : MapInv s N U fun _ => False) (hpos : 0 < cnt.toNat)
    (hle : a + cnt.toNat ≤ N) (hall : ∀ i, a ≤ i → i < a + cnt.toNat → s.Mapped i)
    (hv : v.toNat = 0xc0100000 + 4096 * a)
    : ∃ t, (mfreePage .kernel v cnt).run s = .ok ((), t.setVbits a cnt.toNat false)
        ∧ MapInv (t.setVbits a cnt.toNat false) N U (fun _ => False)
            ∧ Within s t N a cnt.toNat := by
  have hU := h.pools.userBelow
  have hB := h.pools.kernelBelow
  obtain ⟨t, hrun, hinv, hwithin⟩ := unmapPages_exec h hle hall hv
  have hinv' := hinv.congr fun i => iff_of_eq (false_or _)
  obtain ⟨p, j, hv2p, hj, -, hp⟩ :=
    h.addrV2p (show a < N by omega) (hall a (le_refl a) (by omega)) hv
  have hlen := hinv.pools.vaddrLen
  have hassert : 1 ≤ cnt ∧ v % 4096 = 0 := by
    refine ⟨?_, ?_⟩
    . rw [UInt32.le_iff_toNat_le]
      exact hpos
    . rw [← UInt32.toNat_inj, UInt32.toNat_mod, hv]
      show (0xc0100000 + 4096 * a) % 4096 = 0
      omega
  have hlow : p % 4096 = 0 ∧ 0x102000 ≤ p := by
    refine ⟨(h.pools.inPool hj hp).1, ?_⟩
    rw [UInt32.le_iff_toNat_le, hp]
    show 0x102000 ≤ 4096 * (512 + j)
    omega
  have hkernel : ¬ s.userPool.phyAddrStart ≤ p := by
    rw [UInt32.le_iff_toNat_le, h.pools.userStart, hp]
    omega
  have hidx : ((v - t.kernelVaddr.vaddrStart) / 4096).toNat = a := by
    rw [hinv.pools.vaddrStart, UInt32.toNat_div, UInt32.toNat_sub, hv]
    show (2 ^ 32 - 0xc0100000 + (0xc0100000 + 4096 * a)) % 2 ^ 32 / 4096 = a
    omega
  refine ⟨t, ?_, hinv'.release, hwithin⟩
  unfold mfreePage
  rw [exec_assert_bind, if_pos hassert, exec_bind hv2p, exec_assert_bind, if_pos hlow,
    exec_get_bind, if_neg hkernel, exec_bind hrun]
  unfold vaddrRemove
  rw [exec_get_bind]
  dsimp only
  rw [hidx]
  exact kernelBitmapSet_exec (by omega)

theorem MapInv.mapped_of_allocated (h : MapInv s N U fun _ => False) (hall : s.Allocated v cnt)
    : (v.toNat - 0xc0100000) / 4096 + cnt.toNat ≤ N
        ∧ ∀ i, (v.toNat - 0xc0100000) / 4096 ≤ i → i < (v.toNat - 0xc0100000) / 4096 + cnt.toNat
            → s.Mapped i := by
  obtain ⟨-, hle, hbits⟩ := hall
  have hN : s.heapPages = N := h.pools.vaddrLen
  rw [hN] at hle
  refine ⟨hle, ?_⟩
  intro i h1 h2
  generalize (v.toNat - 0xc0100000) / 4096 = a at *
  have hbit := hbits (i - a) (by omega)
  rw [show a + (i - a) = i by omega] at hbit
  exact ((h.bit i (by omega)).mp hbit).resolve_right id

theorem bitmap_eq {b b' : Bitmap} (hlen : b.btmpBytesLen = b'.btmpBytesLen)
    (hbits : b.bits = b'.bits) : b = b' := by
  cases b
  cases b'
  cases hlen
  cases hbits
  rfl

theorem MapInv.restores (h : MapInv s N U fun _ => False) (hm : Malloced s s' N U a cnt.toNat v)
    : ∃ t, (mfreePage .kernel v cnt).run s' = .ok ((), t) ∧ s.SamePages t := by
  obtain ⟨t, hrun, hinv, hwithin⟩ := mfreePage_exec hm.inv hm.pos hm.le hm.mapped hm.addr
  refine ⟨_, hrun, ?_⟩
  have hvaddr : t.kernelVaddr = (s.setVbits a cnt.toNat true).kernelVaddr :=
    hwithin.vaddr.trans hm.within.vaddr
  have hentry : ∀ i, i < a ∨ a + cnt.toNat ≤ i → t.kpte (256 + i) = s.kpte (256 + i) := by
    intro i hi
    exact (hwithin.entries i hi).trans (hm.within.entries i hi)
  -- the pages of the range are mapped neither before nor afterwards
  have hout : ∀ i < N, s.Mapped i → i < a ∨ a + cnt.toNat ≤ i := by
    intro i hi hmap
    by_contra hin
    have hset := (h.bit i hi).mpr (.inl hmap)
    rw [hm.clear i (by omega) (by omega)] at hset
    contradiction
  have hout' : ∀ i < N, (t.setVbits a cnt.toNat false).Mapped i → i < a ∨ a + cnt.toNat ≤ i := by
    intro i hi hmap
    by_contra hin
    have hset := (hinv.bit i hi).mpr (.inl hmap)
    rw [vbit_setVbits, if_pos (by omega)] at hset
    contradiction
  have hmapped : ∀ i < N, (t.setVbits a cnt.toNat false).Mapped i ↔ s.Mapped i := by
    intro i hi
    constructor
    . intro hmap
      unfold Mapped at *
      rw [← hentry i (hout' i hi hmap)]
      exact hmap
    . intro hmap
      have heq := hentry i (hout i hi hmap)
      unfold Mapped at *
      rw [← heq] at hmap
      exact hmap
  refine ⟨?_, ?_, ?_⟩
  . have hbits : t.kernelPool.poolBitmap.bits = s.kernelPool.poolBitmap.bits := by
      apply Mem.eq_of_bits
      intro j
      by_cases hj : j < N
      . rw [Bool.eq_iff_iff]
        constructor
        . intro hbit
          obtain ⟨i, hi, hmap, hframe⟩ := hinv.owned j hj hbit
          have heq := hentry i (hout' i hi hmap)
          obtain ⟨q, -, hq, hbitq⟩ := h.frame i hi ((hmapped i hi).mp hmap)
          have hframe' : s.heapFrame i = 512 + j := by
            unfold heapFrame at *
            rw [← heq]
            exact hframe
          rw [show j = q by omega]
          exact hbitq
        . intro hbit
          obtain ⟨i, hi, hmap, hframe⟩ := h.owned j hj hbit
          have heq := hentry i (hout i hi hmap)
          obtain ⟨q, -, hq, hbitq⟩ := hinv.frame i hi ((hmapped i hi).mpr hmap)
          have hframe' : t.heapFrame i = 512 + j := by
            unfold heapFrame at *
            rw [heq]
            exact hframe
          have hq' : t.heapFrame i = 512 + q := hq
          rw [show j = q by omega]
          exact hbitq
      . exact (hwithin.tail j (by omega)).trans (hm.within.tail j (by omega))
    have hlen : t.kernelPool.poolBitmap.btmpBytesLen = s.kernelPool.poolBitmap.btmpBytesLen := by
      have h1 : 8 * t.kernelPool.poolBitmap.btmpBytesLen = N := hinv.pools.kernelLen
      have h2 := h.pools.kernelLen
      omega
    exact bitmap_eq hlen hbits
  . have hbits : (t.setVbits a cnt.toNat false).kernelVaddr.vaddrBitmap.bits
        = s.kernelVaddr.vaddrBitmap.bits := by
      apply Mem.eq_of_bits
      intro i
      apply vbit_setVbits.trans
      split
      . next hin => exact (hm.clear i hin.1 hin.2).symm
      . next hnot =>
        unfold vbit
        rw [hvaddr]
        exact vbit_setVbits.trans (if_neg hnot)
    refine bitmap_eq ?_ hbits
    show t.kernelVaddr.vaddrBitmap.btmpBytesLen = _
    rw [hvaddr]
    rfl
  . have hN : s.heapPages = N := h.pools.vaddrLen
    rw [hN]
    intro i hi
    rw [hinv.present_iff hi, h.present_iff hi]
    exact hmapped i hi

end Free

section Run

theorem kernelFreePages_lt : (kernelFreePages allMem).toNat < 32768 := by
  have h := (((allMem - (4096 * 256 + 0x100000)) / 4096).toUInt16).toNat_lt
  unfold kernelFreePages
  rw [UInt16.toNat_div]
  show _ / 2 < _
  omega

theorem mapInv_memPoolInit (h : s.Boot allMem)
    : MapInv (memPoolInit allMem s) (8 * (kernelFreePages allMem / 8).toNat)
        (512 + (kernelFreePages allMem).toNat)
        fun _ => False := by
  have hlt := @kernelFreePages_lt allMem
  have hdiv : (kernelFreePages allMem / 8).toNat = (kernelFreePages allMem).toNat / 8 :=
    UInt16.toNat_div ..
  have hframe : Mmu.frame s.cr3 = 0x100 := by
    rw [h.cr3]
    rfl
  have hempty : ∀ i < 8 * (kernelFreePages allMem / 8).toNat, ¬ (memPoolInit allMem s).Mapped i :=
    h.empty
  have hclear : ∀ {len : Nat} {bits : Mem} {i : Nat}, i < 8 * len → (initBitmap len bits).bits.bit i
      = false := by
    intro len bits i hi
    have hbyte : (initBitmap len bits).bits (i / 8) = 0 := Mem.blit_of_mem (by omega) (by omega)
    unfold Mem.bit
    rw [hbyte]
    exact Nat.zero_testBit _
  refine ⟨⟨rfl, rfl, ?_, by omega, by omega, ?_, rfl, rfl⟩, ?_, ?_, ?_, fun _ hf => hf.elim, ?_, ?_,
    ?_⟩
  . show ((0x200000 : UInt32) + (kernelFreePages allMem).toUInt32 * 4096).toNat = _
    rw [UInt32.toNat_add, UInt32.toNat_mul, UInt16.toNat_toUInt32]
    show (0x200000 + (kernelFreePages allMem).toNat * 4096 % 2 ^ 32) % 2 ^ 32 = _
    omega
  . have huser := (userFreePages allMem).toNat_lt
    show 8 * (userFreePages allMem / 8).toNat ≤ _
    rw [UInt16.toNat_div]
    show 8 * ((userFreePages allMem).toNat / 8) ≤ _
    omega
  . show KernelDir s.phys (Mmu.frame s.cr3)
    rw [hframe]
    exact h.dir
  . left
    show Mmu.frame s.cr3 < _
    rw [hframe]
    omega
  . intro i hi
    apply iff_of_false
    . rw [Bool.not_eq_true]
      exact hclear hi
    . rintro (hmap | hf)
      . exact hempty i hi hmap
      . exact hf
  . intro i hi hmap
    exact absurd hmap (hempty i hi)
  . intro i hi _ _ hmap
    exact absurd hmap (hempty i hi)
  . intro j hj hbit
    have hno : (memPoolInit allMem s).pbit j = false := hclear hj
    rw [hno] at hbit
    contradiction

theorem MapInv.step {o : PageOp} {r : Option UInt32 × Paging} (h : MapInv s N U fun _ => False)
    (ha : s.Allowed o) (hrun : (pageOp o).run s = .ok r) : MapInv r.2 N U fun _ => False := by
  cases o with
  | malloc cnt =>
    obtain rfl | ⟨v, a, -, hm⟩ := mallocPage_run h ha hrun
    . exact h
    . exact hm.inv
  | mfree v cnt =>
    simp only [pageOp, bind_run, pure_run] at hrun
    obtain ⟨_, t, hfree, rfl⟩ := hrun
    obtain ⟨hle, hall⟩ := h.mapped_of_allocated ha
    have hassert := hfree
    simp only [mfreePage, bind_run, assert_run] at hassert
    obtain ⟨_, _, ⟨⟨hpos, hmod⟩, -⟩, -⟩ := hassert
    have hmod' := congrArg UInt32.toNat hmod
    rw [UInt32.toNat_mod] at hmod'
    have haddr : v.toNat = 0xc0100000 + 4096 * ((v.toNat - 0xc0100000) / 4096) := by
      have hge : 0xc0100000 ≤ v.toNat := UInt32.le_iff_toNat_le.mp ha.1
      change v.toNat % 4096 = 0 at hmod'
      omega
    obtain ⟨t', hexec, hinv, -⟩ := mfreePage_exec h (UInt32.le_iff_toNat_le.mp hpos) hle hall haddr
    rw [hexec] at hfree
    cases hfree
    exact hinv

theorem mapInv_of_reach (hboot : s.Boot allMem)
    (hreach : Reach pageOp Allowed (memPoolInit allMem s) s')
    : MapInv s' (8 * (kernelFreePages allMem / 8).toNat) (512 + (kernelFreePages allMem).toNat)
        fun _ => False := by
  apply Reach.invariant (P := fun s => MapInv s _ _ fun _ =>
    False) _ (mapInv_memPoolInit hboot) hreach
  intro s o a s' h hg hrun
  exact h.step hg hrun

end Run

end Paging

open Paging

variable {s s' : Paging} {allMem : UInt32}

/--
The pages of the kernel heap are mapped as the bitmaps say, and freeing what was just allocated
leaves no trace.
-/
theorem page_map_exact (hboot : s.Boot allMem)
    (hreach : Reach pageOp Allowed (memPoolInit allMem s) s')
    : s'.Exact
        ∧ ∀ pgCnt v t, s'.Allowed (.malloc pgCnt) → (Paging.mallocPage .kernel pgCnt).run s'
            = .ok (some v, t) →
          ∃ t', (Paging.mfreePage .kernel v pgCnt).run t = .ok ((), t') ∧ s'.SamePages t' := by
  have hinv := mapInv_of_reach hboot hreach
  refine ⟨hinv.exact, ?_⟩
  intro pgCnt v t ha hrun
  obtain hnone | ⟨w, a, hw, hm⟩ := mallocPage_run hinv ha hrun
  . cases hnone
  . cases hw
    exact hinv.restores hm

section Boot32

def bootPaging : Paging where
  phys := Mem.ofWords (tableWords 0x100 0)
  cr3 := 0x100000
  kernelPool := ⟨⟨0, Mem.zero⟩, 0⟩
  userPool := ⟨⟨0, Mem.zero⟩, 0⟩
  kernelVaddr := ⟨⟨0, Mem.zero⟩, 0⟩
  cur := ⟨0, 0, 0, 0⟩

theorem boot_bootPaging : bootPaging.Boot 0x2000000 where
  cr3 := rfl
  dir := kernelDir_tableWords (.inl rfl) (by decide)
  empty := by
    intro i hi
    have hi' : i < 3840 := hi
    have hentry : bootPaging.kpte (256 + i) = 0 := by
      apply entry_ofWords.trans
      unfold tableWords
      rw [if_neg (by omega), if_pos (by omega)]
      unfold kernelWord
      rw [if_neg (by omega), if_neg (by omega)]
    unfold Mapped
    rw [hentry]
    decide

def mallocTwice : List PageOp := [.malloc 3, .malloc 1, .mfree 0xc0100000 3]

instance allowedDecidable (s : Paging) : (o : PageOp) → Decidable (s.Allowed o)
  | .malloc _ => inferInstanceAs (Decidable (_ = true))
  | .mfree _ _ => inferInstanceAs (Decidable (_ ∧ _ ∧ _))

theorem page_map_exact_mallocTwice
    : (afterAll pageOp mallocTwice (memPoolInit 0x2000000 bootPaging)).Exact :=
  (page_map_exact boot_bootPaging (reach_of_returnsWhile (k := fun s o => decide (s.Allowed o))
    (fun _ _ _ h => of_decide_eq_true h) (by decide +kernel))).1

end Boot32

end RogOS
