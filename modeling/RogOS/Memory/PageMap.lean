import RogOS.Memory.Lemmas.KernelMap

/-!
The pages of the kernel heap, with `N` pages in each of the two bitmaps: which are mapped, and to
which frames. The frames of the kernel start at the page 512, those of the users at the page `U`.
-/

namespace RogOS

namespace Paging

open Cmd

structure Pools (s : Paging) (N U : Nat) : Prop where
  kernelStart : s.kernelPool.phyAddrStart = 0x200000
  kernelLen : 8 * s.kernelPool.poolBitmap.btmpBytesLen = N
  userStart : s.userPool.phyAddrStart.toNat = 4096 * U
  kernelBelow : 512 + N ≤ U
  userBelow : U < 131072
  userLen : 8 * s.userPool.poolBitmap.btmpBytesLen ≤ 65536
  vaddrStart : s.kernelVaddr.vaddrStart = 0xc0100000
  vaddrLen : 8 * s.kernelVaddr.vaddrBitmap.btmpBytesLen = N

def vbit (s : Paging) (i : Nat) : Bool := s.kernelVaddr.vaddrBitmap.bits.bit i

def pbit (s : Paging) (j : Nat) : Bool := s.kernelPool.poolBitmap.bits.bit j

def Mapped (s : Paging) (i : Nat) : Prop := Mmu.present (s.kpte (256 + i)) = true

def heapFrame (s : Paging) (i : Nat) : Nat := Mmu.frame (s.kpte (256 + i))

def setPbit (s : Paging) (j : Nat) (v : Bool) : Paging :=
  { s with kernelPool.poolBitmap.bits := s.kernelPool.poolBitmap.bits.setBit j v }

def setVbits (s : Paging) (a n : Nat) (v : Bool) : Paging :=
  { s with kernelVaddr.vaddrBitmap.bits := s.kernelVaddr.vaddrBitmap.bits.setBits a v n }

variable {s s' : Paging} {N U a n i j : Nat} {v p : UInt32} {pend : Nat → Prop}

section Fields

theorem pbit_setPbit {b : Bool} {l : Nat}
    : (s.setPbit j b).pbit l = if j = l then b else s.pbit l := Mem.bit_setBit b

theorem vbit_setVbits {b : Bool}
    : (s.setVbits a n b).vbit i = if a ≤ i ∧ i < a + n then b else s.vbit i :=
  Mem.bit_setBits

theorem Pools.setPbit {b : Bool} (h : s.Pools N U) : (s.setPbit j b).Pools N U :=
  ⟨h.kernelStart, h.kernelLen, h.userStart, h.kernelBelow, h.userBelow, h.userLen, h.vaddrStart,
    h.vaddrLen⟩

theorem Pools.setVbits {b : Bool} (h : s.Pools N U) : (s.setVbits a n b).Pools N U :=
  ⟨h.kernelStart, h.kernelLen, h.userStart, h.kernelBelow, h.userBelow, h.userLen, h.vaddrStart,
    h.vaddrLen⟩

theorem Pools.setPhys {m : Mem} (h : s.Pools N U) : (s.setPhys m).Pools N U :=
  ⟨h.kernelStart, h.kernelLen, h.userStart, h.kernelBelow, h.userBelow, h.userLen, h.vaddrStart,
    h.vaddrLen⟩

theorem Pools.toNat_frame (h : s.Pools N U) (hj : j < N)
    : (s.kernelPool.phyAddrStart + UInt32.ofNat j * 4096).toNat = 4096 * (512 + j) := by
  have hle := h.kernelBelow
  have hlt := h.userBelow
  rw [h.kernelStart, UInt32.toNat_add, UInt32.toNat_mul, UInt32.toNat_ofNat']
  show (0x200000 + j % 2 ^ 32 * 4096 % 2 ^ 32) % 2 ^ 32 = _
  omega

theorem Pools.toNat_page (h : s.Pools N U) (ha : a ≤ N)
    : (s.kernelVaddr.vaddrStart + UInt32.ofNat a * 4096).toNat = 0xc0100000 + 4096 * a := by
  have hle := h.kernelBelow
  have hlt := h.userBelow
  rw [h.vaddrStart, UInt32.toNat_add, UInt32.toNat_mul, UInt32.toNat_ofNat']
  show (0xc0100000 + a % 2 ^ 32 * 4096 % 2 ^ 32) % 2 ^ 32 = _
  omega

end Fields

/--
The bitmaps agree with the tables. `pend` are the pages whose bits are set although they are not
mapped: not yet, or not any more.
-/
structure MapInv (s : Paging) (N U : Nat) (pend : Nat → Prop) : Prop where
  pools : s.Pools N U
  dir : KernelDir s.phys (Mmu.frame s.cr3)
  apart : Mmu.frame s.cr3 < 0x101 ∨ 0x200 ≤ Mmu.frame s.cr3
  bit : ∀ i < N, s.vbit i = true ↔ s.Mapped i ∨ pend i
  pending : ∀ i, pend i → ¬ s.Mapped i
  frame : ∀ i < N, s.Mapped i → ∃ j < N, s.heapFrame i = 512 + j ∧ s.pbit j = true
  inj : ∀ i < N, ∀ l < N, s.Mapped i → s.Mapped l → s.heapFrame i = s.heapFrame l → i = l
  owned : ∀ j < N, s.pbit j = true → ∃ i < N, s.Mapped i ∧ s.heapFrame i = 512 + j

section Step

theorem mapped_setKpte_self {w : UInt32}
    : (s.setKpte (256 + i) w).Mapped i ↔ Mmu.present w = true := by
  unfold Mapped
  rw [kpte_setKpte_self]

theorem mapped_setKpte_of_ne {w : UInt32} {l : Nat} (h : l ≠ i)
    : (s.setKpte (256 + i) w).Mapped l ↔ s.Mapped l := by
  unfold Mapped
  rw [kpte_setKpte_of_ne (by omega)]

theorem heapFrame_setKpte_self {w : UInt32}
    : (s.setKpte (256 + i) w).heapFrame i = Mmu.frame w := by
  unfold heapFrame
  rw [kpte_setKpte_self]

theorem heapFrame_setKpte_of_ne {w : UInt32} {l : Nat} (h : l ≠ i)
    : (s.setKpte (256 + i) w).heapFrame l = s.heapFrame l := by
  unfold heapFrame
  rw [kpte_setKpte_of_ne (by omega)]

theorem MapInv.lt (h : MapInv s N U pend) (hi : i < N) : 256 + i < 255 * 1024 := by
  have hle := h.pools.kernelBelow
  have hlt := h.pools.userBelow
  omega

theorem MapInv.dir_setKpte {w : UInt32} (h : MapInv s N U pend) (hi : i < N)
    : KernelDir (s.setKpte (256 + i) w).phys (Mmu.frame s.cr3) := by
  apply h.dir.congr
  intro l _ hl
  exact entry_setKpte (h.lt hi) h.apart hl

theorem MapInv.map {w : UInt32} (h : MapInv s N U pend) (hi : i < N) (hp : pend i) (hj : j < N)
    (hfree : s.pbit j = false) (hw : Mmu.present w = true) (hf : Mmu.frame w = 512 + j)
    : MapInv ((s.setPbit j true).setKpte (256 + i) w) N U (fun l => pend l ∧ l ≠ i) where
  pools := h.pools.setPbit.setPhys
  dir := h.dir_setKpte hi
  apart := h.apart
  bit := by
    intro l hl
    by_cases hli : l = i
    . subst hli
      rw [mapped_setKpte_self]
      exact iff_of_true ((h.bit l hl).mpr (.inr hp)) (.inl hw)
    . rw [mapped_setKpte_of_ne hli]
      apply (h.bit l hl).trans
      exact or_congr Iff.rfl (iff_self_and.mpr fun _ => hli)
  pending := by
    rintro l ⟨hl, hli⟩
    rw [mapped_setKpte_of_ne hli]
    exact h.pending l hl
  frame := by
    intro l hl hmap
    by_cases hli : l = i
    . subst hli
      refine ⟨j, hj, heapFrame_setKpte_self.trans hf, ?_⟩
      exact pbit_setPbit.trans (if_pos rfl)
    . rw [mapped_setKpte_of_ne hli] at hmap
      obtain ⟨q, hq, hfr, hbit⟩ := h.frame l hl hmap
      refine ⟨q, hq, (heapFrame_setKpte_of_ne hli).trans hfr, ?_⟩
      apply pbit_setPbit.trans
      split
      . rfl
      . exact hbit
  inj := by
    -- the frame was free, so that no other page has it
    have hfresh : ∀ l < N, l ≠ i → ((s.setPbit j true).setKpte (256 + i) w).Mapped l →
        ((s.setPbit j true).setKpte (256 + i) w).heapFrame l ≠ 512 + j := by
      intro l hl hli hmap heq
      rw [mapped_setKpte_of_ne hli] at hmap
      rw [heapFrame_setKpte_of_ne hli] at heq
      obtain ⟨q, -, hfr, hbit⟩ := h.frame l hl hmap
      have hjq : j = q := by
        have : s.heapFrame l = 512 + j := heq
        omega
      rw [← hjq, hfree] at hbit
      contradiction
    intro l hl q hq hml hmq heq
    by_cases hli : l = i
    . by_cases hqi : q = i
      . rw [hli, hqi]
      . subst hli
        rw [heapFrame_setKpte_self, hf] at heq
        exact absurd heq.symm (hfresh q hq hqi hmq)
    . by_cases hqi : q = i
      . subst hqi
        rw [heapFrame_setKpte_self, hf] at heq
        exact absurd heq (hfresh l hl hli hml)
      . rw [mapped_setKpte_of_ne hli] at hml
        rw [mapped_setKpte_of_ne hqi] at hmq
        rw [heapFrame_setKpte_of_ne hli, heapFrame_setKpte_of_ne hqi] at heq
        exact h.inj l hl q hq hml hmq heq
  owned := by
    intro q hq hbit
    have hbit' : (if j = q then true else s.pbit q) = true := pbit_setPbit.symm.trans hbit
    by_cases hjq : j = q
    . subst hjq
      exact ⟨i, hi, mapped_setKpte_self.mpr hw, heapFrame_setKpte_self.trans hf⟩
    . rw [if_neg hjq] at hbit'
      obtain ⟨l, hl, hmap, hfr⟩ := h.owned q hq hbit'
      have hli : l ≠ i := by
        rintro rfl
        exact h.pending l hp hmap
      exact ⟨l, hl, (mapped_setKpte_of_ne hli).mpr hmap, (heapFrame_setKpte_of_ne hli).trans hfr⟩

theorem MapInv.unmap {w : UInt32} (h : MapInv s N U pend) (hi : i < N) (hmap : s.Mapped i)
    (hj : s.heapFrame i = 512 + j) (hw : Mmu.present w = false)
    : MapInv ((s.setPbit j false).setKpte (256 + i) w) N U (fun l => pend l ∨ l = i) where
  pools := h.pools.setPbit.setPhys
  dir := h.dir_setKpte hi
  apart := h.apart
  bit := by
    intro l hl
    by_cases hli : l = i
    . subst hli
      exact iff_of_true ((h.bit l hl).mpr (.inl hmap)) (.inr (.inr rfl))
    . rw [mapped_setKpte_of_ne hli]
      apply (h.bit l hl).trans
      exact or_congr Iff.rfl ⟨.inl, fun hor => hor.resolve_right hli⟩
  pending := by
    intro l hl
    by_cases hli : l = i
    . subst hli
      rw [mapped_setKpte_self, hw]
      exact Bool.false_ne_true
    . rw [mapped_setKpte_of_ne hli]
      exact h.pending l (hl.resolve_right hli)
  frame := by
    intro l hl hml
    have hli : l ≠ i := by
      rintro rfl
      rw [mapped_setKpte_self, hw] at hml
      contradiction
    rw [mapped_setKpte_of_ne hli] at hml
    obtain ⟨q, hq, hfr, hbit⟩ := h.frame l hl hml
    refine ⟨q, hq, (heapFrame_setKpte_of_ne hli).trans hfr, ?_⟩
    apply pbit_setPbit.trans
    rw [if_neg]
    . exact hbit
    . rintro rfl
      exact hli (h.inj l hl i hi hml hmap (hfr.trans hj.symm))
  inj := by
    intro l hl q hq hml hmq heq
    have hne : ∀ l, ((s.setPbit j false).setKpte (256 + i) w).Mapped l → l ≠ i := by
      rintro l hml rfl
      rw [mapped_setKpte_self, hw] at hml
      contradiction
    have hli := hne l hml
    have hqi := hne q hmq
    rw [mapped_setKpte_of_ne hli] at hml
    rw [mapped_setKpte_of_ne hqi] at hmq
    rw [heapFrame_setKpte_of_ne hli, heapFrame_setKpte_of_ne hqi] at heq
    exact h.inj l hl q hq hml hmq heq
  owned := by
    intro q hq hbit
    have hbit' : (if j = q then false else s.pbit q) = true := pbit_setPbit.symm.trans hbit
    by_cases hjq : j = q
    . rw [if_pos hjq] at hbit'
      contradiction
    . rw [if_neg hjq] at hbit'
      obtain ⟨l, hl, hml, hfr⟩ := h.owned q hq hbit'
      have hli : l ≠ i := by
        rintro rfl
        omega
      exact ⟨l, hl, (mapped_setKpte_of_ne hli).mpr hml, (heapFrame_setKpte_of_ne hli).trans hfr⟩

theorem MapInv.reserve (h : MapInv s N U pend) (hclear : ∀ i, a ≤ i → i < a + n → s.vbit i = false)
    (hle : a + n ≤ N)
    : MapInv (s.setVbits a n true) N U (fun i => pend i ∨ (a ≤ i ∧ i < a + n)) where
  pools := h.pools.setVbits
  dir := h.dir
  apart := h.apart
  bit := by
    intro i hi
    rw [vbit_setVbits]
    split
    . next hin => exact iff_of_true rfl (.inr (.inr hin))
    . next hout =>
      apply (h.bit i hi).trans
      exact or_congr Iff.rfl ⟨.inl, fun hor => hor.resolve_right hout⟩
  pending := by
    rintro i (hp | ⟨h1, h2⟩)
    . exact h.pending i hp
    . intro hmap
      have hset := (h.bit i (by omega)).mpr (.inl hmap)
      rw [hclear i h1 h2] at hset
      contradiction
  frame := h.frame
  inj := h.inj
  owned := h.owned

theorem MapInv.release (h : MapInv s N U fun i => a ≤ i ∧ i < a + n)
    : MapInv (s.setVbits a n false) N U fun _ => False where
  pools := h.pools.setVbits
  dir := h.dir
  apart := h.apart
  bit := by
    intro i hi
    rw [vbit_setVbits]
    split
    . next hin => exact iff_of_false Bool.false_ne_true fun hor => hor.elim (h.pending i hin) id
    . next hout =>
      apply (h.bit i hi).trans
      exact or_congr Iff.rfl (iff_of_false hout id)
  pending := fun _ hf => hf.elim
  frame := h.frame
  inj := h.inj
  owned := h.owned

theorem MapInv.congr {pend' : Nat → Prop} (h : MapInv s N U pend) (heq : ∀ i, pend i ↔ pend' i)
    : MapInv s N U pend' := by
  have hfun : pend = pend' := funext fun i => propext (heq i)
  rw [← hfun]
  exact h

end Step

structure Within (s s' : Paging) (N a n : Nat) : Prop where
  vaddr : s'.kernelVaddr = s.kernelVaddr
  entries : ∀ i, i < a ∨ a + n ≤ i → s'.kpte (256 + i) = s.kpte (256 + i)
  tail : ∀ j, N ≤ j → s'.pbit j = s.pbit j

theorem Within.refl : Within s s N a n := ⟨rfl, fun _ _ => rfl, fun _ _ => rfl⟩

theorem Within.trans {t : Paging} {b m : Nat} (h : Within s s' N a n) (h' : Within s' t N b m)
    (hab : a ≤ b) (hle : b + m ≤ a + n) : Within s t N a n where
  vaddr := h'.vaddr.trans h.vaddr
  entries := by
    intro i hi
    exact (h'.entries i (by omega)).trans (h.entries i hi)
  tail := by
    intro j hj
    exact (h'.tail j hj).trans (h.tail j hj)

theorem Within.step {b : Bool} {w : UInt32} (hj : j < N) (hn : 0 < n)
    : Within s ((s.setPbit j b).setKpte (256 + a) w) N a n where
  vaddr := rfl
  entries := by
    intro i hi
    exact kpte_setKpte_of_ne (by omega)
  tail := by
    intro q hq
    apply pbit_setPbit.trans
    rw [if_neg (by omega)]

section Loops

theorem toNat_next_page (ha : a < 131072) (hv : v.toNat = 0xc0100000 + 4096 * a)
    : (v + 4096).toNat = 0xc0100000 + 4096 * (a + 1) := by
  rw [UInt32.toNat_add, hv]
  show (0xc0100000 + 4096 * a + 4096) % 2 ^ 32 = _
  omega

theorem mapPages_run {r : Bool × Paging} (h : MapInv s N U fun i => a ≤ i ∧ i < a + n)
    (hle : a + n ≤ N) (hv : v.toNat = 0xc0100000 + 4096 * a)
    (hrun : (mapPages .kernel n v).run s = .ok r)
    : r.1 = true ∧ MapInv r.2 N U (fun _ => False) ∧ Within s r.2 N a n
        ∧ ∀ i, a ≤ i → i < a + n → r.2.Mapped i := by
  induction n generalizing a v s with
  | zero =>
    rw [mapPages, pure_run] at hrun
    rw [hrun]
    refine ⟨rfl, h.congr fun i => iff_of_false (by omega) id, .refl, ?_⟩
    intro i h1 h2
    omega
  | succ n ih =>
    have hU := h.pools.userBelow
    have hB := h.pools.kernelBelow
    simp only [mapPages, bind_run] at hrun
    obtain ⟨_, s1, halloc, hrun⟩ := hrun
    obtain ⟨j, hfree, hr⟩ := palloc_run halloc
    cases hr
    have hj : j < N := by
      have hlt := hfree.lt
      have hlen := h.pools.kernelLen
      change j < 8 * s.kernelPool.poolBitmap.btmpBytesLen at hlt
      omega
    have hframe := h.pools.toNat_frame hj
    simp only [bind_run] at hrun
    obtain ⟨_, s2, hadd, hrun⟩ := hrun
    have hpage : v.toNat / 4096 = 0xc0000 + (256 + a) := by omega
    obtain ⟨-, hs2⟩ := pageTableAdd_kernel (show KernelDir (s.setPbit j true).phys _ from h.dir)
      (h.lt (by omega)) hpage hadd
    dsimp only at hs2
    have hmod : (s.kernelPool.phyAddrStart + UInt32.ofNat j * 4096).toNat % 4096 = 0 := by omega
    have hmap := h.map (show a < N by omega) ⟨le_refl a, by omega⟩ hj hfree.clear
      (Mmu.present_or_flags hmod)
      ((Mmu.frame_or_flags hmod).trans (by omega))
    have hstep : Within s ((s.setPbit j true).setKpte (256 + a)
        (s.kernelPool.phyAddrStart + UInt32.ofNat j * 4096 ||| 7)) N a (n + 1) :=
          .step hj (by omega)
    have hself : ((s.setPbit j true).setKpte (256 + a)
        (s.kernelPool.phyAddrStart + UInt32.ofNat j * 4096 ||| 7)).Mapped a :=
      mapped_setKpte_self.mpr (Mmu.present_or_flags hmod)
    change s2 = (s.setPbit j true).setKpte (256 + a)
      (s.kernelPool.phyAddrStart + UInt32.ofNat j * 4096 ||| 7) at hs2
    rw [← hs2] at hmap hstep hself
    obtain ⟨hok, hinv, hwithin, hall⟩ := ih (hmap.congr fun i => by omega) (by omega)
      (toNat_next_page (by omega) hv) hrun
    refine ⟨hok, hinv, hstep.trans hwithin (by omega) (by omega), ?_⟩
    intro i h1 h2
    by_cases hi : i = a
    . subst hi
      unfold Mapped
      rw [hwithin.entries i (by omega)]
      exact hself
    . exact hall i (by omega) (by omega)

theorem pfree_kernel (h : s.Pools N U) (hj : j < N) (hp : p.toNat = 4096 * (512 + j))
    : (pfree p).run s = .ok ((), s.setPbit j false) := by
  have hle := h.kernelBelow
  have hlen := h.kernelLen
  have hnot : ¬ s.userPool.phyAddrStart ≤ p := by
    rw [UInt32.le_iff_toNat_le, h.userStart, hp]
    omega
  have hidx : ((p - s.kernelPool.phyAddrStart) / 4096).toNat = j := by
    have hp' := p.toNat_lt
    rw [h.kernelStart, UInt32.toNat_div, UInt32.toNat_sub, hp]
    show (2 ^ 32 - 0x200000 + 4096 * (512 + j)) % 2 ^ 32 / 4096 = j
    omega
  unfold pfree
  rw [exec_get_bind]
  dsimp only
  rw [if_neg hnot]
  change (bitmapSet s.kernelPool.poolBitmap ((p - s.kernelPool.phyAddrStart) / 4096).toNat false
    >>= _).run s = _
  rw [hidx, exec_bind (bitmapSet_exec (by omega))]
  rfl

theorem MapInv.addrV2p (h : MapInv s N U pend) (hi : i < N) (hmap : s.Mapped i)
    (hv : v.toNat = 0xc0100000 + 4096 * i)
    : ∃ p j, (Paging.addrV2p v).run s = .ok (p, s) ∧ j < N ∧ s.heapFrame i = 512 + j
        ∧ p.toNat = 4096 * (512 + j) := by
  have hU := h.pools.userBelow
  have hB := h.pools.kernelBelow
  obtain ⟨j, hj, hframe, -⟩ := h.frame i hi hmap
  refine ⟨_, j, addrV2p_exec h.dir (h.lt hi) (show v.toNat / 4096 = 0xc0000 + (256 + i) by omega),
    hj, hframe, ?_⟩
  unfold heapFrame at hframe
  rw [UInt32.toNat_add, Mmu.toNat_and_mask, Mmu.toNat_and_offset, hframe]
  omega

theorem Pools.inPool (h : s.Pools N U) (hj : j < N) (hp : p.toNat = 4096 * (512 + j))
    : s.InPool .kernel p := by
  have hle := h.kernelBelow
  refine ⟨?_, ?_, ?_⟩
  . rw [← UInt32.toNat_inj, UInt32.toNat_mod, hp]
    show 4096 * (512 + j) % 4096 = 0
    omega
  . rw [UInt32.le_iff_toNat_le, h.kernelStart, hp]
    show 0x200000 ≤ _
    omega
  . rw [UInt32.lt_iff_toNat_lt, h.userStart, hp]
    omega

theorem unmapPages_exec (h : MapInv s N U pend) (hle : a + n ≤ N)
    (hall : ∀ i, a ≤ i → i < a + n → s.Mapped i) (hv : v.toNat = 0xc0100000 + 4096 * a)
    : ∃ t, (unmapPages .kernel n v).run s = .ok ((), t)
        ∧ MapInv t N U (fun i => pend i ∨ (a ≤ i ∧ i < a + n))
        ∧ Within s t N a n := by
  induction n generalizing a v s pend with
  | zero =>
    exact ⟨s, rfl, h.congr fun i => ⟨.inl, fun hor => hor.resolve_right (by omega)⟩, .refl⟩
  | succ n ih =>
    have hU := h.pools.userBelow
    have hB := h.pools.kernelBelow
    have ha : a < N := by omega
    have hmapped := hall a (le_refl a) (by omega)
    obtain ⟨p, j, hv2p, hj, hframe, hp⟩ := h.addrV2p ha hmapped hv
    have hdir : KernelDir (s.setPbit j false).phys (Mmu.frame (s.setPbit j false).cr3) := h.dir
    have hpage : v.toNat / 4096 = 0xc0000 + (256 + a) := by omega
    have hstep : Within s ((s.setPbit j false).setKpte (256 + a) (s.kpte (256 + a) &&& ~~~1)) N a
        (n + 1) :=
      .step hj (by omega)
    obtain ⟨t, hrun, hinv, hwithin⟩ :=
      ih (h.unmap ha hmapped hframe Mmu.present_clear) (show a + 1 + n ≤ N by omega) (by
      intro i h1 h2
      rw [mapped_setKpte_of_ne (by omega)]
      exact hall i (by omega) (by omega)) (toNat_next_page (by omega) hv)
    have hpend : ∀ i, (pend i ∨ i = a) ∨ (a + 1 ≤ i ∧ i < a + 1 + n) ↔ pend i
        ∨ (a ≤ i ∧ i < a + (n + 1)) := by
      intro i
      rw [or_assoc]
      apply or_congr Iff.rfl
      omega
    refine ⟨t, ?_, hinv.congr hpend, hstep.trans hwithin (by omega) (by omega)⟩
    unfold unmapPages
    rw [exec_bind hv2p, exec_get_bind, exec_assert_bind, if_pos (h.pools.inPool hj hp),
      exec_bind (pfree_kernel h.pools hj hp),
      exec_bind (pageTablePteRemove_exec hdir (h.lt ha) hpage)]
    exact hrun

end Loops

end Paging

end RogOS
