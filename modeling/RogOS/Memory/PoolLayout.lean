import Mathlib.Data.Finset.Card
import Mathlib.Order.Interval.Finset.Nat
import RogOS.Memory.PageMap

/-!
Where `mem_pool_init` puts the pools of frames and their bitmaps, and how much of the memory they
cover.
-/

namespace RogOS

open Cmd

structure BitmapAt where
  bits : UInt32
  btmpBytesLen : UInt32

structure PoolAt where
  poolBitmap : BitmapAt
  phyAddrStart : UInt32
  poolSize : UInt32

structure PoolLayout where
  kernelPool : PoolAt
  userPool : PoolAt
  vaddrBitmap : BitmapAt
  vaddrStart : UInt32

def memBitmapBase : UInt32 := 0xc009a000

def memPoolLayout (allMem : UInt32) : PoolLayout :=
  let pageTableSize : UInt32 := 4096 * 256
  let usedMem := pageTableSize + 0x100000
  let freeMem := allMem - usedMem
  let allFreePages : UInt16 := (freeMem / 4096).toUInt16
  let kernelFreePages := allFreePages / 2
  let userFreePages := allFreePages - kernelFreePages
  let kbmLength : UInt32 := (kernelFreePages / 8).toUInt32
  let ubmLength : UInt32 := (userFreePages / 8).toUInt32
  let kpStart := usedMem
  let upStart := kpStart + kernelFreePages.toUInt32 * 4096
  { kernelPool := ⟨⟨memBitmapBase, kbmLength⟩, kpStart, kernelFreePages.toUInt32 * 4096⟩
    userPool := ⟨⟨memBitmapBase + kbmLength, ubmLength⟩, upStart, userFreePages.toUInt32 * 4096⟩
    vaddrBitmap := ⟨memBitmapBase + kbmLength + ubmLength, kbmLength⟩
    vaddrStart := 0xc0100000 }

def PoolAt.page (p : PoolAt) (i : Nat) : UInt32 := p.phyAddrStart + UInt32.ofNat i * 4096

def PoolAt.Names (p : PoolAt) (a : Nat)
    : Prop := ∃ i < 8 * p.poolBitmap.btmpBytesLen.toNat, (p.page i).toNat = a

instance (p : PoolAt) (a : Nat) : Decidable (p.Names a) := inferInstanceAs (Decidable (∃ i < _, _))

def BitmapAt.stop (b : BitmapAt) : Nat := b.bits.toNat + b.btmpBytesLen.toNat

def freePages (allMem : UInt32) : Nat := (allMem.toNat - 0x200000) / 4096

namespace PoolLayout

def pool (l : PoolLayout) : PoolFlags → PoolAt
  | .kernel => l.kernelPool
  | .user => l.userPool

section Fields

variable {allMem : UInt32} {i : Nat}

theorem toNat_allFreePages (h : 0x200000 ≤ allMem.toNat)
    : (((allMem - (4096 * 256 + 0x100000)) / 4096).toUInt16).toNat = freePages allMem % 65536 := by
  have hsub : (allMem - (4096 * 256 + 0x100000)).toNat = allMem.toNat - 0x200000 :=
    UInt32.toNat_sub_of_le _ _ (UInt32.le_iff_toNat_le.mpr h)
  rw [UInt32.toNat_toUInt16, UInt32.toNat_div, hsub]
  rfl

theorem toNat_kernelFreePages (h : 0x200000 ≤ allMem.toNat)
    : (kernelFreePages allMem).toNat = freePages allMem % 65536 / 2 := by
  unfold kernelFreePages
  rw [UInt16.toNat_div, toNat_allFreePages h]
  rfl

theorem toNat_userFreePages (h : 0x200000 ≤ allMem.toNat)
    : (userFreePages allMem).toNat = freePages allMem % 65536 - freePages allMem % 65536 / 2 := by
  unfold userFreePages
  rw [UInt16.toNat_sub_of_le, toNat_allFreePages h, toNat_kernelFreePages h]
  rw [UInt16.le_iff_toNat_le, toNat_kernelFreePages h, toNat_allFreePages h]
  omega

structure Sizes (l : PoolLayout) (K U : Nat) : Prop where
  kernelStart : l.kernelPool.phyAddrStart.toNat = 0x200000
  userStart : l.userPool.phyAddrStart.toNat = 0x200000 + 4096 * K
  kernelLen : l.kernelPool.poolBitmap.btmpBytesLen.toNat = K / 8
  userLen : l.userPool.poolBitmap.btmpBytesLen.toNat = U / 8
  vaddrLen : l.vaddrBitmap.btmpBytesLen.toNat = K / 8
  kernelBits : l.kernelPool.poolBitmap.bits.toNat = 0xc009a000
  userBits : l.userPool.poolBitmap.bits.toNat = 0xc009a000 + K / 8
  vaddrBits : l.vaddrBitmap.bits.toNat = 0xc009a000 + K / 8 + U / 8
  kernelPages : K < 32768
  userPages : U ≤ 32768

theorem sizes_memPoolLayout (h : 0x200000 ≤ allMem.toNat)
    : (memPoolLayout allMem).Sizes (freePages allMem % 65536 / 2)
        (freePages allMem % 65536 - freePages allMem % 65536 / 2) := by
  have hK := toNat_kernelFreePages h
  have hU := toNat_userFreePages h
  have hkbm : ((kernelFreePages allMem / 8).toUInt32).toNat
      = (kernelFreePages allMem).toNat / 8 := by
    rw [UInt16.toNat_toUInt32, UInt16.toNat_div]
    rfl
  have hubm : ((userFreePages allMem / 8).toUInt32).toNat = (userFreePages allMem).toNat / 8 := by
    rw [UInt16.toNat_toUInt32, UInt16.toNat_div]
    rfl
  rw [← hU, ← hK]
  have hKlt : (kernelFreePages allMem).toNat < 32768 := by omega
  have hUle : (userFreePages allMem).toNat ≤ 32768 := by omega
  refine ⟨rfl, ?_, hkbm, hubm, hkbm, rfl, ?_, ?_, hKlt, hUle⟩
  . show ((0x200000 : UInt32) + (kernelFreePages allMem).toUInt32 * 4096).toNat = _
    rw [UInt32.toNat_add, UInt32.toNat_mul, UInt16.toNat_toUInt32]
    show (0x200000 + (kernelFreePages allMem).toNat * 4096 % 2 ^ 32) % 2 ^ 32 = _
    omega
  . show ((0xc009a000 : UInt32) + (kernelFreePages allMem / 8).toUInt32).toNat = _
    rw [UInt32.toNat_add, hkbm]
    show (0xc009a000 + (kernelFreePages allMem).toNat / 8) % 2 ^ 32 = _
    omega
  . show ((0xc009a000 : UInt32) + (kernelFreePages allMem / 8).toUInt32
        + (userFreePages allMem / 8).toUInt32).toNat = _
    rw [UInt32.toNat_add, UInt32.toNat_add, hkbm, hubm]
    show ((0xc009a000 + (kernelFreePages allMem).toNat / 8) % 2 ^ 32
        + (userFreePages allMem).toNat / 8) % 2 ^ 32 = _
    omega

variable {l : PoolLayout} {K U : Nat} {a : Nat}

theorem Sizes.toNat_kernelPage (h : l.Sizes K U)
    (hi : i < 8 * l.kernelPool.poolBitmap.btmpBytesLen.toNat)
    : (l.kernelPool.page i).toNat = 0x200000 + 4096 * i := by
  have hK := h.kernelPages
  rw [h.kernelLen] at hi
  unfold PoolAt.page
  rw [UInt32.toNat_add, UInt32.toNat_mul, UInt32.toNat_ofNat', h.kernelStart]
  show (0x200000 + i % 2 ^ 32 * 4096 % 2 ^ 32) % 2 ^ 32 = _
  omega

theorem Sizes.toNat_userPage (h : l.Sizes K U)
    (hi : i < 8 * l.userPool.poolBitmap.btmpBytesLen.toNat)
    : (l.userPool.page i).toNat = 0x200000 + 4096 * (K + i) := by
  have hK := h.kernelPages
  have hU := h.userPages
  rw [h.userLen] at hi
  unfold PoolAt.page
  rw [UInt32.toNat_add, UInt32.toNat_mul, UInt32.toNat_ofNat', h.userStart]
  show (0x200000 + 4096 * K + i % 2 ^ 32 * 4096 % 2 ^ 32) % 2 ^ 32 = _
  omega

theorem Sizes.kernelNames_iff (h : l.Sizes K U)
    : l.kernelPool.Names a ↔ ∃ i < 8 * (K / 8), a = 0x200000 + 4096 * i := by
  have hlen := h.kernelLen
  constructor
  . rintro ⟨i, hi, rfl⟩
    exact ⟨i, by omega, h.toNat_kernelPage hi⟩
  . rintro ⟨i, hi, rfl⟩
    rw [← hlen] at hi
    exact ⟨i, hi, h.toNat_kernelPage hi⟩

theorem Sizes.userNames_iff (h : l.Sizes K U)
    : l.userPool.Names a ↔ ∃ i < 8 * (U / 8), a = 0x200000 + 4096 * (K + i) := by
  have hlen := h.userLen
  constructor
  . rintro ⟨i, hi, rfl⟩
    exact ⟨i, by omega, h.toNat_userPage hi⟩
  . rintro ⟨i, hi, rfl⟩
    rw [← hlen] at hi
    exact ⟨i, hi, h.toNat_userPage hi⟩

end Fields

end PoolLayout

namespace Paging

def Laid (s : Paging) (l : PoolLayout) : Prop :=
  ∀ pf, (s.pool pf).phyAddrStart = (l.pool pf).phyAddrStart
    ∧ (s.pool pf).poolBitmap.btmpBytesLen = (l.pool pf).poolBitmap.btmpBytesLen.toNat

end Paging

structure SafePools (allMem : UInt32) (l : PoolLayout) : Prop where
  inside : ∀ pf a, (l.pool pf).Names a → 0x200000 ≤ a ∧ a + 4096 ≤ allMem.toNat
  apart : ∀ a, l.kernelPool.Names a → ¬ l.userPool.Names a
  palloc : ∀ (s : Paging) pf r, s.Laid l → (Paging.palloc pf).run s = .ok r →
    r.2.Laid l ∧ ∃ a, r.1 = some a ∧ (l.pool pf).Names a.toNat
  pfree : ∀ (s : Paging) pf i, s.Laid l → i < 8 * (l.pool pf).poolBitmap.btmpBytesLen.toNat →
    (Paging.pfree ((l.pool pf).page i)).run s = .ok ((), s.setPoolBit pf i false)
  kernelBitmap : l.kernelPool.poolBitmap.stop ≤ l.userPool.poolBitmap.bits.toNat
  userBitmap : l.userPool.poolBitmap.stop ≤ l.vaddrBitmap.bits.toNat
  belowPcb : l.vaddrBitmap.stop ≤ 0xc009e000

namespace Paging

variable {s : Paging} {l : PoolLayout} {K U i : Nat} {pf : PoolFlags} {allMem : UInt32}

theorem laid_memPoolInit : (memPoolInit allMem s).Laid (memPoolLayout allMem) := by
  intro pf
  cases pf with
  | kernel => exact ⟨rfl, (UInt16.toNat_toUInt32 _).symm⟩
  | user => exact ⟨rfl, (UInt16.toNat_toUInt32 _).symm⟩

theorem Laid.setPoolBit {v : Bool} (h : s.Laid l) : (s.setPoolBit pf i v).Laid l := by
  intro pf'
  have hkept := h pf'
  cases pf <;> cases pf' <;> exact hkept

theorem Laid.palloc (h : s.Laid l) {r : Option UInt32 × Paging} (hrun : (palloc pf).run s = .ok r)
    : r.2.Laid l ∧ ∃ a, r.1 = some a ∧ (l.pool pf).Names a.toNat := by
  obtain ⟨k, hk, rfl⟩ := palloc_run hrun
  refine ⟨h.setPoolBit, _, rfl, k, ?_, ?_⟩
  . rw [← (h pf).2]
    exact hk.lt
  . unfold PoolAt.page
    rw [(h pf).1]

theorem Laid.pfree (h : s.Laid l) (hl : l.Sizes K U)
    (hi : i < 8 * (l.pool pf).poolBitmap.btmpBytesLen.toNat)
    : (pfree ((l.pool pf).page i)).run s = .ok ((), s.setPoolBit pf i false) := by
  have hstart := (h pf).1
  have hlen := (h pf).2
  have hle : s.userPool.phyAddrStart ≤ (l.pool pf).page i ↔ pf = .user := by
    rw [UInt32.le_iff_toNat_le, show s.userPool.phyAddrStart = l.userPool.phyAddrStart from
      (h .user).1, hl.userStart]
    cases pf with
    | kernel =>
      rw [show (l.pool .kernel).page i = l.kernelPool.page i from rfl, hl.toNat_kernelPage hi]
      have hi' : i < 8 * l.kernelPool.poolBitmap.btmpBytesLen.toNat := hi
      rw [hl.kernelLen] at hi'
      exact iff_of_false (by omega) (by decide)
    | user =>
      rw [show (l.pool .user).page i = l.userPool.page i from rfl, hl.toNat_userPage hi]
      exact iff_of_true (by omega) rfl
  have hidx : (((l.pool pf).page i - (s.pool pf).phyAddrStart) / 4096).toNat = i := by
    have hb : i < 65536 := by
      have hK := hl.kernelPages
      have hU := hl.userPages
      have hk := hl.kernelLen
      have hu := hl.userLen
      cases pf with
      | kernel =>
        have hi' : i < 8 * l.kernelPool.poolBitmap.btmpBytesLen.toNat := hi
        omega
      | user =>
        have hi' : i < 8 * l.userPool.poolBitmap.btmpBytesLen.toNat := hi
        omega
    rw [hstart]
    unfold PoolAt.page
    rw [UInt32.add_comm, UInt32.add_sub_cancel, UInt32.toNat_div, UInt32.toNat_mul,
      UInt32.toNat_ofNat']
    show i % 2 ^ 32 * 4096 % 2 ^ 32 / 4096 = i
    omega
  have hif : (if s.userPool.phyAddrStart ≤ (l.pool pf).page i then PoolFlags.user else .kernel)
      = pf := by
    cases pf with
    | kernel => exact if_neg fun h => absurd (hle.mp h) (by decide)
    | user => exact if_pos (hle.mpr rfl)
  unfold Paging.pfree
  rw [exec_get_bind]
  dsimp only
  rw [hif, hidx, exec_bind (bitmapSet_exec (by omega))]
  rfl

end Paging

section Main

variable {allMem : UInt32}

/--
The pools and their bitmaps fit on every machine, also where the number of pages has more than 16
bits.
-/
theorem memPools_safe (h : 0x200000 ≤ allMem.toNat)
    : SafePools allMem (memPoolLayout allMem)
        ∧ ∀ s, (Paging.memPoolInit allMem s).Laid (memPoolLayout allMem) := by
  have hl := PoolLayout.sizes_memPoolLayout h
  have hfree : freePages allMem * 4096 + 0x200000 ≤ allMem.toNat := by
    unfold freePages
    omega
  refine ⟨⟨?_, ?_, fun s pf r hs hrun => hs.palloc hrun, fun s pf i hs hi => hs.pfree hl hi, ?_, ?_,
    ?_⟩, fun _ => Paging.laid_memPoolInit⟩
  . intro pf a ha
    cases pf with
    | kernel =>
      obtain ⟨i, hi, ha⟩ := hl.kernelNames_iff.mp ha
      omega
    | user =>
      obtain ⟨i, hi, ha⟩ := hl.userNames_iff.mp ha
      omega
  . intro a hk hu
    obtain ⟨i, hi, hai⟩ := hl.kernelNames_iff.mp hk
    obtain ⟨j, hj, haj⟩ := hl.userNames_iff.mp hu
    omega
  . have hlen := hl.kernelLen
    have hbits := hl.kernelBits
    have huser := hl.userBits
    unfold BitmapAt.stop
    omega
  . have hlen := hl.userLen
    have hbits := hl.userBits
    have hvaddr := hl.vaddrBits
    unfold BitmapAt.stop
    omega
  . have hlen := hl.vaddrLen
    have hbits := hl.vaddrBits
    have hK := hl.kernelPages
    have hU := hl.userPages
    unfold BitmapAt.stop
    omega

theorem memPools_safe_4GB
    : SafePools 0xffffffff (memPoolLayout 0xffffffff) := (memPools_safe (by decide)).1

def lostPages (allMem : UInt32) (l : PoolLayout) (pf : PoolFlags) : Finset Nat :=
  (Finset.range (freePages allMem)).filter fun i =>
    (l.userPool.phyAddrStart.toNat ≤ 0x200000 + 4096 * i ↔ pf = .user)
      ∧ ¬ (l.pool pf).Names (0x200000 + 4096 * i)

def PagesUsed (allMem : UInt32) (l : PoolLayout) : Prop := ∀ pf, (lostPages allMem l pf).card ≤ 7

theorem mem_lostPages_kernel {l : PoolLayout} {K U i : Nat} (hl : l.Sizes K U)
    : i ∈ lostPages allMem l .kernel ↔ i < freePages allMem ∧ i < K ∧ 8 * (K / 8) ≤ i := by
  unfold lostPages
  rw [Finset.mem_filter, Finset.mem_range, hl.userStart, show l.pool .kernel
    = l.kernelPool from rfl, hl.kernelNames_iff]
  constructor
  . rintro ⟨hi, hside, hno⟩
    have hlt : ¬ 0x200000 + 4096 * K ≤ 0x200000 + 4096 * i := fun h =>
      absurd (hside.mp h) (by decide)
    refine ⟨hi, by omega, ?_⟩
    by_contra hlow
    exact hno ⟨i, by omega, rfl⟩
  . rintro ⟨hi, hlt, hle⟩
    refine ⟨hi, iff_of_false (by omega) (by decide), ?_⟩
    rintro ⟨j, hj, hij⟩
    omega

theorem mem_lostPages_user {l : PoolLayout} {K U i : Nat} (hl : l.Sizes K U)
    : i ∈ lostPages allMem l .user ↔ i < freePages allMem ∧ K + 8 * (U / 8) ≤ i := by
  unfold lostPages
  rw [Finset.mem_filter, Finset.mem_range, hl.userStart, show l.pool .user = l.userPool from rfl,
    hl.userNames_iff]
  constructor
  . rintro ⟨hi, hside, hno⟩
    have hle : 0x200000 + 4096 * K ≤ 0x200000 + 4096 * i := hside.mpr rfl
    refine ⟨hi, ?_⟩
    by_contra hlow
    exact hno ⟨i - K, by omega, by omega⟩
  . rintro ⟨hi, hle⟩
    refine ⟨hi, iff_of_true (by omega) rfl, ?_⟩
    rintro ⟨j, hj, hij⟩
    omega

theorem pagesUsed_of_lt (h : 0x200000 ≤ allMem.toNat) (hlt : freePages allMem < 65536)
    : PagesUsed allMem (memPoolLayout allMem) := by
  have hl := PoolLayout.sizes_memPoolLayout h
  intro pf
  cases pf with
  | kernel =>
    have hsub : lostPages allMem (memPoolLayout allMem) .kernel
        ⊆ Finset.Ico (8 * (freePages allMem % 65536 / 2 / 8)) (freePages allMem % 65536 / 2) := by
      intro i hi
      rw [mem_lostPages_kernel hl] at hi
      rw [Finset.mem_Ico]
      omega
    have hcard := Finset.card_le_card hsub
    rw [Nat.card_Ico] at hcard
    omega
  | user =>
    have hsub : lostPages allMem (memPoolLayout allMem) .user
        ⊆ Finset.Ico (freePages allMem % 65536 / 2
          + 8 * ((freePages allMem % 65536 - freePages allMem % 65536 / 2) / 8))
            (freePages allMem) := by
      intro i hi
      rw [mem_lostPages_user hl] at hi
      rw [Finset.mem_Ico]
      omega
    have hcard := Finset.card_le_card hsub
    rw [Nat.card_Ico] at hcard
    omega

theorem not_pagesUsed_of_ge (h : 0x200000 ≤ allMem.toNat) (hge : 65536 ≤ freePages allMem)
    : ¬ PagesUsed allMem (memPoolLayout allMem) := by
  have hl := PoolLayout.sizes_memPoolLayout h
  intro hused
  have hsub : Finset.Ico (freePages allMem % 65536) (freePages allMem)
      ⊆ lostPages allMem (memPoolLayout allMem) .user := by
    intro i hi
    rw [Finset.mem_Ico] at hi
    rw [mem_lostPages_user hl]
    omega
  have hcard := (Finset.card_le_card hsub).trans (hused .user)
  rw [Nat.card_Ico] at hcard
  omega

/-- All of the memory is used if and only if it is less than 258 MB. -/
theorem pagesUsed_iff (h : 0x200000 ≤ allMem.toNat)
    : PagesUsed allMem (memPoolLayout allMem) ↔ allMem < 258 * 0x100000 := by
  have hlt : allMem < 258 * 0x100000 ↔ freePages allMem < 65536 := by
    unfold freePages
    rw [UInt32.lt_iff_toNat_lt]
    show allMem.toNat < 270532608 ↔ _
    omega
  rw [hlt]
  constructor
  . intro hused
    by_contra hge
    exact not_pagesUsed_of_ge h (by omega) hused
  . exact pagesUsed_of_lt h

theorem pagesUsed_32MB : PagesUsed 0x2000000 (memPoolLayout 0x2000000) :=
  (pagesUsed_iff (by decide)).mpr (by decide)

/-- Of 512 MB, half are lost. -/
theorem not_pagesUsed_512MB
    : ¬ ∀ allMem : UInt32, 0x200000 ≤ allMem.toNat → allMem.toNat ≤ 512 * 0x100000 →
        PagesUsed allMem (memPoolLayout allMem) := by
  intro hall
  exact @not_pagesUsed_of_ge 0x20000000 (by decide) (by decide) (hall _ (by decide) (by decide))

end Main

end RogOS
