import RogOS.Memory.Lemmas.Paging

/-!
The page tables of the kernel. They are in the pages from 0x101 on, and every directory refers to
them, so that the entry for a page of the kernel is at a fixed place in physical memory.
-/

namespace RogOS

namespace Paging

open Cmd

variable {s s' : Paging} {v p : UInt32} {dir k : Nat}

def kpte (s : Paging) (k : Nat) : UInt32 := Mmu.entry s.phys (0x101 + k / 1024) (k % 1024)

def setKpte (s : Paging) (k : Nat) (w : UInt32) : Paging :=
  s.setPhys (Mmu.setEntry s.phys (0x101 + k / 1024) (k % 1024) w)

structure KernelDir (m : Mem) (dir : Nat) : Prop where
  self : Mmu.SelfMap m dir
  present : ∀ i < 255, Mmu.present (Mmu.entry m dir (768 + i)) = true
  frame : ∀ i < 255, Mmu.frame (Mmu.entry m dir (768 + i)) = 0x101 + i

theorem KernelDir.congr {m m' : Mem} (h : KernelDir m dir)
    (hsame : ∀ i, 768 ≤ i → i < 1024 → Mmu.entry m' dir i = Mmu.entry m dir i)
    : KernelDir m' dir where
  self := by
    have h1023 := hsame 1023 (by omega) (by omega)
    constructor
    . rw [h1023]
      exact h.self.present
    . rw [h1023]
      exact h.self.frame
  present := by
    intro i hi
    rw [hsame _ (by omega) (by omega)]
    exact h.present i hi
  frame := by
    intro i hi
    rw [hsame _ (by omega) (by omega)]
    exact h.frame i hi

section Index

theorem toNat_pteIdx : (pteIdx v).toNat = v.toNat / 4096 % 1024 := by
  unfold pteIdx
  rw [UInt32.toNat_shiftRight, UInt32.toNat_and]
  show (v.toNat &&& 0x003ff000) >>> 12 = _
  rw [Nat.shiftRight_eq_div_pow, Nat.and_div_two_pow]
  show v.toNat / 4096 &&& (2 ^ 10 - 1) = _
  rw [Nat.and_two_pow_sub_one_eq_mod]

theorem toNat_and_pde : (v &&& 0xffc00000).toNat = v.toNat / 4194304 * 4194304 := by
  have hv := v.toNat_lt
  have hdiv : (v &&& 0xffc00000).toNat / 4194304 = v.toNat / 4194304 := by
    rw [UInt32.toNat_and]
    show (v.toNat &&& 0xffc00000) / 2 ^ 22 = v.toNat / 2 ^ 22
    rw [Nat.and_div_two_pow]
    show v.toNat / 2 ^ 22 &&& (2 ^ 10 - 1) = v.toNat / 2 ^ 22
    rw [Nat.and_two_pow_sub_one_eq_mod]
    omega
  have hmod : (v &&& 0xffc00000).toNat % 4194304 = 0 := by
    rw [UInt32.toNat_and]
    show (v.toNat &&& 0xffc00000) % 2 ^ 22 = 0
    rw [Nat.and_mod_two_pow]
    exact Nat.and_zero _
  omega

theorem toNat_pdeIdx : (pdeIdx v).toNat = v.toNat / 4194304 := by
  unfold pdeIdx
  rw [UInt32.toNat_shiftRight, toNat_and_pde]
  show (v.toNat / 4194304 * 4194304) >>> 22 = _
  rw [Nat.shiftRight_eq_div_pow]
  omega

theorem toNat_pdePtr : (pdePtr v).toNat = 0xfffff000 + 4 * (v.toNat / 4194304) := by
  have hv := v.toNat_lt
  unfold pdePtr
  rw [UInt32.toNat_add, UInt32.toNat_mul, toNat_pdeIdx]
  show (0xfffff000 + v.toNat / 4194304 * 4 % 2 ^ 32) % 2 ^ 32 = _
  omega

theorem toNat_ptePtr
    : (ptePtr v).toNat = 0xffc00000 + 4096 * (v.toNat / 4194304) + 4 * (v.toNat / 4096 % 1024) := by
  have hv := v.toNat_lt
  unfold ptePtr
  rw [UInt32.toNat_add, UInt32.toNat_add, UInt32.toNat_shiftRight, toNat_and_pde, UInt32.toNat_mul,
    toNat_pteIdx]
  show ((0xffc00000 + (v.toNat / 4194304 * 4194304) >>> 10) % 2 ^ 32 + v.toNat / 4096 % 1024
      * 4 % 2 ^ 32) % 2 ^ 32 = _
  rw [Nat.shiftRight_eq_div_pow]
  omega

end Index

section Access

theorem translate_exec {a : Nat} (h : s.walk v = some a) : (translate v).run s = .ok (a, s) := by
  unfold translate
  rw [exec_get_bind, h]
  rfl

theorem readWord_exec {a : Nat} (h : s.walk v = some a)
    : (readWord v).run s = .ok (s.phys.word a, s) := by
  unfold readWord
  rw [exec_bind (translate_exec h), exec_get_bind]
  rfl

theorem writeWord_exec {a : Nat} {w : UInt32} (h : s.walk v = some a)
    : (writeWord v w).run s = .ok ((), s.setPhys (s.phys.setWord a w)) := by
  unfold writeWord
  rw [exec_bind (translate_exec h), exec_modify]

end Access

section Kernel

variable (hdir : KernelDir s.phys (Mmu.frame s.cr3)) (hk : k < 255 * 1024)
  (hv : v.toNat / 4096 = 0xc0000 + k)

include hdir hk hv

theorem walk_ptePtr : s.walk (ptePtr v) = some (4096 * (0x101 + k / 1024) + 4 * (k % 1024)) := by
  have hpde : v.toNat / 4194304 = 768 + k / 1024 := by omega
  have hpte : v.toNat / 4096 % 1024 = k % 1024 := by omega
  have hptr := @toNat_ptePtr v
  rw [hpde, hpte] at hptr
  have hwalk := hdir.self.walk_table (by omega) (by omega) hptr (hdir.present _ (by omega))
  rw [hdir.frame _ (by omega)] at hwalk
  exact hwalk

theorem readPte_exec
    : (readWord (ptePtr v)).run s = .ok (s.kpte k, s) := readWord_exec (walk_ptePtr hdir hk hv)

theorem writePte_exec {w : UInt32} : (writeWord (ptePtr v) w).run s = .ok ((), s.setKpte k w) :=
  writeWord_exec (walk_ptePtr hdir hk hv)

theorem addrV2p_exec
    : (addrV2p v).run s = .ok ((s.kpte k &&& 0xfffff000) + (v &&& 0x00000fff), s) := by
  unfold addrV2p
  rw [exec_bind (readPte_exec hdir hk hv)]
  rfl

theorem pageTablePteRemove_exec
    : (pageTablePteRemove v).run s = .ok ((), s.setKpte k (s.kpte k &&& ~~~1)) := by
  unfold pageTablePteRemove
  rw [exec_bind (readPte_exec hdir hk hv)]
  exact writePte_exec hdir hk hv

theorem pageTableAdd_kernel {r : Unit × Paging} (h : (pageTableAdd v p).run s = .ok r)
    : Mmu.present (s.kpte k) = false ∧ r.2 = s.setKpte k (p ||| 7) := by
  have hwalk : s.walk (pdePtr v) = some (4096 * Mmu.frame s.cr3 + 4 * (768 + k / 1024)) := by
    have hptr := @toNat_pdePtr v
    rw [show v.toNat / 4194304 = 768 + k / 1024 by omega] at hptr
    exact hdir.self.walk_dir (by omega) hptr
  have hpde : ¬ s.phys.word (4096 * Mmu.frame s.cr3 + 4 * (768 + k / 1024)) &&& 1 = 0 := by
    rw [Mmu.and_one_eq_zero]
    have hp := hdir.present (k / 1024) (by omega)
    unfold Mmu.entry at hp
    rw [hp]
    decide
  unfold pageTableAdd at h
  rw [exec_bind (readWord_exec hwalk), if_pos hpde, exec_bind (readPte_exec hdir hk hv),
    exec_assert_bind] at h
  split at h
  . next hpte =>
    rw [writePte_exec hdir hk hv] at h
    cases h
    exact ⟨Mmu.and_one_eq_zero.mp hpte, rfl⟩
  . contradiction

end Kernel

section SetKpte

theorem kpte_setKpte_self {w : UInt32} : (s.setKpte k w).kpte k = w := Mmu.entry_setEntry_self

theorem kpte_setKpte_of_ne {w : UInt32} {l : Nat} (h : l ≠ k)
    : (s.setKpte k w).kpte l = s.kpte l := by
  apply Mmu.entry_setEntry (by omega) (by omega)
  omega

theorem entry_setKpte {w : UInt32} {f i : Nat} (hk : k < 255 * 1024) (hf : f < 0x101 ∨ 0x200 ≤ f)
    (hi : i < 1024)
    : Mmu.entry (s.setKpte k w).phys f i = Mmu.entry s.phys f i := by
  apply Mmu.entry_setEntry (by omega) hi
  omega

end SetKpte

section Tables

def dirWord (dir i : Nat) : UInt32 :=
  if i = 1023 then UInt32.ofNat (dir * 4096) ||| 7
  else if 768 ≤ i then UInt32.ofNat (0x101000 + (i - 768) * 4096) ||| 7
  else 0

def kernelWord (heap k : Nat) : UInt32 :=
  if k < 256 then UInt32.ofNat (k * 4096) ||| 7
  else if k < 256 + heap then UInt32.ofNat (0x200000 + (k - 256) * 4096) ||| 7
  else 0

def tableWords (dir heap w : Nat) : UInt32 :=
  if w / 1024 = 0x100 ∨ w / 1024 = dir then dirWord (w / 1024) (w % 1024)
  else if 0x101 ≤ w / 1024 ∧ w / 1024 < 0x200 then kernelWord heap (w - 0x101 * 1024)
  else 0

theorem entry_ofWords {f : Nat → UInt32} {t i : Nat}
    : Mmu.entry (Mem.ofWords f) t i = f (1024 * t + i) := by
  unfold Mmu.entry
  rw [show 4096 * t + 4 * i = 4 * (1024 * t + i) by omega]
  exact Mem.word_ofWords f _

theorem toNat_page_or {n : Nat} (hn : n < 0x100000)
    : (UInt32.ofNat (n * 4096)).toNat = n * 4096 := by
  rw [UInt32.toNat_ofNat']
  omega

theorem entry_tableWords {dir heap d i : Nat} (hd : d = 0x100 ∨ d = dir) (hi : i < 1024)
    : Mmu.entry (Mem.ofWords (tableWords dir heap)) d i = dirWord d i := by
  rw [entry_ofWords]
  unfold tableWords
  rw [show (1024 * d + i) / 1024 = d by omega, show (1024 * d + i) % 1024 = i by omega, if_pos hd]

theorem frame_dirWord_lt {d f i : Nat} (hd : d < f) (hf : 0x200 ≤ f) (hlt : d < 0x100000)
    (hi : i < 1024)
    : Mmu.frame (dirWord d i) < f := by
  unfold dirWord
  split
  . rw [Mmu.frame_or_flags]
    . rw [toNat_page_or hlt]
      omega
    . rw [toNat_page_or hlt]
      omega
  . split
    . rw [show 0x101000 + (i - 768) * 4096 = (0x101 + (i - 768)) * 4096 by
        omega, Mmu.frame_or_flags]
      . rw [toNat_page_or (by omega)]
        omega
      . rw [toNat_page_or (by omega)]
        omega
    . exact Nat.lt_of_lt_of_le (by decide) hf

theorem kernelDir_tableWords {dir heap d : Nat} (hd : d = 0x100 ∨ d = dir) (hlt : d < 0x100000)
    : KernelDir (Mem.ofWords (tableWords dir heap)) d := by
  have hentry : ∀ i < 1024, Mmu.entry (Mem.ofWords (tableWords dir heap)) d i = dirWord d i :=
    fun i hi => entry_tableWords hd hi
  have htable : ∀ i < 255, dirWord d (768 + i) = UInt32.ofNat ((0x101 + i) * 4096) ||| 7 := by
    intro i hi
    unfold dirWord
    rw [if_neg (by omega), if_pos (by omega), show 0x101000 + (768 + i - 768) * 4096
      = (0x101 + i) * 4096 by omega]
  have hself : dirWord d 1023 = UInt32.ofNat (d * 4096) ||| 7 := if_pos rfl
  refine ⟨⟨?_, ?_⟩, ?_, ?_⟩
  . rw [hentry _ (by omega), hself]
    apply Mmu.present_or_flags
    rw [toNat_page_or hlt]
    omega
  . rw [hentry _ (by omega), hself, Mmu.frame_or_flags]
    . rw [toNat_page_or hlt]
      omega
    . rw [toNat_page_or hlt]
      omega
  . intro i hi
    rw [hentry _ (by omega), htable i hi]
    apply Mmu.present_or_flags
    rw [toNat_page_or (by omega)]
    omega
  . intro i hi
    rw [hentry _ (by omega), htable i hi, Mmu.frame_or_flags]
    . rw [toNat_page_or (by omega)]
      omega
    . rw [toNat_page_or (by omega)]
      omega

end Tables

end Paging

end RogOS
