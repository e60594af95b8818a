import RogOS.Lib.Mem

/-!
Address translation with a directory and tables of 1024 entries, each in a page of 4096 bytes. An
entry of a directory that refers to the directory itself makes the tables accessible.
-/

namespace Mmu

def present (w : UInt32) : Bool := w &&& 1 != 0

def frame (w : UInt32) : Nat := w.toNat / 4096

def entry (phys : Mem) (f i : Nat) : UInt32 := phys.word (4096 * f + 4 * i)

def setEntry (phys : Mem) (f i : Nat) (w : UInt32) : Mem := phys.setWord (4096 * f + 4 * i) w

def walk (phys : Mem) (dir : Nat) (vaddr : UInt32) : Option Nat :=
  let pde := entry phys dir (vaddr.toNat / 4194304)
  if present pde then
    let pte := entry phys (frame pde) (vaddr.toNat / 4096 % 1024)
    if present pte then some (4096 * frame pte + vaddr.toNat % 4096) else none
  else
    none

section Entry

variable {w p : UInt32}

theorem present_iff : present w = true ↔ w.toNat % 2 = 1 := by
  have h : (w &&& 1).toNat = w.toNat % 2 := by
    rw [UInt32.toNat_and]
    exact Nat.and_two_pow_sub_one_eq_mod w.toNat 1
  unfold present
  rw [bne_iff_ne, ne_eq, ← UInt32.toNat_inj, h]
  show ¬ w.toNat % 2 = 0 ↔ _
  omega

theorem and_one_eq_zero : w &&& 1 = 0 ↔ present w = false := by
  unfold present
  rw [bne_eq_false_iff_eq]

theorem toNat_and_mask : (w &&& 0xfffff000).toNat = 4096 * frame w := by
  have hw := w.toNat_lt
  have hdiv : (w &&& 0xfffff000).toNat / 4096 = w.toNat / 4096 := by
    rw [UInt32.toNat_and]
    show (w.toNat &&& 0xfffff000) / 2 ^ 12 = w.toNat / 2 ^ 12
    rw [Nat.and_div_two_pow]
    show w.toNat / 2 ^ 12 &&& (2 ^ 20 - 1) = w.toNat / 2 ^ 12
    rw [Nat.and_two_pow_sub_one_eq_mod]
    omega
  have hmod : (w &&& 0xfffff000).toNat % 4096 = 0 := by
    rw [UInt32.toNat_and]
    show (w.toNat &&& 0xfffff000) % 2 ^ 12 = 0
    rw [Nat.and_mod_two_pow]
    exact Nat.and_zero _
  unfold frame
  omega

theorem toNat_and_offset : (w &&& 0x00000fff).toNat = w.toNat % 4096 := by
  rw [UInt32.toNat_and]
  exact Nat.and_two_pow_sub_one_eq_mod w.toNat 12

theorem toNat_or_flags (hp : p.toNat % 4096 = 0) : (p ||| 7).toNat = p.toNat + 7 := by
  rw [UInt32.toNat_or]
  show p.toNat ||| 7 = p.toNat + 7
  have h := Nat.two_pow_add_eq_or_of_lt (show 7 < 2 ^ 12 by omega) (p.toNat / 4096)
  have he : 2 ^ 12 * (p.toNat / 4096) = p.toNat := by omega
  rw [he] at h
  exact h.symm

theorem frame_or_flags (hp : p.toNat % 4096 = 0) : frame (p ||| 7) = p.toNat / 4096 := by
  unfold frame
  rw [toNat_or_flags hp]
  omega

theorem present_or_flags (hp : p.toNat % 4096 = 0) : present (p ||| 7) = true := by
  rw [present_iff, toNat_or_flags hp]
  omega

private theorem toNat_clear : (w &&& ~~~1).toNat = 2 * (w.toNat / 2) := by
  have hw := w.toNat_lt
  have hdiv : (w &&& ~~~1).toNat / 2 = w.toNat / 2 := by
    rw [UInt32.toNat_and]
    show (w.toNat &&& 0xfffffffe) / 2 ^ 1 = w.toNat / 2
    rw [Nat.and_div_two_pow]
    show w.toNat / 2 &&& (2 ^ 31 - 1) = w.toNat / 2
    rw [Nat.and_two_pow_sub_one_eq_mod]
    omega
  have hmod : (w &&& ~~~1).toNat % 2 = 0 := by
    rw [UInt32.toNat_and]
    show (w.toNat &&& 0xfffffffe) % 2 ^ 1 = 0
    rw [Nat.and_mod_two_pow]
    exact Nat.and_zero _
  omega

theorem present_clear : present (w &&& ~~~1) = false := by
  rw [← Bool.not_eq_true, present_iff, toNat_clear]
  omega

end Entry

section Table

variable {m m' : Mem} {f g i j : Nat} {w : UInt32}

theorem entry_congr (hi : i < 1024) (h : ∀ x, x / 4096 = f → m' x = m x)
    : entry m' f i = entry m f i := by
  apply Mem.word_congr
  intro k hk
  apply h
  omega

theorem entry_setEntry_self : entry (setEntry m f i w) f i = w := Mem.word_setWord_self

theorem entry_setEntry (hi : i < 1024) (hj : j < 1024) (hne : ¬ (g = f ∧ j = i))
    : entry (setEntry m f i w) g j = entry m g j := by
  apply Mem.word_setWord_of_disjoint
  by_cases hfg : g = f
  . have hij : j ≠ i := fun h => hne ⟨hfg, h⟩
    subst hfg
    omega
  . omega

theorem setEntry_of_ne {x : Nat} (hi : i < 1024) (hx : x / 4096 ≠ f)
    : (setEntry m f i w) x = m x := by
  apply Mem.setWord_of_not_mem
  omega

end Table

section Walk

variable {m m' : Mem} {dir dir' a : Nat} {vaddr : UInt32}

theorem walk_eq_some
    : walk m dir vaddr = some a
        ↔
      present (entry m dir (vaddr.toNat / 4194304)) = true
        ∧ present (entry m (frame (entry m dir (vaddr.toNat / 4194304)))
            (vaddr.toNat / 4096 % 1024)) = true
        ∧ a = 4096 * frame (entry m (frame (entry m dir (vaddr.toNat / 4194304)))
            (vaddr.toNat / 4096 % 1024))
            + vaddr.toNat % 4096 := by
  unfold walk
  dsimp only
  generalize entry m dir (vaddr.toNat / 4194304) = pde
  generalize entry m (frame pde) (vaddr.toNat / 4096 % 1024) = pte
  cases h1 : present pde with
  | false => simp
  | true =>
    cases h2 : present pte with
    | false => simp
    | true => simp [eq_comm]

theorem walk_congr
    (h1 : entry m' dir' (vaddr.toNat / 4194304) = entry m dir (vaddr.toNat / 4194304))
    (h2 : entry m' (frame (entry m dir (vaddr.toNat / 4194304))) (vaddr.toNat / 4096 % 1024)
        = entry m (frame (entry m dir (vaddr.toNat / 4194304))) (vaddr.toNat / 4096 % 1024))
    : walk m' dir' vaddr = walk m dir vaddr := by
  unfold walk
  dsimp only
  rw [h1, h2]

structure SelfMap (m : Mem) (dir : Nat) : Prop where
  present : present (entry m dir 1023) = true
  frame : frame (entry m dir 1023) = dir

theorem SelfMap.walk_dir (h : SelfMap m dir) {i : Nat} (hi : i < 1024)
    (hv : vaddr.toNat = 0xfffff000 + 4 * i)
    : walk m dir vaddr = some (4096 * dir + 4 * i) := by
  rw [walk_eq_some]
  have h1 : vaddr.toNat / 4194304 = 1023 := by omega
  have h2 : vaddr.toNat / 4096 % 1024 = 1023 := by omega
  have h3 : vaddr.toNat % 4096 = 4 * i := by omega
  rw [h1, h2, h3, h.frame, h.frame]
  exact ⟨h.present, h.present, rfl⟩

theorem SelfMap.walk_table (h : SelfMap m dir) {i k : Nat} (hi : i < 1024) (hk : k < 4096)
    (hv : vaddr.toNat = 0xffc00000 + 4096 * i + k) (hp : Mmu.present (entry m dir i) = true)
    : walk m dir vaddr = some (4096 * Mmu.frame (entry m dir i) + k) := by
  rw [walk_eq_some]
  have h1 : vaddr.toNat / 4194304 = 1023 := by omega
  have h2 : vaddr.toNat / 4096 % 1024 = i := by omega
  have h3 : vaddr.toNat % 4096 = k := by omega
  rw [h1, h2, h3, h.frame]
  exact ⟨h.present, hp, rfl⟩

theorem walk_setEntry {f i : Nat} {w : UInt32} (h : walk m dir vaddr = some a) (hi : i < 1024)
    (hno : present (entry m f i) = false) : walk (setEntry m f i w) dir vaddr = some a := by
  have hv := vaddr.toNat_lt
  obtain ⟨hpde, hpte, -⟩ := walk_eq_some.mp h
  rw [← h]
  apply walk_congr
  . apply entry_setEntry hi (by omega)
    rintro ⟨rfl, rfl⟩
    rw [hno] at hpde
    contradiction
  . apply entry_setEntry hi (Nat.mod_lt _ (by omega))
    rintro ⟨rfl, rfl⟩
    rw [hno] at hpte
    contradiction

theorem walk_of_same {f : Nat} (hdir : dir ≠ f)
    (htable : frame (entry m dir (vaddr.toNat / 4194304)) ≠ f)
    (hsame : ∀ x, x / 4096 ≠ f → m' x = m x) : walk m' dir vaddr = walk m dir vaddr := by
  have hv := vaddr.toNat_lt
  apply walk_congr
  . apply entry_congr (by omega)
    intro x hx
    apply hsame
    rw [hx]
    exact hdir
  . apply entry_congr (Nat.mod_lt _ (by omega))
    intro x hx
    apply hsame
    rw [hx]
    exact htable

theorem SelfMap.setEntry {f i : Nat} {w : UInt32} (h : SelfMap m dir) (hi : i < 1024)
    (hno : Mmu.present (entry m f i) = false) : SelfMap (Mmu.setEntry m f i w) dir := by
  have hsame : entry (Mmu.setEntry m f i w) dir 1023 = entry m dir 1023 := by
    apply entry_setEntry hi (by omega)
    rintro ⟨rfl, rfl⟩
    rw [h.present] at hno
    contradiction
  constructor
  . rw [hsame]
    exact h.present
  . rw [hsame]
    exact h.frame

theorem SelfMap.of_same {f : Nat} (h : SelfMap m dir) (hdir : dir ≠ f)
    (hsame : ∀ x, x / 4096 ≠ f → m' x = m x)
    : SelfMap m' dir := by
  have hentry : entry m' dir 1023 = entry m dir 1023 := by
    apply entry_congr (by omega)
    intro x hx
    apply hsame
    rw [hx]
    exact hdir
  constructor
  . rw [hentry]
    exact h.present
  . rw [hentry]
    exact h.frame

end Walk

end Mmu
