import RogOS.Memory.PageSafety

/-!
The page tables through the directory that refers to itself: where `pte_ptr` and `pde_ptr` point to,
and what `page_table_add` maps.
-/

namespace RogOS

namespace Paging

open Cmd

variable {s s' : Paging} {v w p : UInt32} {k a : Nat}

def pdeOf (s : Paging) (v : UInt32)
    : UInt32 := Mmu.entry s.phys (Mmu.frame s.cr3) (v.toNat / 4194304)

def SelfMapped (s : Paging) : Prop := Mmu.SelfMap s.phys (Mmu.frame s.cr3)

def Unused (s : Paging) (f : Nat) : Prop :=
  Mmu.frame s.cr3 ≠ f ∧ ∀ i < 1024, Mmu.present (Mmu.entry s.phys (Mmu.frame s.cr3) i) = true →
    Mmu.frame (Mmu.entry s.phys (Mmu.frame s.cr3) i) ≠ f

def FreshTable (s : Paging) : Prop :=
  ∀ k, FirstClear s.kernelPool.poolBitmap.bits s.kernelPool.poolBitmap.btmpBytesLen k →
    (s.kernelPool.phyAddrStart + UInt32.ofNat k * 4096).toNat % 4096 = 0
      ∧ s.Unused ((s.kernelPool.phyAddrStart + UInt32.ofNat k * 4096).toNat / 4096)

def NotNext (s : Paging) (f : Nat) : Prop :=
  ∀ k, FirstClear s.kernelPool.poolBitmap.bits s.kernelPool.poolBitmap.btmpBytesLen k →
    (s.kernelPool.phyAddrStart + UInt32.ofNat k * 4096).toNat / 4096 ≠ f

structure Pointers (s : Paging) (v : UInt32) : Prop where
  pte : s.walk (ptePtr v) = some (4096 * Mmu.frame (s.pdeOf v) + 4 * (v.toNat / 4096 % 1024))
  pde : s.walk (pdePtr v) = some (4096 * Mmu.frame s.cr3 + 4 * (v.toNat / 4194304))

structure Maps (s s' : Paging) (v p : UInt32) : Prop where
  addr : ∀ off < 4096, (addrV2p (v + UInt32.ofNat off)).run s' = .ok (p + UInt32.ofNat off, s')
  here : ∀ off < 4096, s'.walk (v + UInt32.ofNat off) = some (p.toNat + off)
  others : ∀ w, w.toNat / 4096 ≠ v.toNat / 4096 → ∀ a, s.walk w = some a → s'.walk w = some a

section Pointers

theorem SelfMapped.walk_pdePtr (h : s.SelfMapped)
    : s.walk (pdePtr v) = some (4096 * Mmu.frame s.cr3 + 4 * (v.toNat / 4194304)) := by
  have hv := v.toNat_lt
  exact h.walk_dir (by omega) toNat_pdePtr

theorem SelfMapped.walk_ptePtr (h : s.SelfMapped) (hp : Mmu.present (s.pdeOf v) = true)
    : s.walk (ptePtr v) = some (4096 * Mmu.frame (s.pdeOf v) + 4 * (v.toNat / 4096 % 1024)) := by
  have hv := v.toNat_lt
  exact h.walk_table (by omega) (by omega) toNat_ptePtr hp

theorem toNat_tablePtr
    : (ptePtr v &&& 0xfffff000).toNat = 0xffc00000 + 4096 * (v.toNat / 4194304) + 0 := by
  have hv := v.toNat_lt
  rw [Mmu.toNat_and_mask, Mmu.frame, toNat_ptePtr]
  omega

theorem SelfMapped.walk_tablePtr (h : s.SelfMapped) (hp : Mmu.present (s.pdeOf v) = true)
    : s.walk (ptePtr v &&& 0xfffff000) = some (4096 * Mmu.frame (s.pdeOf v) + 0) := by
  have hv := v.toNat_lt
  exact h.walk_table (by omega) (by omega) toNat_tablePtr hp

theorem SelfMapped.pointers (h : s.SelfMapped) (hp : Mmu.present (s.pdeOf v) = true)
    : s.Pointers v :=
  ⟨h.walk_ptePtr hp, h.walk_pdePtr⟩

end Pointers

section Mapped

variable {off : Nat}

theorem toNat_inPage (hv : v.toNat % 4096 = 0) (ho : off < 4096)
    : (v + UInt32.ofNat off).toNat = v.toNat + off := by
  have hlt := v.toNat_lt
  rw [UInt32.toNat_add, UInt32.toNat_ofNat']
  show (v.toNat + off % 2 ^ 32) % 2 ^ 32 = _
  omega

structure HasEntry (s : Paging) (v p : UInt32) : Prop where
  self : s.SelfMapped
  table : Mmu.present (s.pdeOf v) = true
  entry : Mmu.entry s.phys (Mmu.frame (s.pdeOf v)) (v.toNat / 4096 % 1024) = p ||| 7

theorem HasEntry.walk (h : s.HasEntry v p) (hv : v.toNat % 4096 = 0) (hp : p.toNat % 4096 = 0)
    (ho : off < 4096)
    : s.walk (v + UInt32.ofNat off) = some (p.toNat + off) := by
  have htable := h.table
  have hentry := h.entry
  unfold pdeOf at htable hentry
  have hx := toNat_inPage hv ho
  have h1 : (v + UInt32.ofNat off).toNat / 4194304 = v.toNat / 4194304 := by omega
  have h2 : (v + UInt32.ofNat off).toNat / 4096 % 1024 = v.toNat / 4096 % 1024 := by omega
  unfold Paging.walk
  rw [Mmu.walk_eq_some, h1, h2, hentry, Mmu.frame_or_flags hp]
  refine ⟨htable, Mmu.present_or_flags hp, ?_⟩
  omega

theorem HasEntry.addrV2p (h : s.HasEntry v p) (hv : v.toNat % 4096 = 0) (hp : p.toNat % 4096 = 0)
    (ho : off < 4096)
    : (addrV2p (v + UInt32.ofNat off)).run s = .ok (p + UInt32.ofNat off, s) := by
  have hx := toNat_inPage hv ho
  have hpde : s.pdeOf (v + UInt32.ofNat off) = s.pdeOf v := by
    unfold pdeOf
    congr 1
    omega
  have hread : (readWord (ptePtr (v + UInt32.ofNat off))).run s = .ok (p ||| 7, s) := by
    have hwalk : s.walk (ptePtr (v + UInt32.ofNat off)) = some _ :=
      h.self.walk_ptePtr (by rw [hpde]; exact h.table)
    rw [readWord_exec hwalk, hpde, ← h.entry]
    unfold Mmu.entry
    congr 4
    omega
  have hpage : (p ||| 7) &&& 0xfffff000 = p := by
    rw [← UInt32.toNat_inj, Mmu.toNat_and_mask, Mmu.frame_or_flags hp]
    omega
  have hoff : (v + UInt32.ofNat off) &&& 0x00000fff = UInt32.ofNat off := by
    rw [← UInt32.toNat_inj, Mmu.toNat_and_offset, UInt32.toNat_ofNat']
    omega
  unfold Paging.addrV2p
  rw [exec_bind hread, hpage, hoff]
  rfl

structure Added (s s' : Paging) (v p : UInt32) : Prop where
  entry : s'.HasEntry v p
  keep : ∀ w a, s.walk w = some a → s'.walk w = some a
  phys : ∀ x, s.Unused (x / 4096) → s.NotNext (x / 4096) → s'.phys x = s.phys x
  userPool : s'.userPool = s.userPool
  cur : s'.cur = s.cur

theorem HasEntry.maps (h : s'.HasEntry v p) (hv : v.toNat % 4096 = 0) (hp : p.toNat % 4096 = 0)
    (hothers : ∀ w, w.toNat / 4096 ≠ v.toNat / 4096 → ∀ a, s.walk w = some a → s'.walk w = some a)
    : Maps s s' v p :=
  ⟨fun _ ho => h.addrV2p hv hp ho, fun _ ho => h.walk hv hp ho, hothers⟩

end Mapped

section Add

theorem hasEntry_setEntry (h : s.SelfMapped) (htable : Mmu.present (s.pdeOf v) = true)
    (hno : Mmu.present (Mmu.entry s.phys (Mmu.frame (s.pdeOf v)) (v.toNat / 4096 % 1024)) = false)
    : (s.setPhys (Mmu.setEntry s.phys (Mmu.frame (s.pdeOf v)) (v.toNat / 4096 % 1024)
        (p ||| 7))).HasEntry v p := by
  have hv := v.toNat_lt
  have hpde :
      (s.setPhys (Mmu.setEntry s.phys (Mmu.frame (s.pdeOf v)) (v.toNat / 4096 % 1024)
      (p ||| 7))).pdeOf v
      = s.pdeOf v := by
    unfold pdeOf at *
    apply Mmu.entry_setEntry (Nat.mod_lt _ (by omega)) (by omega)
    rintro ⟨hf, hi⟩
    have hf' : Mmu.frame s.cr3
        = Mmu.frame (Mmu.entry s.phys (Mmu.frame s.cr3) (v.toNat / 4194304)) := hf
    rw [← hf', ← hi, htable] at hno
    contradiction
  refine ⟨h.setEntry (Nat.mod_lt _ (by omega)) hno, ?_, ?_⟩
  . rw [hpde]
    exact htable
  . rw [hpde]
    exact Mmu.entry_setEntry_self

theorem not_present_of_walk (hun : s.walk v = none) (htable : Mmu.present (s.pdeOf v) = true)
    : Mmu.present (Mmu.entry s.phys (Mmu.frame (s.pdeOf v)) (v.toNat / 4096 % 1024)) = false := by
  rw [← Bool.not_eq_true]
  intro hpte
  have hsome : s.walk v = some _ := Mmu.walk_eq_some.mpr ⟨htable, hpte, rfl⟩
  rw [hun] at hsome
  contradiction

theorem setPte_exec (h : s.SelfMapped) (htable : Mmu.present (s.pdeOf v) = true)
    (hno : Mmu.present (Mmu.entry s.phys (Mmu.frame (s.pdeOf v)) (v.toNat / 4096 % 1024)) = false)
    : (do
        let pte ← readWord (ptePtr v)
        Cmd.assert .panic (pte &&& 1 = 0)
        writeWord (ptePtr v) (p ||| 7) : PagingM Unit).run s
      = .ok ((), s.setPhys (Mmu.setEntry s.phys (Mmu.frame (s.pdeOf v)) (v.toNat / 4096 % 1024)
          (p ||| 7))) := by
  have hwalk := h.walk_ptePtr htable
  have hfree : s.phys.word (4096 * Mmu.frame (s.pdeOf v) + 4 * (v.toNat / 4096 % 1024)) &&& 1 = 0 :=
    Mmu.and_one_eq_zero.mpr hno
  rw [exec_bind (readWord_exec hwalk), exec_assert_bind, if_pos hfree, writeWord_exec hwalk]
  rfl

theorem pageTableAdd_of_table (h : s.SelfMapped) (htable : Mmu.present (s.pdeOf v) = true)
    (hun : s.walk v = none)
    : ∃ t, (pageTableAdd v p).run s = .ok ((), t) ∧ Added s t v p := by
  have hv := v.toNat_lt
  have hno := not_present_of_walk hun htable
  have hpde : ¬ s.phys.word (4096 * Mmu.frame s.cr3 + 4 * (v.toNat / 4194304)) &&& 1 = 0 := by
    rw [Mmu.and_one_eq_zero, ← Bool.not_eq_true, not_not]
    exact htable
  refine ⟨s.setPhys (Mmu.setEntry s.phys (Mmu.frame (s.pdeOf v)) (v.toNat / 4096 % 1024) (p ||| 7)),
    ?_,
    hasEntry_setEntry h htable hno, ?_, ?_, rfl, rfl⟩
  . unfold pageTableAdd
    rw [exec_bind (readWord_exec h.walk_pdePtr), if_pos hpde]
    exact setPte_exec h htable hno
  . intro x a hx
    exact Mmu.walk_setEntry hx (Nat.mod_lt _ (by omega)) hno
  . intro x hx _
    apply Mmu.setEntry_of_ne (Nat.mod_lt _ (by omega))
    exact (hx.2 _ (by omega) htable).symm

end Add

section NewTable

def addTable (s : Paging) (v : UInt32) (f : Nat) (w : UInt32) : Paging :=
  s.setPhys ((Mmu.setEntry s.phys (Mmu.frame s.cr3) (v.toNat / 4194304) w).blit
    (4096 * f) 4096 Mem.zero)

variable {f : Nat}

theorem addTable_of_ne {x : Nat} (hx : x / 4096 ≠ f)
    : (s.addTable v f w).phys x = Mmu.setEntry s.phys (Mmu.frame s.cr3) (v.toNat / 4194304) w x :=
  Mem.blit_of_not_mem (by omega)

theorem entry_addTable {i : Nat} (hi : i < 1024) : Mmu.entry (s.addTable v f w).phys f i = 0 := by
  apply Mem.word_eq_of_bytes
  intro k hk
  apply (Mem.blit_of_mem (by omega) (by omega)).trans
  show 0 = UInt8.ofNat (0 / 256 ^ k)
  rw [Nat.zero_div]
  rfl

variable (h : s.SelfMapped) (hno : Mmu.present (s.pdeOf v) = false) (hf : s.Unused f)

include hf in
theorem pdeOf_addTable : (s.addTable v f w).pdeOf v = w := by
  have hv := v.toNat_lt
  have hsame : Mmu.entry (s.addTable v f w).phys (Mmu.frame s.cr3) (v.toNat / 4194304)
      = Mmu.entry (Mmu.setEntry s.phys (Mmu.frame s.cr3) (v.toNat / 4194304) w) (Mmu.frame s.cr3)
          (v.toNat / 4194304) := by
    apply Mmu.entry_congr (by omega)
    intro x hx
    apply addTable_of_ne
    rw [hx]
    exact hf.1
  exact hsame.trans Mmu.entry_setEntry_self

include h hno hf in
theorem selfMapped_addTable : (s.addTable v f w).SelfMapped := by
  have hv := v.toNat_lt
  have hset : Mmu.SelfMap (Mmu.setEntry s.phys (Mmu.frame s.cr3) (v.toNat / 4194304) w)
      (Mmu.frame s.cr3) :=
    Mmu.SelfMap.setEntry h (by omega) hno
  exact hset.of_same hf.1 fun _ hx => addTable_of_ne hx

include hno hf in
theorem walk_addTable {x : UInt32} (hx : s.walk x = some a)
    : (s.addTable v f w).walk x = some a := by
  have hv := v.toNat_lt
  have hxlt := x.toNat_lt
  have hpde := (Mmu.walk_eq_some.mp hx).1
  have hne : x.toNat / 4194304 ≠ v.toNat / 4194304 := by
    intro heq
    rw [heq] at hpde
    unfold pdeOf at hno
    rw [hno] at hpde
    contradiction
  have hset : Mmu.walk (Mmu.setEntry s.phys (Mmu.frame s.cr3) (v.toNat / 4194304) w)
      (Mmu.frame s.cr3) x = some a :=
    Mmu.walk_setEntry hx (by omega) hno
  rw [← hset]
  apply Mmu.walk_of_same hf.1 _ fun _ hx => addTable_of_ne hx
  rw [Mmu.entry_setEntry (by omega) (by omega) fun heq => hne heq.2]
  exact hf.2 _ (by omega) hpde

include h hno in
theorem addTable_exec {pf : PoolFlags} {j : Nat} {t : UInt32} (ht : t.toNat % 4096 = 0)
    : (do
        writeWord (pdePtr v) (t ||| 7)
        writeRange (ptePtr v &&& 0xfffff000) 4096 Mem.zero : PagingM Unit).run
          (s.setPoolBit pf j true)
      = .ok ((), (s.setPoolBit pf j true).addTable v (t.toNat / 4096) (t ||| 7)) := by
  have hv := v.toNat_lt
  have hphys : (s.setPoolBit pf j true).phys = s.phys := by cases pf <;> rfl
  have hcr3 : (s.setPoolBit pf j true).cr3 = s.cr3 := by cases pf <;> rfl
  generalize s.setPoolBit pf j true = s1 at hphys hcr3 ⊢
  have hself : s1.SelfMapped := by
    unfold SelfMapped
    rw [hphys, hcr3]
    exact h
  have hset :
      (s1.setPhys (Mmu.setEntry s1.phys (Mmu.frame s1.cr3) (v.toNat / 4194304)
      (t ||| 7))).SelfMapped := by
    apply Mmu.SelfMap.setEntry hself (by omega)
    rw [hphys, hcr3]
    exact hno
  have hpde :
      (s1.setPhys (Mmu.setEntry s1.phys (Mmu.frame s1.cr3) (v.toNat / 4194304) (t ||| 7))).pdeOf v
      = t ||| 7 :=
    Mmu.entry_setEntry_self
  have hwalk := @SelfMapped.walk_tablePtr _ v hset (by rw [hpde]; exact Mmu.present_or_flags ht)
  rw [hpde, Mmu.frame_or_flags ht] at hwalk
  rw [exec_bind (writeWord_exec hself.walk_pdePtr)]
  change (writeRange (ptePtr v &&& 0xfffff000) 4096 Mem.zero).run
    (s1.setPhys (Mmu.setEntry s1.phys (Mmu.frame s1.cr3) (v.toNat / 4194304) (t ||| 7))) = _
  unfold writeRange
  rw [exec_bind (translate_exec hwalk)]
  rfl

include h hno in
theorem pageTableAdd_of_no_table
    (hk : FirstClear s.kernelPool.poolBitmap.bits s.kernelPool.poolBitmap.btmpBytesLen k)
    (hfresh : s.FreshTable) (halloc : (palloc .kernel).run s
      = .ok (some (s.kernelPool.phyAddrStart + UInt32.ofNat k * 4096), s.setPoolBit .kernel k true))
    : ∃ t, (pageTableAdd v p).run s = .ok ((), t) ∧ Added s t v p := by
  have hlt := v.toNat_lt
  obtain ⟨halign, hunused⟩ := hfresh k hk
  have hnext : ∀ f, s.NotNext f → (s.kernelPool.phyAddrStart + UInt32.ofNat k * 4096).toNat / 4096
      ≠ f :=
    fun f hf => hf k hk
  generalize s.kernelPool.phyAddrStart + UInt32.ofNat k * 4096 = t at halign hunused halloc hnext
  have hpde : s.phys.word (4096 * Mmu.frame s.cr3 + 4 * (v.toNat / 4194304)) &&& 1 = 0 :=
    Mmu.and_one_eq_zero.mpr hno
  -- the state with the new table
  have hpdeOf : ((s.setPoolBit .kernel k true).addTable v (t.toNat / 4096) (t ||| 7)).pdeOf v
      = t ||| 7 :=
    pdeOf_addTable hunused
  have hself : ((s.setPoolBit .kernel k true).addTable v (t.toNat / 4096) (t ||| 7)).SelfMapped :=
    selfMapped_addTable h hno hunused
  have htable :
      Mmu.present (((s.setPoolBit .kernel k true).addTable v (t.toNat / 4096) (t ||| 7)).pdeOf v)
      = true := by
    rw [hpdeOf]
    exact Mmu.present_or_flags halign
  have hentry :
      Mmu.present
      (Mmu.entry ((s.setPoolBit .kernel k true).addTable v (t.toNat / 4096) (t ||| 7)).phys
      (Mmu.frame (((s.setPoolBit .kernel k true).addTable v (t.toNat / 4096) (t ||| 7)).pdeOf v))
      (v.toNat / 4096 % 1024)) = false := by
    rw [hpdeOf, Mmu.frame_or_flags halign, entry_addTable (Nat.mod_lt _ (by omega))]
    rfl
  have hkeep : ∀ x a, s.walk x = some a →
      ((s.setPoolBit .kernel k true).addTable v (t.toNat / 4096) (t ||| 7)).walk x = some a :=
    fun x a hx => walk_addTable hno hunused hx
  have hphys : ∀ x, s.Unused (x / 4096) → s.NotNext (x / 4096) →
      ((s.setPoolBit .kernel k true).addTable v (t.toNat / 4096) (t ||| 7)).phys x = s.phys x := by
    intro x hx hxn
    rw [addTable_of_ne (hnext _ hxn).symm]
    exact Mmu.setEntry_of_ne (by omega) hx.1.symm
  have hframe :
      Mmu.frame (((s.setPoolBit .kernel k true).addTable v (t.toNat / 4096) (t ||| 7)).pdeOf v)
      = t.toNat / 4096 := by
    rw [hpdeOf, Mmu.frame_or_flags halign]
  have hbooks : ((s.setPoolBit .kernel k true).addTable v (t.toNat / 4096) (t ||| 7)).userPool
      = s.userPool
      ∧ ((s.setPoolBit .kernel k true).addTable v (t.toNat / 4096) (t ||| 7)).cur = s.cur :=
          ⟨rfl, rfl⟩
  have hrun := @addTable_exec s v h hno .kernel k t halign
  generalize (s.setPoolBit .kernel k true).addTable v (t.toNat / 4096) (t ||| 7) = s1 at *
  refine ⟨s1.setPhys (Mmu.setEntry s1.phys (Mmu.frame (s1.pdeOf v)) (v.toNat / 4096 % 1024)
    (p ||| 7)), ?_,
    hasEntry_setEntry hself htable hentry, ?_, ?_, hbooks.1, hbooks.2⟩
  . unfold pageTableAdd
    rw [exec_bind (readWord_exec h.walk_pdePtr), if_neg (not_not.mpr hpde), exec_bind halloc,
      Option.getD_some, ← bind_assoc, exec_bind hrun]
    exact setPte_exec hself htable hentry
  . intro x a hx
    exact Mmu.walk_setEntry (hkeep x a hx) (Nat.mod_lt _ (by omega)) hentry
  . intro x hx hxn
    rw [← hphys x hx hxn]
    apply Mmu.setEntry_of_ne (Nat.mod_lt _ (by omega))
    rw [hframe]
    exact (hnext _ hxn).symm

end NewTable

section Main

theorem pageTableAdd_exec (h : s.SelfMapped) (hun : s.walk v = none)
    (hfresh : Mmu.present (s.pdeOf v) = false → s.FreshTable)
    (htable : Mmu.present (s.pdeOf v) = true ∨ s.kernelPool.poolBitmap.HasClear)
    : ∃ t, (pageTableAdd v p).run s = .ok ((), t) ∧ Added s t v p := by
  cases hpde : Mmu.present (s.pdeOf v) with
  | true => exact pageTableAdd_of_table h hpde hun
  | false =>
    have hclear := htable.resolve_left (by rw [hpde]; exact Bool.false_ne_true)
    obtain ⟨k, hk, halloc⟩ := @palloc_exec s .kernel hclear
    exact pageTableAdd_of_no_table h hpde hk (hfresh hpde) halloc

theorem pageTableAdd_full (h : s.SelfMapped) (hpde : Mmu.present (s.pdeOf v) = false)
    (hfull : ¬ s.kernelPool.poolBitmap.HasClear) : (pageTableAdd v p).run s = .error .panic := by
  have hword : s.phys.word (4096 * Mmu.frame s.cr3 + 4 * (v.toNat / 4194304)) &&& 1 = 0 :=
    Mmu.and_one_eq_zero.mpr hpde
  unfold pageTableAdd
  rw [exec_bind (readWord_exec h.walk_pdePtr), if_neg (not_not.mpr hword), StateT.run_bind,
    @palloc_full s .kernel hfull]
  rfl

/--
Through a directory that refers to itself, `pte_ptr` and `pde_ptr` give the entries of an address.
`page_table_add` maps an unmapped page and no other; it returns if there is a table or a frame for
it.
-/
theorem recursive_access (h : s.SelfMapped)
    : (∀ v, Mmu.present (s.pdeOf v) = true → s.Pointers v)
        ∧ ∀ v p, v.toNat % 4096 = 0 → p.toNat % 4096 = 0 → s.walk v = none →
          (Mmu.present (s.pdeOf v) = false → s.FreshTable) →
            (∀ r, (pageTableAdd v p).run s = .ok r → Maps s r.2 v p)
              ∧ (Mmu.present (s.pdeOf v) = true ∨ s.kernelPool.poolBitmap.HasClear →
                Cmd.Succeeds (pageTableAdd v p) s) := by
  refine ⟨fun v hp => h.pointers hp, ?_⟩
  intro v p hv hp hun hfresh
  constructor
  . intro r hrun
    have htable : Mmu.present (s.pdeOf v) = true ∨ s.kernelPool.poolBitmap.HasClear := by
      by_contra hno
      rw [not_or, Bool.not_eq_true] at hno
      rw [pageTableAdd_full h hno.1 hno.2] at hrun
      contradiction
    obtain ⟨t, ht, hadd⟩ := @pageTableAdd_exec s v p h hun hfresh htable
    rw [ht] at hrun
    cases hrun
    exact hadd.entry.maps hv hp fun w _ a hw => hadd.keep w a hw
  . intro htable
    obtain ⟨t, ht, -⟩ := @pageTableAdd_exec s v p h hun hfresh htable
    exact succeeds_of_run ht

def bootedPaging : Paging := memPoolInit 0x2000000 bootPaging

theorem selfMapped_bootedPaging : bootedPaging.SelfMapped := boot_bootPaging.dir.self

theorem freshTable_bootedPaging : bootedPaging.FreshTable := by
  have h0 :
      FirstClear bootedPaging.kernelPool.poolBitmap.bits
      bootedPaging.kernelPool.poolBitmap.btmpBytesLen 0 :=
    ⟨by decide, by decide, fun c hc => absurd hc (Nat.not_lt_zero c)⟩
  intro k hk
  rw [hk.unique h0]
  refine ⟨by decide, by decide, ?_⟩
  intro i hi _
  have hlow := @frame_dirWord_lt 0x100 0x200 i (by decide) (by decide) (by decide) hi
  rw [show Mmu.entry bootedPaging.phys (Mmu.frame bootedPaging.cr3) i
    = dirWord 0x100 i from entry_tableWords (.inl rfl) hi]
  exact Nat.ne_of_lt hlow

theorem recursive_access_boot
    : ∃ t, (pageTableAdd 0x8048000 0x1100000).run bootedPaging = .ok ((), t)
        ∧ Maps bootedPaging t 0x8048000 0x1100000 := by
  obtain ⟨hmaps, hreturns⟩ := (recursive_access selfMapped_bootedPaging).2 0x8048000 0x1100000
    (by decide) (by decide)
    (by decide) (fun _ => freshTable_bootedPaging)
  obtain ⟨r, hrun⟩ := hreturns (.inr ⟨0, by decide, by decide⟩)
  exact ⟨r.2, hrun, hmaps r hrun⟩

end Main

end Paging

end RogOS
