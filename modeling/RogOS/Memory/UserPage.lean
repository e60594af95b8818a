import RogOS.Memory.PageTable

/-!
`get_a_page` for a user process: which pages it serves, and what it does with addresses that are not
in the range of the bitmap of the process.
-/

namespace RogOS

namespace Paging

open Cmd

variable {s s' : Paging} {v p : UInt32} {i k a : Nat}

def InUserRange (v : UInt32) : Prop := 0x8048000 ≤ v.toNat ∧ v.toNat < 0xc0000000

instance (v : UInt32) : Decidable (InUserRange v) := inferInstanceAs (Decidable (_ ∧ _))

def bitIdx (v : UInt32) : Nat := ((v - 0x8048000) / 4096).toNat

def bitmapByte (s : Paging) (k : Nat) : UInt32 := s.cur.bits + UInt32.ofNat k

/--
A process with its directory. The bitmap, as `create_user_vaddr_bitmap` makes it, is in pages that
are neither tables nor frames that are free; the next frames are pages that are not in use.
-/
structure UserTask (s : Paging) : Prop where
  pgdir : s.cur.pgdir ≠ 0
  vaddrStart : s.cur.vaddrStart = 0x8048000
  btmpBytesLen : s.cur.btmpBytesLen = (0xc0000000 - 0x8048000) / 4096 / 8
  self : s.SelfMapped
  bitmap : ∀ k < s.cur.btmpBytesLen, ∃ a, s.walk (s.bitmapByte k) = some a ∧ s.Unused (a / 4096)
    ∧ s.NotNext (a / 4096)
  inj : ∀ k < s.cur.btmpBytesLen, ∀ l < s.cur.btmpBytesLen, s.walk (s.bitmapByte k)
    = s.walk (s.bitmapByte l) → k = l
  table : s.FreshTable
  frame : ∀ k, FirstClear s.userPool.poolBitmap.bits s.userPool.poolBitmap.btmpBytesLen k →
    (s.userPool.phyAddrStart + UInt32.ofNat k * 4096).toNat % 4096 = 0

def getAPage.mark (pf : PoolFlags) (vaddr : UInt32) : PagingM Unit := do
  let s ← get
  if s.cur.pgdir ≠ 0 ∧ pf = .user then
    let bitIdx := (vaddr - s.cur.vaddrStart) / 4096
    Cmd.assert .panic (0 < bitIdx)
    userBitmapSet bitIdx.toNat true
  else if s.cur.pgdir = 0 ∧ pf = .kernel then
    let bitIdx := (vaddr - s.kernelVaddr.vaddrStart) / 4096
    Cmd.assert .panic (0 < bitIdx)
    kernelBitmapSet bitIdx.toNat 1 true
  else
    throw .panic

theorem getAPage_eq {pf : PoolFlags}
    : getAPage pf v = getAPage.mark pf v >>= fun _ => getAPageWithoutOpvaddrbitmap pf v := by
  unfold getAPage getAPage.mark getAPageWithoutOpvaddrbitmap
  rw [bind_assoc]
  congr 1
  funext t
  split
  . rw [bind_assoc]
  . split
    . rw [bind_assoc]
    . rfl

def Passes (s : Paging) (v : UInt32) (s' : Paging) : Prop :=
  (getAPage.mark .user v).run s = .ok ((), s')
    ∨ (∃ o, (getAPage.mark .user v >>= fun _ => palloc .user).run s = .ok (o, s'))
    ∨ ∃ o, (getAPage .user v).run s = .ok (o, s')

/--
The page is mapped to a free frame, and the bitmap has its bit, and no other one that it did not
have.
-/
structure Served (s s' : Paging) (v : UInt32) : Prop where
  frame : ∃ k, FirstClear s.userPool.poolBitmap.bits s.userPool.poolBitmap.btmpBytesLen k
    ∧ s'.userPool.poolBitmap.bits = s.userPool.poolBitmap.bits.setBit k true
    ∧ ∀ off < 4096, s'.walk (v + UInt32.ofNat off)
        = some ((s.userPool.phyAddrStart + UInt32.ofNat k * 4096).toNat + off)
  bit : ∀ i < 8 * s.cur.btmpBytesLen,
    s'.userBitmap.bits.bit i = if i = bitIdx v then true else s.userBitmap.bits.bit i

structure GetsPage (s : Paging) (v : UInt32) : Prop where
  inside : InUserRange v → s.walk v = none → s.userPool.poolBitmap.HasClear →
    ∃ s', (getAPage .user v).run s = .ok (some v, s') ∧ Served s s' v
  outside : ¬ InUserRange v → ∀ s', Passes s v s' → s'.phys = s.phys ∧ s'.books = s.books

def BitIsSet (s : Paging) (v : UInt32) : Prop :=
  ∃ a, s.walk (s.bitmapByte (bitIdx v / 8)) = some a ∧ s.phys.bit (8 * a + bitIdx v % 8) = true

section Index

theorem bitIdx_eq : bitIdx v = (2 ^ 32 - 0x8048000 + v.toNat) % 2 ^ 32 / 4096 := by
  unfold bitIdx
  rw [UInt32.toNat_div, UInt32.toNat_sub]
  rfl

theorem bitIdx_lt (h : InUserRange v) : bitIdx v < 8 * ((0xc0000000 - 0x8048000) / 4096 / 8) := by
  obtain ⟨hge, hlt⟩ := h
  rw [bitIdx_eq]
  omega

theorem bitIdx_ge (h : ¬ InUserRange v) : 8 * ((0xc0000000 - 0x8048000) / 4096 / 8) ≤ bitIdx v := by
  have hv := v.toNat_lt
  unfold InUserRange at h
  rw [bitIdx_eq]
  omega

theorem bitIdx_pos_iff (hv : v.toNat % 4096 = 0) : 0 < bitIdx v ↔ v ≠ 0x8048000 := by
  have hlt := v.toNat_lt
  rw [bitIdx_eq, ne_eq, ← UInt32.toNat_inj]
  show _ ↔ ¬ v.toNat = 134512640
  omega

end Index

section Mark

def marked (s : Paging) (v : UInt32) (a : Nat)
    : Paging := s.setPhys (s.phys.setBit (8 * a + bitIdx v % 8) true)

theorem mark_run (h : s.UserTask)
    : (getAPage.mark .user v).run s
        =
      if 0 < bitIdx v then
        match s.walk (s.bitmapByte (bitIdx v / 8)) with
        | some a => .ok ((), s.marked v a)
        | none => .error .badPtr
      else
        .error .panic := by
  have hidx : ((v - s.cur.vaddrStart) / 4096).toNat = bitIdx v := by
    rw [h.vaddrStart]
    rfl
  have hpos : 0 < (v - s.cur.vaddrStart) / 4096 ↔ 0 < bitIdx v := by
    rw [UInt32.lt_iff_toNat_lt, hidx]
    rfl
  unfold getAPage.mark
  rw [exec_get_bind, if_pos ⟨h.pgdir, rfl⟩]
  dsimp only
  rw [exec_assert_bind, hidx]
  by_cases h0 : 0 < bitIdx v
  . rw [if_pos (hpos.mpr h0), if_pos h0]
    unfold userBitmapSet
    rw [exec_get_bind]
    cases hwalk : s.walk (s.bitmapByte (bitIdx v / 8)) with
    | some a =>
      change (translate (s.bitmapByte (bitIdx v / 8)) >>= _).run s = _
      rw [exec_bind (translate_exec hwalk)]
      rfl
    | none =>
      have hfail : (translate (s.bitmapByte (bitIdx v / 8))).run s = .error .badPtr := by
        unfold translate
        rw [exec_get_bind, hwalk]
        rfl
      change (translate (s.bitmapByte (bitIdx v / 8)) >>= _).run s = _
      rw [StateT.run_bind, hfail]
      rfl
  . rw [if_neg (fun hp => h0 (hpos.mp hp)), if_neg h0]

theorem UserTask.mark_pos (h : s.UserTask) (h0 : 0 < bitIdx v)
    (hwalk : s.walk (s.bitmapByte (bitIdx v / 8)) = some a)
    : (getAPage.mark .user v).run s = .ok ((), s.marked v a) := by
  rw [mark_run h, if_pos h0, hwalk]

end Mark

section Frame

variable {f : Nat} {m : Mem}

theorem dirEntry_of_unused (hf : s.Unused f) (hsame : ∀ x, x / 4096 ≠ f → m x = s.phys x)
    (hi : i < 1024)
    : Mmu.entry m (Mmu.frame s.cr3) i = Mmu.entry s.phys (Mmu.frame s.cr3) i := by
  apply Mmu.entry_congr hi
  intro x hx
  apply hsame
  rw [hx]
  exact hf.1

theorem walk_of_unused (hf : s.Unused f) (hsame : ∀ x, x / 4096 ≠ f → m x = s.phys x) {x : UInt32}
    : (s.setPhys m).walk x = s.walk x := by
  have hx := x.toNat_lt
  by_cases hp : Mmu.present (Mmu.entry s.phys (Mmu.frame s.cr3) (x.toNat / 4194304)) = true
  . exact Mmu.walk_of_same hf.1 (hf.2 _ (by omega) hp) hsame
  . unfold walk Mmu.walk
    dsimp only [setPhys]
    rw [dirEntry_of_unused hf hsame (by omega), if_neg hp, if_neg hp]

theorem Unused.setPhys {g : Nat} (hg : s.Unused g) (hf : s.Unused f)
    (hsame : ∀ x, x / 4096 ≠ f → m x = s.phys x)
    : (s.setPhys m).Unused g := by
  refine ⟨hg.1, ?_⟩
  intro i hi hp
  have hentry : Mmu.entry (s.setPhys m).phys (Mmu.frame (s.setPhys m).cr3) i
      = Mmu.entry s.phys (Mmu.frame s.cr3) i :=
    dirEntry_of_unused hf hsame hi
  rw [hentry] at hp ⊢
  exact hg.2 i hi hp

theorem marked_of_ne {x : Nat} (hx : x / 4096 ≠ a / 4096) : (s.marked v a).phys x = s.phys x := by
  apply if_neg
  intro heq
  apply hx
  omega

theorem userBit_eq (h : s.walk (s.bitmapByte (i / 8)) = some a)
    : s.userBitmap.bits.bit i = s.phys.bit (8 * a + i % 8) := by
  have hvirt : s.userBitmap.bits (i / 8) = s.phys a := by
    show s.virt (s.cur.bits.toNat + i / 8) = _
    unfold virt
    rw [UInt32.ofNat_add, UInt32.ofNat_toNat, show s.cur.bits + UInt32.ofNat (i / 8)
      = s.bitmapByte (i / 8) from rfl, h]
  unfold Mem.bit
  rw [hvirt, show (8 * a + i % 8) / 8 = a by omega, show (8 * a + i % 8) % 8 = i % 8 by omega]

end Frame

section Inside

structure Ready (s : Paging) (v : UInt32) (a k : Nat) : Prop where
  byte : s.walk (s.bitmapByte (bitIdx v / 8)) = some a
  unused : s.Unused (a / 4096)
  first : FirstClear s.userPool.poolBitmap.bits s.userPool.poolBitmap.btmpBytesLen k

def taken (s : Paging) (v : UInt32) (a k : Nat) : Paging := (s.marked v a).setPoolBit .user k true

variable (h : s.UserTask) (hr : s.Ready v a k)

include hr

theorem Ready.walk {x : UInt32} : (s.taken v a k).walk x = s.walk x :=
  walk_of_unused hr.unused fun _ hx => marked_of_ne hx

theorem Ready.pdeOf : (s.taken v a k).pdeOf v = s.pdeOf v := by
  have hlt := v.toNat_lt
  exact dirEntry_of_unused hr.unused (fun _ hx => marked_of_ne hx) (by omega)

include h

theorem Ready.self
    : (s.taken v a k).SelfMapped := Mmu.SelfMap.of_same h.self hr.unused.1 fun _ hx =>
        marked_of_ne hx

theorem Ready.fresh : (s.taken v a k).FreshTable := by
  intro j hj
  obtain ⟨halign, hunused⟩ := h.table j hj
  exact ⟨halign, hunused.setPhys hr.unused fun _ hx => marked_of_ne hx⟩

theorem getAPage_run (hpos : 0 < bitIdx v)
    : (getAPage .user v).run s
        =
      (pageTableAdd v (s.userPool.phyAddrStart + UInt32.ofNat k * 4096) >>= fun _ =>
        pure (some v)).run (s.taken v a k) := by
  obtain ⟨j, hj, halloc⟩ := @palloc_exec (s.marked v a) .user ⟨k, hr.first.lt, hr.first.clear⟩
  have hjk : j = k := hj.unique hr.first
  subst hjk
  rw [getAPage_eq, exec_bind (h.mark_pos hpos hr.byte)]
  unfold getAPageWithoutOpvaddrbitmap
  rw [exec_bind halloc]
  rfl

theorem Ready.served {t : Paging} (hv : v.toNat % 4096 = 0) (hrange : InUserRange v)
    (hadd : Added (s.taken v a k) t v (s.userPool.phyAddrStart + UInt32.ofNat k * 4096))
    : Served s t v where
  frame := by
    refine ⟨k, hr.first, ?_, ?_⟩
    . rw [hadd.userPool]
      rfl
    . intro off ho
      exact hadd.entry.walk hv (h.frame k hr.first) ho
  bit := by
    intro i hi
    obtain ⟨b, hb, hunused, hnext⟩ := h.bitmap (i / 8) (by omega)
    have hbyte : t.walk (t.bitmapByte (i / 8)) = some b := by
      unfold bitmapByte
      rw [hadd.cur]
      exact hadd.keep _ _ ((hr.walk).trans hb)
    have hphys : t.phys b = (s.marked v a).phys b := by
      apply hadd.phys
      . exact hunused.setPhys hr.unused fun _ hx => marked_of_ne hx
      . exact hnext
    have hsame : t.phys.bit (8 * b + i % 8) = (s.marked v a).phys.bit (8 * b + i % 8) := by
      unfold Mem.bit
      rw [show (8 * b + i % 8) / 8 = b by omega, hphys]
    have hiff : 8 * a + bitIdx v % 8 = 8 * b + i % 8 ↔ i = bitIdx v := by
      constructor
      . intro heq
        have hab : a = b := by omega
        have hlt := bitIdx_lt hrange
        have hlen := h.btmpBytesLen
        have hidx := h.inj (bitIdx v / 8) (by omega) (i / 8) (by omega) (by rw [hr.byte, hb, hab])
        omega
      . rintro rfl
        rw [hr.byte] at hb
        cases hb
        rfl
    rw [userBit_eq hbyte, userBit_eq hb, hsame]
    show (s.phys.setBit (8 * a + bitIdx v % 8) true).bit (8 * b + i % 8) = _
    rw [Mem.bit_setBit]
    exact if_congr hiff rfl rfl

end Inside

section Outside

theorem not_passes_of_error {e : Fault} (h : (getAPage.mark .user v).run s = .error e)
    : ¬ Passes s v s' := by
  rintro (hrun | ⟨o, hrun⟩ | ⟨o, hrun⟩)
  . rw [h] at hrun
    contradiction
  . rw [StateT.run_bind, h] at hrun
    contradiction
  . rw [getAPage_eq, StateT.run_bind, h] at hrun
    contradiction

theorem passes_full (h : (getAPage.mark .user v).run s = .ok ((), s'))
    (hfull : ¬ s'.userPool.poolBitmap.HasClear) {t : Paging} (ht : Passes s v t) : t = s' := by
  have hpalloc : (palloc .user).run s' = .error .panic := @palloc_full s' .user hfull
  obtain hrun | ⟨o, hrun⟩ | ⟨o, hrun⟩ := ht
  . rw [h] at hrun
    cases hrun
    rfl
  . rw [exec_bind h, hpalloc] at hrun
    contradiction
  . rw [getAPage_eq, exec_bind h] at hrun
    unfold getAPageWithoutOpvaddrbitmap at hrun
    rw [StateT.run_bind, hpalloc] at hrun
    contradiction

theorem setBit_of_bit {m : Mem} {j : Nat} (h : m.bit j = true) : m.setBit j true = m := by
  apply Mem.eq_of_bits
  intro l
  rw [Mem.bit_setBit]
  split
  . next hjl => rw [← hjl, h]
  . rfl

end Outside

section Main

def Serves (s : Paging) (v : UInt32) : Prop :=
  if InUserRange v then
    s.walk v = none → s.userPool.poolBitmap.HasClear →
      v ≠ 0x8048000 ∧ (Mmu.present (s.pdeOf v) = true ∨ s.kernelPool.poolBitmap.HasClear)
  else
    s.walk (s.bitmapByte (bitIdx v / 8)) = none ∨ (s.BitIsSet v ∧ ¬ s.userPool.poolBitmap.HasClear)

variable (h : s.UserTask)

include h

theorem UserTask.ready (hrange : InUserRange v) (hclear : s.userPool.poolBitmap.HasClear)
    : ∃ a k, s.Ready v a k := by
  have hlt := bitIdx_lt hrange
  have hlen := h.btmpBytesLen
  obtain ⟨a, ha, hunused, -⟩ := h.bitmap (bitIdx v / 8) (by omega)
  obtain ⟨k, hk, -⟩ := @palloc_exec s .user hclear
  exact ⟨a, k, ha, hunused, hk⟩

theorem served_iff (hv : v.toNat % 4096 = 0) (hrange : InUserRange v) (hun : s.walk v = none)
    (hclear : s.userPool.poolBitmap.HasClear)
    : (∃ s', (getAPage .user v).run s = .ok (some v, s') ∧ Served s s' v)
        ↔
      v ≠ 0x8048000 ∧ (Mmu.present (s.pdeOf v) = true ∨ s.kernelPool.poolBitmap.HasClear) := by
  obtain ⟨a, k, hr⟩ := h.ready hrange hclear
  rw [← bitIdx_pos_iff hv]
  constructor
  . rintro ⟨s', hrun, -⟩
    have hpos : 0 < bitIdx v := by
      by_contra h0
      rw [getAPage_eq, StateT.run_bind, mark_run h, if_neg h0] at hrun
      contradiction
    refine ⟨hpos, ?_⟩
    by_contra hno
    rw [not_or, Bool.not_eq_true, ← hr.pdeOf] at hno
    rw [getAPage_run h hr hpos, StateT.run_bind, pageTableAdd_full (hr.self h) hno.1 hno.2] at hrun
    contradiction
  . rintro ⟨hpos, htable⟩
    rw [← hr.pdeOf] at htable
    obtain ⟨t, hrun, hadd⟩ :=
      @pageTableAdd_exec _ v (s.userPool.phyAddrStart + UInt32.ofNat k * 4096) (hr.self h)
      (hr.walk.trans hun) (fun _ => hr.fresh h) htable
    refine ⟨t, ?_, hr.served h hv hrange hadd⟩
    rw [getAPage_run h hr hpos, exec_bind hrun]
    rfl

theorem untouched_iff (hrange : ¬ InUserRange v)
    : (∀ s', Passes s v s' → s'.phys = s.phys ∧ s'.books = s.books)
        ↔
      s.walk (s.bitmapByte (bitIdx v / 8)) = none
        ∨ (s.BitIsSet v ∧ ¬ s.userPool.poolBitmap.HasClear) := by
  have hge := bitIdx_ge hrange
  have hpos : 0 < bitIdx v := by omega
  cases hwalk : s.walk (s.bitmapByte (bitIdx v / 8)) with
  | none =>
    have hmark : (getAPage.mark .user v).run s = .error .badPtr := by
      rw [mark_run h, if_pos hpos, hwalk]
    exact iff_of_true (fun s' hs => absurd hs (not_passes_of_error hmark)) (.inl rfl)
  | some a =>
    have hmark := h.mark_pos hpos hwalk
    constructor
    . intro hsame
      have hbit : s.phys.bit (8 * a + bitIdx v % 8) = true := by
        rw [← (hsame _ (.inl hmark)).1]
        exact (Mem.bit_setBit true).trans (if_pos rfl)
      refine .inr ⟨⟨a, hwalk, hbit⟩, ?_⟩
      intro hclear
      obtain ⟨k, hk, halloc⟩ := @palloc_exec (s.marked v a) .user hclear
      have hbooks := (hsame _ (.inr (.inl ⟨_, (exec_bind hmark).trans halloc⟩))).2
      have hpool : (s.userPool.poolBitmap.bits.setBit k true) = s.userPool.poolBitmap.bits :=
        congrArg (fun b => b.2.1.poolBitmap.bits) hbooks
      have hset : (s.userPool.poolBitmap.bits.setBit k true).bit k = true :=
        (Mem.bit_setBit true).trans (if_pos rfl)
      rw [hpool, show s.userPool.poolBitmap.bits.bit k = false from hk.clear] at hset
      contradiction
    . rintro (hnone | ⟨⟨b, hb, hbit⟩, hfull⟩) s' hs
      . contradiction
      . rw [hwalk] at hb
        cases hb
        rw [passes_full hmark hfull hs]
        exact ⟨setBit_of_bit hbit, rfl⟩

/--
`get_a_page` serves every page of the range but the first one; outside of the range it sets a bit
behind the bitmap if it can.
-/
theorem getsPage_iff (hv : v.toNat % 4096 = 0) : GetsPage s v ↔ Serves s v := by
  unfold Serves
  split
  . next hrange =>
    constructor
    . intro hg hun hclear
      exact (served_iff h hv hrange hun hclear).mp (hg.inside hrange hun hclear)
    . intro hs
      exact ⟨fun _ hun hclear => (served_iff h hv hrange hun hclear).mpr (hs hun hclear), fun hno =>
        absurd hrange hno⟩
  . next hrange =>
    constructor
    . intro hg
      exact (untouched_iff h hrange).mp (hg.outside hrange)
    . intro hs
      exact ⟨fun hin => absurd hin hrange, fun _ => (untouched_iff h hrange).mpr hs⟩

end Main

section Witness

def firstProcess : Paging where
  phys := Mem.ofWords (tableWords 0x210 40)
  cr3 := 0x210000
  kernelPool := ⟨⟨1000, fun i => if i < 5 then 0xff else 0⟩, 0x200000⟩
  userPool := ⟨⟨1000, Mem.zero⟩, 0x1000000⟩
  kernelVaddr := ⟨⟨1000, fun i => if i < 5 then 0xff else 0⟩, 0xc0100000⟩
  cur := ⟨0xc0110000, 0x8048000, 94199, 0xc0111000⟩

theorem firstProcess_walk {k : Nat} (hk : k < 94199)
    : firstProcess.walk (firstProcess.bitmapByte k) = some (0x211000 + k) := by
  have hbyte : (firstProcess.bitmapByte k).toNat = 0xc0111000 + k := by
    show ((0xc0111000 : UInt32) + UInt32.ofNat k).toNat = _
    rw [UInt32.toNat_add, UInt32.toNat_ofNat']
    show (0xc0111000 + k % 2 ^ 32) % 2 ^ 32 = _
    omega
  have hpde : Mmu.entry firstProcess.phys (Mmu.frame firstProcess.cr3)
      ((firstProcess.bitmapByte k).toNat / 4194304)
      = 0x101000 ||| 7 := by
    rw [hbyte, show (0xc0111000 + k) / 4194304 = 768 by omega]
    exact entry_ofWords.trans (by decide)
  have hpte : Mmu.entry firstProcess.phys 0x101 ((firstProcess.bitmapByte k).toNat / 4096 % 1024)
      = UInt32.ofNat ((0x211 + k / 4096) * 4096) ||| 7 := by
    rw [hbyte, show (0xc0111000 + k) / 4096 % 1024 = 273 + k / 4096 by omega]
    refine entry_ofWords.trans ?_
    have hpage : (1024 * 0x101 + (273 + k / 4096)) / 1024 = 0x101 := by omega
    have hslot : 1024 * 0x101 + (273 + k / 4096) - 0x101 * 1024 = 273 + k / 4096 := by omega
    have haddr : 0x200000 + (273 + k / 4096 - 256) * 4096 = (0x211 + k / 4096) * 4096 := by omega
    rw [tableWords, hpage, hslot, if_neg (by decide), if_pos (by decide), kernelWord,
      if_neg (by omega), if_pos (by omega), haddr]
  have htable : Mmu.frame (0x101000 ||| 7) = 0x101 := rfl
  have haddr := @toNat_page_or (0x211 + k / 4096) (by omega)
  unfold walk
  rw [Mmu.walk_eq_some, hpde, htable, hpte, Mmu.frame_or_flags (by omega)]
  refine ⟨rfl, Mmu.present_or_flags (by omega), ?_⟩
  omega

theorem firstProcess_unused {f : Nat} (hf : 0x211 ≤ f) : firstProcess.Unused f := by
  have hlow : ∀ i < 1024, Mmu.frame (Mmu.entry firstProcess.phys (Mmu.frame firstProcess.cr3) i)
      < 0x211 := by
    intro i hi
    rw [show Mmu.entry firstProcess.phys (Mmu.frame firstProcess.cr3) i
      = dirWord 0x210 i from entry_tableWords (.inr rfl) hi]
    exact frame_dirWord_lt (by decide) (by decide) (by decide) hi
  constructor
  . show 0x210 ≠ f
    omega
  . intro i hi _
    have := hlow i hi
    omega

theorem firstClear_firstProcess
    : FirstClear firstProcess.kernelPool.poolBitmap.bits
        firstProcess.kernelPool.poolBitmap.btmpBytesLen 40 :=
  ⟨by decide, by decide, by decide⟩

theorem userTask_firstProcess : firstProcess.UserTask where
  pgdir := by decide
  vaddrStart := rfl
  btmpBytesLen := rfl
  self := (kernelDir_tableWords (.inr rfl) (by decide)).self
  bitmap := by
    intro k hk
    have hk' : k < 94199 := hk
    refine ⟨_, firstProcess_walk hk', firstProcess_unused (by omega), ?_⟩
    intro j hj
    rw [hj.unique firstClear_firstProcess]
    show 0x228 ≠ (0x211000 + k) / 4096
    omega
  inj := by
    intro k hk l hl heq
    rw [firstProcess_walk hk, firstProcess_walk hl, Option.some.injEq] at heq
    omega
  table := by
    intro j hj
    rw [hj.unique firstClear_firstProcess]
    exact ⟨by decide, firstProcess_unused (by decide)⟩
  frame := by
    intro k hk
    have h0 :
        FirstClear firstProcess.userPool.poolBitmap.bits
        firstProcess.userPool.poolBitmap.btmpBytesLen 0 :=
      ⟨by decide, by decide, fun c hc => absurd hc (Nat.not_lt_zero c)⟩
    rw [hk.unique h0]
    decide

theorem hasClear_firstProcess
    : firstProcess.userPool.poolBitmap.HasClear := ⟨0, by decide, by decide⟩

theorem getsPage_firstProcess
    : GetsPage firstProcess 0x8049000
      ∧ ∃ s', (getAPage .user 0x8049000).run firstProcess = .ok (some 0x8049000, s')
          ∧ Served firstProcess s' 0x8049000 := by
  have hserves : Serves firstProcess 0x8049000 := by
    rw [Serves, if_pos (by decide)]
    exact fun _ _ => ⟨by decide, .inr ⟨40, by decide, by decide⟩⟩
  have hgets := (getsPage_iff userTask_firstProcess (by decide)).mpr hserves
  exact ⟨hgets, hgets.inside (by decide) (by decide +kernel) hasClear_firstProcess⟩

/-- The first page of the range is not. -/
theorem not_getsPage_firstProcess
    : ¬ ∀ (s : Paging) (v : UInt32), s.UserTask → v.toNat % 4096 = 0 → GetsPage s v := by
  intro hall
  have hin := (hall firstProcess 0x8048000 userTask_firstProcess (by decide)).inside (by decide)
    (by decide)
    hasClear_firstProcess
  exact ((served_iff userTask_firstProcess (by decide) (by decide)
    (by decide) hasClear_firstProcess).mp hin).1 rfl

end Witness

end Paging

end RogOS
