import RogOS.Memory.Lemmas.Free

/-!
The heap as a system of steps: one task allocates, frees what it allocated and writes to it.
-/

namespace RogOS

structure HeapRun where
  heap : Heap
  live : List (Nat × Nat)

inductive HeapCall where
  | malloc (grant : Option Nat) (size : UInt32)
  | free (ptr : Nat)
  | store (addr : Nat) (byte : UInt8)

def onHeap {α : Type} (x : HeapM α)
    : Cmd Fault HeapRun α := Cmd.zoom HeapRun.heap (fun r h => { r with heap := h }) x

def HeapCall.exec (env : HeapEnv) : HeapCall → Cmd Fault HeapRun Nat
  | .malloc grant size => do
    let ptr ← onHeap (sysMalloc env grant size)
    if ptr ≠ 0 then
      modify fun r => { r with live := (ptr, size.toNat) :: r.live }
    pure ptr
  | .free ptr => do
    onHeap (sysFree env ptr)
    modify fun r => { r with live := without r.live ptr }
    pure 0
  | .store addr byte => do
    onHeap (modifyMem fun m => Function.update m addr byte)
    pure 0

def mallocPages (size : UInt32) : Nat := if 1024 < size then (largePages size).toNat else 1

def HeapRun.Valid (lo hi : Nat) (r : HeapRun) : HeapCall → Prop
  | .malloc grant size => ∀ g, grant = some g → FreshPages lo hi r.heap g (mallocPages size)
  | .free ptr => ptr ∈ ptrs r.live
  | .store addr _ => ∃ p s, (p, s) ∈ r.live ∧ p ≤ addr ∧ addr < p + s

variable {D lo hi i p s : Nat} {K : Arenas} {free : Nat → List Nat} {live : List (Nat × Nat)}
  {env : HeapEnv}
  {h h' : Heap} {m : Mem} {size : UInt32} {grant : Option Nat} {r r' : HeapRun} {other : Nat → Prop}

section Malloc

theorem poolSize_lt : env.poolSize.toNat < 2 ^ 28 := by
  have hpages : ∀ x : UInt16, (x.toUInt32 * 4096).toNat < 2 ^ 28 := by
    intro x
    have := x.toNat_lt
    rw [UInt32.toNat_mul, UInt16.toNat_toUInt32]
    simp only [UInt32.reduceToNat]
    omega
  exact hpages _

def sizeClass (size : UInt32) : (n idx : Nat) → Nat
  | 0, idx => idx
  | n + 1, idx => if size.toNat ≤ blockSize idx then idx else sizeClass size n (idx + 1)

theorem findDesc_eq {n idx : Nat} (hl : Lists D K free m) (hn : idx + n = 7)
    : findDesc m D size n idx = sizeClass size n idx := by
  induction n generalizing idx with
  | zero => rfl
  | succ n ih =>
    have hword : (m.word (D + descSize * idx)).toNat = blockSize idx := by
      have hw := hl.size idx (by omega)
      unfold descAt at hw
      rw [hw, toNat_ofNat_blockSize (by omega)]
    have hle : size ≤ m.word (D + descSize * idx) ↔ size.toNat ≤ blockSize idx := by
      rw [UInt32.le_iff_toNat_le, hword]
    rw [findDesc, sizeClass, ih (by omega)]
    exact if_congr hle rfl rfl

theorem sizeClass_spec {n idx : Nat} (hsize : size.toNat ≤ 1024) (hn : idx + n = 7) (hpos : 0 < n)
    : sizeClass size n idx < 7 ∧ size.toNat ≤ blockSize (sizeClass size n idx) := by
  induction n generalizing idx with
  | zero => contradiction
  | succ n ih =>
    rw [sizeClass]
    split
    . next hle => exact ⟨by omega, hle⟩
    . next hgt =>
      by_cases hzero : n = 0
      . -- the last size is 1024
        have hidx : idx = 6 := by omega
        rw [hidx] at hgt
        have h6 : blockSize 6 = 1024 := rfl
        omega
      . exact ih (by omega) (by omega)

def blockExtent (m : Mem) (p : Nat) : Nat :=
  let a := block2arena p
  if m.word (a + 8) = 1 then 4096 * (m.word (a + 4)).toNat - arenaSize
    else (m.word (m.word a).toNat).toNat

def arenaPages (m : Mem) (a : Nat) : Nat := if m.word (a + 8) = 1 then (m.word (a + 4)).toNat else 1

theorem HeapInv.extent_large {q cnt : Nat} (hP : Place D lo hi)
    (hinv : HeapInv D lo hi other K free live h) (arena : K q = some (.large cnt))
    : blockExtent h.mem (4096 * q + 12) = 4096 * cnt - 12 ∧ arenaPages h.mem (4096 * q) = cnt := by
  have hheader := hinv.large q cnt arena
  have hcnt : (UInt32.ofNat cnt).toNat = cnt := by
    have hr := hinv.ok.range _ _ arena
    have := hP.highest
    simp only [Arena.pages] at hr
    rw [UInt32.toNat_ofNat']
    omega
  have harena : block2arena (4096 * q + 12) = 4096 * q := by
    unfold block2arena
    omega
  unfold blockExtent arenaPages
  simp only [harena, hheader.large, hheader.cnt, hcnt, ↓reduceIte, arenaSize, and_self]

theorem HeapInv.extent_small {q idx : Nat} (hP : Place D lo hi)
    (hinv : HeapInv D lo hi other K free live h) (arena : K q = some (.small i))
    (hidx : idx < blocksPerArena i)
    : blockExtent h.mem (blockAt q i idx) = blockSize i ∧ arenaPages h.mem (4096 * q) = 1 := by
  have hheader := hinv.small q i arena
  have hcls := hinv.ok.cls q i arena
  have hne : ¬ (0 : UInt32) = 1 := by decide
  unfold blockExtent arenaPages
  simp only [block2arena_blockAt hidx, hheader.large, hheader.desc, hne, ↓reduceIte,
    toNat_ofNat_desc hP hcls, hinv.lists.size i hcls, toNat_ofNat_blockSize hcls, and_self]

structure Granted (D lo hi : Nat) (other : Nat → Prop) (K : Arenas) (free : Nat → List Nat)
    (live : List (Nat × Nat)) (size p : Nat) (h h' : Heap) : Prop where
  pos : p ≠ 0
  inv : HeapInv D lo hi other K free ((p, size) :: live) h'
  used : ∀ q, K.Used ((p, size) :: live) q
  zero : ∀ a, p ≤ a → a < p + blockExtent h'.mem p → h'.mem a = 0
  frame : HeapFrame D lo hi other h.mem h'.mem

theorem Arenas.Used.cons {q : Nat} {b : Nat × Nat} (hused : K.Used live q)
    : K.Used (b :: live) q := by
  intro j hq
  obtain ⟨idx, hidx, hmem⟩ := hused j hq
  exact ⟨idx, hidx, List.mem_cons_of_mem _ hmem⟩

theorem takeBlock_granted {b : Nat} {l : List Nat} (hP : Place D lo hi)
    (hinv : HeapInv D lo hi other K free live h) (hcls : i < 7)
    (hfree : free i = b :: l) (hs : s ≤ blockSize i) (hused : ∀ q, q ≠ b / 4096 → K.Used live q)
    : ∃ h', (takeBlock (descAt D i)).run h = .ok (b, h')
        ∧ Granted D lo hi other K (Function.update free i l) live s b h h' := by
  obtain ⟨h', hrun, hinv', hzero, hframe⟩ := takeBlock_run hP hinv hcls hfree hs
  have hbmem : b ∈ free i := by
    rw [hfree]
    exact List.mem_cons_self
  obtain ⟨q, idx, arena, hidx, rfl⟩ := hinv.lists.mem_block hcls hbmem
  have hb := hinv.ok.block_bounds arena hidx
  have hlow := hP.lowest
  refine ⟨h', hrun, by omega, hinv', ?_, ?_, hframe⟩
  . intro q'
    by_cases hqq : q' = q
    . intro j hq'
      rw [hqq, arena, Option.some.injEq, Arena.small.injEq] at hq'
      subst hq'
      rw [hqq]
      exact ⟨idx, hidx, List.mem_cons_self⟩
    . rw [blockAt_div hidx] at hused
      exact (hused q' hqq).cons
  . intro a ha1 ha2
    rw [(hinv'.extent_small hP arena hidx).1] at ha2
    exact hzero a ha1 ha2

theorem newArena_keep (hinv : HeapInv D lo hi other K free live h) (hcls : i < 7)
    (hne : free i ≠ [])
    : (newArena grant (descAt D i)).run h = .ok (true, h) := by
  have hempty := (hinv.lists.lists i hcls).listEmpty_eq
  rw [newArena, Cmd.exec_get_bind, if_neg fun he => hne (hempty.mp he)]
  rfl

theorem newArena_none (hinv : HeapInv D lo hi other K free live h) (hcls : i < 7)
    (hnil : free i = [])
    : (newArena none (descAt D i)).run h = .ok (false, h) := by
  have hempty := (hinv.lists.lists i hcls).listEmpty_eq
  rw [newArena, Cmd.exec_get_bind, if_pos (hempty.mpr hnil)]
  rfl

theorem sysMalloc_small (hdescs : env.descs = D) (hinv : HeapInv D lo hi other K free live h)
    (hvalid : 0 < size ∧ size < env.poolSize) (hsize : size.toNat ≤ 1024)
    (hclass : sizeClass size 7 0 = i)
    : (sysMalloc env grant size).run h = (do
        if ← newArena grant (descAt D i) then takeBlock (descAt D i)
          else pure 0 : HeapM Nat).run h := by
  have hcls : i < 7 := by
    rw [← hclass]
    exact (sizeClass_spec hsize (Nat.zero_add 7) (by omega)).1
  have hsmall : ¬1024 < size := by
    rw [UInt32.lt_iff_toNat_lt, show (1024 : UInt32).toNat = 1024 from rfl]
    omega
  rw [sysMalloc, if_neg (not_not.mpr hvalid), if_neg hsmall, Cmd.exec_get_bind]
  dsimp only
  rw [hdescs, findDesc_eq hinv.lists (Nat.zero_add 7), hclass, Cmd.exec_assert_bind, if_pos hcls]
  rfl

theorem sysMalloc_next {b : Nat} {l : List Nat} (grant : Option Nat) (size : UInt32)
    (hP : Place D lo hi) (hdescs : env.descs = D)
    (hinv : HeapInv D lo hi other K free live h) (hused : ∀ q, K.Used live q)
    (hvalid : 0 < size ∧ size < env.poolSize) (hsize : size.toNat ≤ 1024)
    (hclass : sizeClass size 7 0 = i) (hfree : free i = b :: l)
    : ∃ h', (sysMalloc env grant size).run h = .ok (b, h')
        ∧ Granted D lo hi other K (Function.update free i l) live size.toNat b h h' := by
  obtain ⟨hcls, hfit⟩ := sizeClass_spec hsize (Nat.zero_add 7) (by omega)
  rw [hclass] at hcls hfit
  obtain ⟨h1, htake, hgranted⟩ := takeBlock_granted hP hinv hcls hfree hfit fun q _ => hused q
  have hnew : (newArena grant (descAt D i)).run h = .ok (true, h) := by
    apply newArena_keep hinv hcls
    rw [hfree]
    exact List.cons_ne_nil _ _
  refine ⟨h1, ?_, hgranted⟩
  rw [sysMalloc_small hdescs hinv hvalid hsize hclass, Cmd.exec_bind hnew]
  exact htake

theorem sysMalloc_first {g : Nat} (size : UInt32) (hP : Place D lo hi) (hdescs : env.descs = D)
    (hinv : HeapInv D lo hi other K free live h) (hused : ∀ q, K.Used live q)
    (hvalid : 0 < size ∧ size < env.poolSize) (hsize : size.toNat ≤ 1024)
    (hclass : sizeClass size 7 0 = i) (hempty : free i = []) (hf : FreshPages lo hi h g 1)
    : ∃ h', (sysMalloc env (some g) size).run h = .ok (blockAt g i 0, h')
        ∧ Granted D lo hi other (Function.update K g (some (.small i)))
            (Function.update free i ((List.range (blocksPerArena i)).map (blockAt g i)).tail) live
              size.toNat (blockAt g i 0) h h' := by
  obtain ⟨hcls, hfit⟩ := sizeClass_spec hsize (Nat.zero_add 7) (by omega)
  rw [hclass] at hcls hfit
  obtain ⟨h1, hnew, hinv1, hframe1⟩ := newArena_run hP hinv hcls hempty hf
  have hfirst : Function.update free i ((List.range (blocksPerArena i)).map (blockAt g i)) i
      = blockAt g i 0 :: ((List.range (blocksPerArena i)).map (blockAt g i)).tail := by
    obtain ⟨n, hn⟩ : ∃ n, blocksPerArena i = n + 1 :=
      Nat.exists_eq_succ_of_ne_zero (blocksPerArena_pos hcls).ne'
    rw [Function.update_self, hn, List.range_succ_eq_map, List.map_cons, List.tail_cons]
  have hothers : ∀ q, q ≠ blockAt g i 0 / 4096
      → Arenas.Used (Function.update K g (some (.small i))) live q := by
    intro q hq j hj
    rw [blockAt_div (blocksPerArena_pos hcls)] at hq
    rw [Function.update_of_ne hq] at hj
    exact hused q j hj
  obtain ⟨h2, htake, hgranted⟩ := takeBlock_granted hP hinv1 hcls hfirst hfit hothers
  rw [Function.update_idem] at hgranted
  refine ⟨h2, ?_, { hgranted with frame := hframe1.trans hgranted.frame }⟩
  rw [sysMalloc_small hdescs hinv hvalid hsize hclass, Cmd.exec_bind hnew]
  exact htake

theorem sysMalloc_large {g : Nat} (size : UInt32) (hP : Place D lo hi)
    (hinv : HeapInv D lo hi other K free live h) (hused : ∀ q, K.Used live q)
    (hvalid : 0 < size ∧ size < env.poolSize) (hlarge : 1024 < size)
    (hmax : (largePages size).toNat < 3840) (hf : FreshPages lo hi h g (largePages size).toNat)
    : ∃ h', (sysMalloc env (some g) size).run h = .ok (4096 * g + 12, h')
        ∧ Granted D lo hi other (Function.update K g (some (.large (largePages size).toNat))) free
            live size.toNat (4096 * g + 12) h h' := by
  have hbound : size.toNat ≤ 2 ^ 31 := by
    have h1 := UInt32.lt_iff_toNat_lt.mp hvalid.2
    have h2 := @poolSize_lt env
    omega
  obtain ⟨h1, hrun, hinv1, hzero, hframe⟩ := mallocLarge_run hP hinv hbound hmax hf
  have harena : Function.update K g (some (Arena.large (largePages size).toNat)) g
      = some (.large (largePages size).toNat) := Function.update_self _ _ _
  refine ⟨h1, ?_, by omega, hinv1, ?_, ?_, hframe⟩
  . rw [sysMalloc, if_neg (not_not.mpr hvalid), if_pos hlarge]
    exact hrun
  . intro q j hq
    have hqg : q ≠ g := by
      rintro rfl
      rw [harena] at hq
      cases hq
    rw [Function.update_of_ne hqg] at hq
    exact (hused q).cons j hq
  . intro a ha1 ha2
    rw [(hinv1.extent_large hP harena).1] at ha2
    exact hzero a ha1 (by omega)

theorem mallocLarge_cases {ptr : Nat} (hrun : (mallocLarge grant size).run h = .ok (ptr, h'))
    : (largePages size).toNat < 3840 ∧ (grant = none → ptr = 0 ∧ h' = h) := by
  cases grant with
  | none =>
    simp only [mallocLarge, mallocPage, Cmd.bind_run, Cmd.assert_run, Cmd.pure_run] at hrun
    obtain ⟨_, _, ⟨_, _, ⟨h0, h1⟩, h2⟩, h3⟩ := hrun
    cases h1
    cases h2
    rw [Cmd.pure_run] at h3
    cases h3
    exact ⟨h0.2, fun _ => ⟨rfl, rfl⟩⟩
  | some g =>
    simp only [mallocLarge, mallocPage, Cmd.bind_run, Cmd.assert_run] at hrun
    obtain ⟨_, _, ⟨_, _, ⟨h0, -⟩, -⟩, -⟩ := hrun
    refine ⟨h0.2, ?_⟩
    intro hnone
    contradiction

theorem sysMalloc_run {ptr : Nat} (hP : Place D lo hi) (hdescs : env.descs = D)
    (hinv : HeapInv D lo hi other K free live h) (hused : ∀ q, K.Used live q)
    (hgrant : ∀ g, grant = some g → FreshPages lo hi h g (mallocPages size))
    (hrun : (sysMalloc env grant size).run h = .ok (ptr, h'))
    : (ptr = 0 ∧ h' = h) ∨ ∃ K' free', Granted D lo hi other K' free' live size.toNat ptr h h' := by
  by_cases hvalid : 0 < size ∧ size < env.poolSize
  swap
  . rw [sysMalloc, if_pos hvalid, Cmd.pure_run] at hrun
    cases hrun
    exact .inl ⟨rfl, rfl⟩
  unfold mallocPages at hgrant
  -- a run that is known, with what it leaves
  have hsame : ∀ {p h1}, (sysMalloc env grant size).run h = .ok (p, h1) → ptr = p ∧ h' = h1 := by
    intro p h1 hrun1
    rw [hrun1, Except.ok.injEq, Prod.mk.injEq] at hrun
    exact ⟨hrun.1.symm, hrun.2.symm⟩
  by_cases hlarge : 1024 < size
  . rw [if_pos hlarge] at hgrant
    have hrun1 := hrun
    rw [sysMalloc, if_neg (not_not.mpr hvalid), if_pos hlarge] at hrun1
    obtain ⟨hmax, hnone⟩ := mallocLarge_cases hrun1
    cases grant with
    | none => exact .inl (hnone rfl)
    | some g =>
      obtain ⟨h1, hrun2, hgranted⟩ :=
        sysMalloc_large size hP hinv hused hvalid hlarge hmax (hgrant g rfl)
      obtain ⟨rfl, rfl⟩ := hsame hrun2
      exact .inr ⟨_, _, hgranted⟩
  . rw [if_neg hlarge] at hgrant
    have hsize : size.toNat ≤ 1024 := by
      rw [UInt32.lt_iff_toNat_lt] at hlarge
      simp only [UInt32.reduceToNat] at hlarge
      omega
    cases hfree : free (sizeClass size 7 0) with
    | cons b l =>
      obtain ⟨h1, hrun1, hgranted⟩ :=
        sysMalloc_next grant size hP hdescs hinv hused hvalid hsize rfl hfree
      obtain ⟨rfl, rfl⟩ := hsame hrun1
      exact .inr ⟨_, _, hgranted⟩
    | nil =>
      cases grant with
      | none =>
        have hcls := (sizeClass_spec hsize (Nat.zero_add 7) (by omega)).1
        left
        apply hsame
        rw [sysMalloc_small hdescs hinv hvalid hsize rfl,
          Cmd.exec_bind (newArena_none hinv hcls hfree)]
        rfl
      | some g =>
        obtain ⟨h1, hrun1, hgranted⟩ :=
          sysMalloc_first size hP hdescs hinv hused hvalid hsize rfl hfree (hgrant g rfl)
        obtain ⟨rfl, rfl⟩ := hsame hrun1
        exact .inr ⟨_, _, hgranted⟩

end Malloc

section Init

structure DescOk (D i : Nat) (m : Mem) : Prop where
  size : m.word (descAt D i) = UInt32.ofNat (blockSize i)
  blocks : m.word (descAt D i + 4) = UInt32.ofNat (blocksPerArena i)
  first : m.word (descAt D i + 12) = UInt32.ofNat (descAt D i + 16)
  last : m.word (descAt D i + 16) = UInt32.ofNat (descAt D i + 8)

theorem DescOk.congr {m' : Mem} (h : DescOk D i m)
    (hsame : ∀ k < 24, m' (descAt D i + k) = m (descAt D i + k))
    : DescOk D i m' := by
  have hword : ∀ o, o + 4 ≤ 24 → m'.word (descAt D i + o) = m.word (descAt D i + o) := by
    intro o ho
    apply Mem.word_congr
    intro k hk
    rw [Nat.add_assoc]
    exact hsame _ (by omega)
  exact ⟨(hword 0 (by omega)).trans h.size, (hword 4 (by omega)).trans h.blocks,
    (hword 12 (by omega)).trans h.first,
    (hword 16 (by omega)).trans h.last⟩

theorem blockDescInit_go {n idx : Nat} {bs : UInt16} (hn : idx + n = 7)
    (hbs : bs.toNat = blockSize idx)
    (hdone : ∀ j < idx, DescOk D j m) : ∀ j < 7, DescOk D j (blockDescInit.go D n idx bs m) := by
  induction n generalizing idx bs m with
  | zero =>
    rw [blockDescInit.go]
    intro j hj
    exact hdone j (by omega)
  | succ n ih =>
    have hle := blockSize_le (show idx < 7 by omega)
    have hpos := @blockSize_pos idx
    have hword : bs.toUInt32 = UInt32.ofNat (blockSize idx) := by
      rw [← UInt32.toNat_inj, UInt16.toNat_toUInt32, hbs, UInt32.toNat_ofNat']
      omega
    have hdiv : (4096 - UInt32.ofNat arenaSize) / bs.toUInt32
        = UInt32.ofNat (blocksPerArena idx) := by
      have hlt := @blocksPerArena_lt idx
      rw [← UInt32.toNat_inj, UInt32.toNat_div, UInt16.toNat_toUInt32, hbs, UInt32.toNat_ofNat']
      have h4084 : (4096 - UInt32.ofNat arenaSize : UInt32).toNat = 4084 := rfl
      have hdef : 4084 / blockSize idx = blocksPerArena idx := rfl
      rw [h4084, hdef]
      omega
    rw [blockDescInit.go]
    apply ih (by omega)
    . have hnext : blockSize (idx + 1) = blockSize idx * 2 := by
        unfold blockSize
        rw [Nat.pow_succ, Nat.mul_assoc]
      rw [UInt16.toNat_mul, hbs, hnext]
      simp only [UInt16.reduceToNat]
      omega
    . intro j hj
      have hdesc : D + descSize * idx = descAt D idx := rfl
      rw [hdesc, hdiv, hword]
      by_cases hji : j = idx
      . subst hji
        unfold listInit listTail freeList
        refine ⟨?_, ?_, ?_, ?_⟩
        . rw [Mem.word_setWord_of_disjoint (by omega), Mem.word_setWord_of_disjoint (by omega),
            Mem.word_setWord_of_disjoint (by omega), Mem.word_setWord_of_disjoint (by omega),
            Mem.word_setWord_of_disjoint (by omega), Mem.word_setWord_self]
        . rw [Mem.word_setWord_of_disjoint (by omega), Mem.word_setWord_of_disjoint (by omega),
            Mem.word_setWord_of_disjoint (by omega), Mem.word_setWord_of_disjoint (by omega),
            Mem.word_setWord_self]
        . rw [Mem.word_setWord_of_disjoint (by omega), Mem.word_setWord_of_disjoint (by omega)]
          exact Mem.word_setWord_self
        . rw [Mem.word_setWord_of_disjoint (by omega)]
          exact Mem.word_setWord_self
      . apply (hdone j (by omega)).congr
        intro k hk
        have hap : descAt D j + 24 ≤ descAt D idx := by
          unfold descAt descSize
          omega
        unfold listInit listTail freeList
        rw [Mem.setWord_of_not_mem (by omega), Mem.setWord_of_not_mem (by omega),
          Mem.setWord_of_not_mem (by omega), Mem.setWord_of_not_mem (by omega),
          Mem.setWord_of_not_mem (by omega), Mem.setWord_of_not_mem (by omega)]

def Heap.init (D : Nat) (m : Mem) : Heap := ⟨blockDescInit D m, fun _ => false⟩

theorem lists_init (hP : Place D lo hi) : Lists D K (fun _ => []) (blockDescInit D m) := by
  have hdescs : ∀ j < 7, DescOk D j (blockDescInit D m) := by
    apply blockDescInit_go (Nat.zero_add 7)
    . rfl
    . intro j hj
      omega
  have hend := hP.descsEnd
  refine ⟨fun i hi => (hdescs i hi).size, fun i hi => (hdescs i hi).blocks, ?_⟩
  intro i hi
  refine ListOf.nil ?_ (hdescs i hi).first (hdescs i hi).last (.head hi) (.tail hi)
  unfold freeList descAt descSize
  omega

theorem heapInv_init (hP : Place D lo hi)
    : HeapInv D lo hi (fun _ => False) (fun _ => none) (fun _ => []) [] (Heap.init D m) := by
  refine ⟨⟨?_, ?_, ?_, ?_⟩, ?_, ?_, lists_init hP, ?_, ?_, ?_, ?_, ?_, ?_, List.nodup_nil⟩
  any_goals (intros; contradiction)
  . intro p
    constructor
    . intro hp
      contradiction
    . rintro (⟨q, A, hq, -⟩ | hfalse)
      . contradiction
      . exact hfalse.elim
  . intro q A p hq
    contradiction

end Init

section Steps

def HeapRun.Inv (D lo hi : Nat) (r : HeapRun) : Prop :=
  ∃ K free, HeapInv D lo hi (fun _ => False) K free r.live r.heap ∧ ∀ q, K.Used r.live q

theorem HeapInv.store {a : Nat} {b : UInt8} (hP : Place D lo hi)
    (hinv : HeapInv D lo hi other K free live h) (hp : (p, s) ∈ live) (ha1 : p ≤ a)
    (ha2 : a < p + s)
    : HeapInv D lo hi other K free live (h.setMem (Function.update h.mem a b)) := by
  have hK := hinv.ok
  have hregion := hP.descs
  obtain ⟨q, A, hq, h1, h2, h3⟩ := (hinv.fits p s hp).arena
  have hr := hK.range q A hq
  have hsame : ∀ c, c ≠ a → Function.update h.mem a b c = h.mem c := fun c hc =>
    Function.update_of_ne hc _ _
  have hheader : ∀ q' A', K q' = some A' → ∀ k < 12, Function.update h.mem a b (4096 * q' + k)
      = h.mem (4096 * q' + k) := by
    intro q' A' hq' k hk
    apply hsame
    have hpos := hK.pages q' A' hq'
    obtain hlt | heq | hlt := Nat.lt_trichotomy q q'
    . have := hK.apart q q' A A' hq hq' hlt
      omega
    . omega
    . have := hK.apart q' q A' A hq' hq hlt
      omega
  have hlists : Lists D K free (Function.update h.mem a b) := by
    apply hinv.lists.of_bytes (S := fun c => c = a)
    . exact hsame
    . intro j hj k hk
      unfold descAt descSize
      omega
    . intro j hj x hx k hk
      have hs := @blockSize_ge j
      obtain ⟨hj7, hx'⟩ | ⟨q', idx, arena, hidx, hxb⟩ := ((hinv.lists.lists j hj).nodes x hx).cases
      . omega
      . have hb := blockAt_bounds (q := q') hidx
        have hfree : x ∈ free j := by
          have hb' := hK.block_bounds arena hidx
          simp only [List.mem_cons, List.mem_append, List.not_mem_nil, or_false, freeList, listTail,
            descAt, descSize] at hx
          obtain hx | hx | hx := hx
          . omega
          . exact hx
          . omega
        have hne : x ≠ p := by
          rintro rfl
          exact hinv.unused j hj x hfree (List.mem_map.mpr ⟨_, hp, rfl⟩)
        cases hinv.fits p s hp with
        | large arena' size =>
          rename_i q1 cnt
          have hqq : q1 = q := by omega
          subst hqq
          rw [hq, Option.some.injEq] at arena'
          have hne' : q' ≠ q1 := by
            rintro rfl
            rw [hq, Option.some.injEq] at arena
            rw [arena] at arena'
            cases arena'
          obtain hlt | hlt := Nat.lt_or_gt_of_ne hne'
          . omega
          . have := hK.apart q1 q' A _ hq arena hlt
            omega
        | small arena' idx_lt size =>
          rw [hxb] at hne
          obtain ⟨rfl, rfl, rfl⟩ | hap := Arenas.blocks_apart arena' arena idx_lt hidx
          . exact absurd rfl hne
          . omega
  exact ⟨hK, hinv.held, hinv.foreign, hlists, fun q' j hq' =>
    (hinv.small q' j hq').congr (hheader q' _ hq'),
    fun q' cnt hq' => (hinv.large q' cnt hq').congr (hheader q' _ hq'), hinv.unused, hinv.block,
      hinv.fits,
    hinv.largePtr, hinv.nodup⟩

theorem onHeap_run {α : Type} {x : HeapM α} {y : α × HeapRun}
    : (onHeap x).run r = .ok y ↔ ∃ h, x.run r.heap = .ok (y.1, h) ∧ y.2 = { r with heap := h } :=
  Cmd.zoom_run

theorem malloc_exec (hrun : (sysMalloc env grant size).run r.heap = .ok (p, h')) (hp : p ≠ 0)
    : ((HeapCall.malloc grant size).exec env).run r = .ok (p, ⟨h', (p, size.toNat) :: r.live⟩) := by
  have hzoom : (onHeap (sysMalloc env grant size)).run r = .ok (p, { r with heap := h' }) :=
    Cmd.exec_zoom hrun
  rw [HeapCall.exec, Cmd.exec_bind hzoom]
  dsimp only
  rw [if_pos hp]
  rfl

theorem free_exec (hrun : (sysFree env p).run r.heap = .ok ((), h'))
    : ((HeapCall.free p).exec env).run r = .ok (0, ⟨h', without r.live p⟩) := by
  have hzoom : (onHeap (sysFree env p)).run r = .ok ((), { r with heap := h' }) :=
    Cmd.exec_zoom hrun
  rw [HeapCall.exec, Cmd.exec_bind hzoom]
  rfl

theorem malloc_step {ptr : Nat} (hP : Place D lo hi) (hdescs : env.descs = D) (hr : r.Inv D lo hi)
    (hvalid : r.Valid lo hi (.malloc grant size))
    (hrun : ((HeapCall.malloc grant size).exec env).run r = .ok (ptr, r'))
    : r'.Inv D lo hi
      ∧ (ptr ≠ 0 → r'.live = (ptr, size.toNat) :: r.live
          ∧ ∀ a, ptr ≤ a → a < ptr + blockExtent r'.heap.mem ptr → r'.heap.mem a = 0) := by
  obtain ⟨K, free, hinv, hused⟩ := hr
  simp only [HeapCall.exec, Cmd.bind_run, onHeap_run] at hrun
  obtain ⟨ptr1, r1, ⟨h1, hm, hr1⟩, h2⟩ := hrun
  obtain ⟨hzero, heq⟩ | ⟨K', free', hgranted⟩ := sysMalloc_run hP hdescs hinv hused hvalid hm
  . rw [if_neg (not_not.mpr hzero)] at h2
    rw [Cmd.pure_run] at h2
    cases h2
    rw [hr1, heq]
    exact ⟨⟨K, free, hinv, hused⟩, fun hne => absurd hzero hne⟩
  . rw [if_pos hgranted.pos] at h2
    simp only [Cmd.modify_run, Cmd.pure_run, Cmd.bind_run] at h2
    obtain ⟨_, _, h3, h4⟩ := h2
    cases h3
    cases h4
    rw [hr1]
    exact ⟨⟨K', free', hgranted.inv, hgranted.used⟩, fun _ => ⟨rfl, hgranted.zero⟩⟩

theorem free_step (hP : Place D lo hi) (hkernel : env.kernel = true → 0xc0100 ≤ lo)
    (hr : r.Inv D lo hi) (hp : p ∈ ptrs r.live)
    : ∃ r', ((HeapCall.free p).exec env).run r = .ok (0, r') ∧ r'.live = without r.live p
        ∧ r'.Inv D lo hi := by
  obtain ⟨K, free, hinv, hused⟩ := hr
  obtain ⟨K', free', h', hrun, hfreed⟩ := sysFree_run hP hkernel hinv hused hp
  exact ⟨⟨h', without r.live p⟩, free_exec hrun, rfl, K', free', hfreed.inv, hfreed.used⟩

theorem HeapRun.Inv.step {call : HeapCall} {x : Nat} (hP : Place D lo hi) (hdescs : env.descs = D)
    (hkernel : env.kernel = true → 0xc0100 ≤ lo) (hr : r.Inv D lo hi) (hvalid : r.Valid lo hi call)
    (hrun : (call.exec env).run r = .ok (x, r')) : r'.Inv D lo hi := by
  cases call with
  | malloc grant size => exact (malloc_step hP hdescs hr hvalid hrun).1
  | free ptr =>
    obtain ⟨r1, hrun', -, hinv⟩ := free_step hP hkernel hr hvalid
    rw [hrun', Except.ok.injEq, Prod.mk.injEq] at hrun
    rw [← hrun.2]
    exact hinv
  | store addr byte =>
    obtain ⟨K, free, hinv, hused⟩ := hr
    obtain ⟨p, s, hp, h1, h2⟩ := hvalid
    simp only [HeapCall.exec, modifyMem, Cmd.bind_run, onHeap_run, Cmd.modify_run,
      Cmd.pure_run] at hrun
    obtain ⟨_, _, ⟨h3, h4, h5⟩, h6⟩ := hrun
    cases h4
    cases h6
    rw [h5]
    exact ⟨K, free, hinv.store hP hp h1 h2, hused⟩

abbrev HeapReach (env : HeapEnv) (lo hi : Nat) (m : Mem) : HeapRun → Prop :=
  Cmd.Reach (HeapCall.exec env) (HeapRun.Valid lo hi) ⟨Heap.init env.descs m, []⟩

structure HeapRun.At (env : HeapEnv) (lo hi : Nat) (m : Mem) (K : Arenas) (free : Nat → List Nat)
    (live : List (Nat × Nat)) (r : HeapRun) : Prop where
  reach : HeapReach env lo hi m r
  inv : HeapInv env.descs lo hi (fun _ => False) K free live r.heap
  used : ∀ q, K.Used live q
  live_eq : r.live = live

theorem HeapRun.at_init (hP : Place env.descs lo hi)
    : HeapRun.At env lo hi m (fun _ => none) (fun _ => []) [] ⟨Heap.init env.descs m, []⟩ :=
  ⟨.refl, heapInv_init hP, fun q i hq => absurd hq (by simp), rfl⟩

theorem HeapRun.At.sysMalloc {K' : Arenas} {free' : Nat → List Nat}
    (hr : r.At env lo hi m K free live)
    (hgrant : ∀ g, grant = some g → FreshPages lo hi r.heap g (mallocPages size))
    (hrun : ∃ h', (sysMalloc env grant size).run r.heap = .ok (p, h')
      ∧ Granted env.descs lo hi (fun _ => False) K' free' live size.toNat p r.heap h')
    : ∃ r', ((HeapCall.malloc grant size).exec env).run r = .ok (p, r')
        ∧ r'.At env lo hi m K' free' ((p, size.toNat) :: live) := by
  obtain ⟨h', hrun, hgranted⟩ := hrun
  have hexec := malloc_exec hrun hgranted.pos
  have hvalid : r.Valid lo hi (.malloc grant size) := hgrant
  refine ⟨_, hexec, hr.reach.tail ⟨_, _, hvalid, hexec⟩, hgranted.inv, hgranted.used, ?_⟩
  rw [hr.live_eq]

theorem HeapRun.At.sysFree {K' : Arenas} {free' : Nat → List Nat}
    (hr : r.At env lo hi m K free live) (hp : p ∈ ptrs live)
    (hrun : ∃ h', (sysFree env p).run r.heap = .ok ((), h') ∧ Freed env.descs lo hi (fun _ =>
      False) K' free' live p r.heap h')
    : ∃ r', ((HeapCall.free p).exec env).run r = .ok (0, r')
        ∧ r'.At env lo hi m K' free' (without live p) := by
  obtain ⟨h', hrun, hfreed⟩ := hrun
  have hexec := free_exec hrun
  have hvalid : r.Valid lo hi (.free p) := by
    show p ∈ ptrs r.live
    rw [hr.live_eq]
    exact hp
  refine ⟨_, hexec, hr.reach.tail ⟨_, _, hvalid, hexec⟩, hfreed.inv, hfreed.used, ?_⟩
  rw [hr.live_eq]

theorem HeapRun.inv_of_reach (hP : Place env.descs lo hi)
    (hkernel : env.kernel = true → 0xc0100 ≤ lo)
    (hr : HeapReach env lo hi m r) : r.Inv env.descs lo hi := by
  apply Cmd.Reach.invariant (P := HeapRun.Inv env.descs lo hi) _ _ hr
  . intro r call x r' hinv hvalid hrun
    exact hinv.step hP rfl hkernel hvalid hrun
  . exact ⟨fun _ => none, fun _ => [], heapInv_init hP, fun q i hq => absurd hq (by simp)⟩

end Steps

end RogOS
