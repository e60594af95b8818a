import RogOS.Memory.HeapSystem

/-!
The blocks of the kernel heap never overlap, and its bookkeeping is exact.
-/

namespace RogOS

variable {env : HeapEnv} {m : Mem} {r : HeapRun} {D lo hi p s : Nat} {K : Arenas}
  {free : Nat → List Nat}
  {other : Nat → Prop}

structure HeapEnv.Kernel (env : HeapEnv) : Prop where
  kernel : env.kernel = true
  descsPos : 0 < env.descs
  descsEnd : env.descs + 7 * descSize ≤ 0xc0100000

theorem HeapEnv.Kernel.place (h : env.Kernel) : Place env.descs 0xc0100 (2 ^ 20) where
  descs := by
    have := h.descsEnd
    unfold descSize at this
    omega
  descsPos := h.descsPos
  descsEnd := by
    have := h.descsEnd
    unfold descSize at this
    omega
  lowest := by omega
  highest := by omega

abbrev KernelReach (env : HeapEnv) (m : Mem) : HeapRun → Prop := HeapReach env 0xc0100 (2 ^ 20) m

theorem HeapEnv.Kernel.inv (h : env.Kernel) (hr : KernelReach env m r)
    : r.Inv env.descs 0xc0100 (2 ^ 20) :=
  HeapRun.inv_of_reach h.place (fun _ => Nat.le_refl _) hr

section Blocks

structure HeapRun.BlockOk (r : HeapRun) (p s : Nat) : Prop where
  size : s ≤ blockExtent r.heap.mem p
  header : block2arena p + arenaSize ≤ p
  inside : p + blockExtent r.heap.mem p ≤ block2arena p + 4096 * arenaPages r.heap.mem
    (block2arena p)
  pages : ∀ k < arenaPages r.heap.mem (block2arena p), r.heap.held (block2arena p / 4096 + k) = true

structure HeapRun.BlocksOk (r : HeapRun) : Prop where
  block : ∀ p s, (p, s) ∈ r.live → r.BlockOk p s
  nodup : (ptrs r.live).Nodup
  apart : ∀ p ∈ ptrs r.live, ∀ p' ∈ ptrs r.live, p ≠ p' →
    p + blockExtent r.heap.mem p ≤ p' ∨ p' + blockExtent r.heap.mem p' ≤ p
  headers : ∀ p ∈ ptrs r.live, ∀ p' ∈ ptrs r.live,
    p + blockExtent r.heap.mem p ≤ block2arena p' ∨ block2arena p' + arenaSize ≤ p

theorem HeapInv.extent (hP : Place D lo hi) (hinv : HeapInv D lo hi other K free r.live r.heap)
    (hp : (p, s) ∈ r.live)
    : ∃ q A, K q = some A ∧ block2arena p = 4096 * q ∧ arenaPages r.heap.mem (4096 * q) = A.pages
        ∧ s ≤ blockExtent r.heap.mem p ∧ 4096 * q + 12 ≤ p
        ∧ p + blockExtent r.heap.mem p ≤ 4096 * (q + A.pages) := by
  cases hinv.fits p s hp with
  | large arena size =>
    rename_i q cnt
    obtain ⟨h1, h2⟩ := hinv.extent_large hP arena
    refine ⟨q, _, arena, ?_, h2, ?_, Nat.le_refl _, ?_⟩
    . unfold block2arena
      omega
    . omega
    . simp only [Arena.pages]
      omega
  | small arena idx_lt size =>
    rename_i q i idx
    obtain ⟨h1, h2⟩ := hinv.extent_small hP arena idx_lt
    have hb := blockAt_bounds (q := q) idx_lt
    refine ⟨q, _, arena, block2arena_blockAt idx_lt, h2, ?_, hb.1, ?_⟩
    . omega
    . simp only [Arena.pages]
      omega

theorem HeapRun.Inv.blocksOk (hP : Place D lo hi) (h : r.Inv D lo hi) : r.BlocksOk := by
  obtain ⟨K, free, hinv, -⟩ := h
  have hK := hinv.ok
  refine ⟨?_, hinv.nodup, ?_, ?_⟩
  . intro p s hp
    obtain ⟨q, A, hq, harena, hpages, hsize, hlow, hhigh⟩ := hinv.extent hP hp
    refine ⟨hsize, ?_, ?_, ?_⟩
    . rw [harena]
      exact hlow
    . rw [harena, hpages]
      omega
    . intro k hk
      rw [harena, hpages] at hk
      rw [harena]
      exact (hinv.held _).mpr (.inl ⟨q, A, hq, by omega, by omega⟩)
  . intro p hp p' hp' hne
    obtain ⟨⟨p, s⟩, hmem, rfl⟩ := List.mem_map.mp hp
    obtain ⟨⟨p', s'⟩, hmem', rfl⟩ := List.mem_map.mp hp'
    dsimp only at hne ⊢
    obtain ⟨q, A, hq, harena, -, -, hlow, hhigh⟩ := hinv.extent hP hmem
    obtain ⟨q', A', hq', harena', -, -, hlow', hhigh'⟩ := hinv.extent hP hmem'
    obtain hlt | heq | hlt := Nat.lt_trichotomy q q'
    . have := hK.apart q q' A A' hq hq' hlt
      omega
    . -- two blocks of one arena
      subst heq
      have hdiv : p / 4096 = q := by
        unfold block2arena at harena
        omega
      have hdiv' : p' / 4096 = q := by
        unfold block2arena at harena'
        omega
      cases A with
      | large cnt =>
        have h1 := hinv.ptr_large hq hp hdiv
        have h2 := hinv.ptr_large hq hp' hdiv'
        exact absurd (h1.trans h2.symm) hne
      | small i =>
        obtain ⟨idx, hidx, rfl⟩ := hinv.ptr_small hq hp hdiv
        obtain ⟨idx', hidx', rfl⟩ := hinv.ptr_small hq hp' hdiv'
        rw [(hinv.extent_small hP hq hidx).1, (hinv.extent_small hP hq hidx').1]
        apply blockAt_apart
        rintro rfl
        exact hne rfl
    . have := hK.apart q' q A' A hq' hq hlt
      omega
  . intro p hp p' hp'
    obtain ⟨⟨p, s⟩, hmem, rfl⟩ := List.mem_map.mp hp
    obtain ⟨⟨p', s'⟩, hmem', rfl⟩ := List.mem_map.mp hp'
    dsimp only
    obtain ⟨q, A, hq, -, -, -, hlow, hhigh⟩ := hinv.extent hP hmem
    obtain ⟨q', A', hq', harena', -⟩ := hinv.extent hP hmem'
    have hpos' := hK.pages q' A' hq'
    rw [harena', arenaSize]
    obtain hlt | heq | hlt := Nat.lt_trichotomy q q'
    . have := hK.apart q q' A A' hq hq' hlt
      omega
    . omega
    . have := hK.apart q' q A' A hq' hq hlt
      omega

/-- Blocks do not overlap, and those that `sys_malloc` returns are zero. -/
theorem heap_blocks_apart (henv : env.Kernel) (hr : KernelReach env m r)
    : r.BlocksOk
      ∧ ∀ grant size ptr r', r.Valid 0xc0100 (2 ^ 20) (.malloc grant size) →
          ((HeapCall.malloc grant size).exec env).run r = .ok (ptr, r') → ptr ≠ 0 →
          r'.live = (ptr, size.toNat) :: r.live ∧ r'.BlocksOk
            ∧ ∀ a, ptr ≤ a → a < ptr + blockExtent r'.heap.mem ptr → r'.heap.mem a = 0 := by
  have hinv := henv.inv hr
  refine ⟨hinv.blocksOk henv.place, ?_⟩
  intro grant size ptr r' hvalid hrun hne
  obtain ⟨hinv', hnew⟩ := malloc_step henv.place rfl hinv hvalid hrun
  exact ⟨(hnew hne).1, hinv'.blocksOk henv.place, (hnew hne).2⟩

def kernelEnv : HeapEnv := ⟨0x2000000, true, 0xc0008000⟩

theorem kernelEnv_kernel : kernelEnv.Kernel := ⟨rfl, by decide, by decide⟩

theorem kernel_frees : kernelEnv.kernel = true → 0xc0100 ≤ 0xc0100 := fun _ => Nat.le_refl _

theorem at_twoBlocks
    : ∃ (r : HeapRun) (free : Nat → List Nat),
        r.At kernelEnv 0xc0100 (2 ^ 20) Mem.zero
        (Function.update (fun _ => none) 0xc0100 (some (.small 6))) free
          [(0xc010040c, 1000), (0xc010000c, 1000)]
        ∧ free 6 = [0xc010080c] ∧ (∀ i, i ≠ 6 → free i = [])
            ∧ FreshPages 0xc0100 (2 ^ 20) r.heap 0xc0101 1 := by
  have hP := kernelEnv_kernel.place
  have h0 : HeapRun.At kernelEnv 0xc0100 (2 ^ 20) Mem.zero (fun _ => none) (fun _ => []) []
      ⟨Heap.init kernelEnv.descs Mem.zero, []⟩ := HeapRun.at_init hP
  have hf0 : FreshPages 0xc0100 (2 ^ 20) (Heap.init kernelEnv.descs Mem.zero) 0xc0100 1 :=
    h0.inv.fresh (by decide) (by decide) fun k _ => ⟨Arenas.clear_none, id⟩
  obtain ⟨r1, -, h1⟩ := h0.sysMalloc (by rintro g ⟨⟩; exact hf0)
    (sysMalloc_first 1000 (i := 6) hP rfl h0.inv h0.used (by decide) (by decide) rfl rfl hf0)
  obtain ⟨r2, -, h2⟩ := h1.sysMalloc (by intro g hg; contradiction)
    (sysMalloc_next none 1000 (i := 6) (b := 0xc010040c) (l := [0xc010080c]) hP rfl h1.inv h1.used
      (by decide) (by decide) rfl rfl)
  refine ⟨r2, _, h2, rfl, ?_, ?_⟩
  . intro i hi
    rw [Function.update_of_ne hi, Function.update_of_ne hi]
  . apply h2.inv.fresh (by decide) (by decide)
    intro k hk
    refine ⟨Arenas.clear_none.insert ?_, id⟩
    simp only [Arena.pages]
    omega

theorem at_smallAndLarge
    : ∃ (r : HeapRun) (K : Arenas) (free : Nat → List Nat),
        r.At kernelEnv 0xc0100 (2 ^ 20) Mem.zero K free [(0xc010100c, 2000), (0xc010080c, 600),
        (0xc010000c, 1000)]
        ∧ free 6 = [0xc010040c] := by
  have hP := kernelEnv_kernel.place
  obtain ⟨r2, free, h2, hfree, -, -⟩ := at_twoBlocks
  obtain ⟨r3, -, h3⟩ := h2.sysMalloc (by intro g hg; contradiction)
    (sysMalloc_next none 600 (i := 6) hP rfl h2.inv h2.used (by decide) (by decide) rfl hfree)
  have hf3 : FreshPages 0xc0100 (2 ^ 20) r3.heap 0xc0101 1 := by
    apply h3.inv.fresh (by decide) (by decide)
    intro k hk
    refine ⟨Arenas.clear_none.insert ?_, id⟩
    simp only [Arena.pages]
    omega
  obtain ⟨r4, -, h4⟩ := h3.sysMalloc (by rintro g ⟨⟩; exact hf3)
    (sysMalloc_large 2000 hP h3.inv h3.used (by decide) (by decide) (by decide) hf3)
  obtain ⟨r5, -, h5⟩ := h4.sysFree (p := 0xc010040c) (by decide)
    (sysFree_keep (q := 0xc0100) (i := 6) 1 hP kernel_frees h4.inv h4.used rfl (by decide)
      (by decide)
      (by rw [Function.update_self]; decide))
  exact ⟨r5, _, _, h5, rfl⟩

theorem heap_blocks_apart_smallAndLarge
    : ∃ r r' : HeapRun, r.live = [(0xc010100c, 2000), (0xc010080c, 600), (0xc010000c, 1000)]
        ∧ r.BlocksOk
        ∧ ((HeapCall.malloc none 900).exec kernelEnv).run r = .ok (0xc010040c, r')
        ∧ r'.live = (0xc010040c, 900) :: r.live ∧ r'.BlocksOk
        ∧ ∀ a, 0xc010040c ≤ a → a < 0xc010040c + blockExtent r'.heap.mem 0xc010040c
            → r'.heap.mem a = 0 := by
  obtain ⟨r, K, free, hr, hfree⟩ := at_smallAndLarge
  obtain ⟨r', hrun, -⟩ := hr.sysMalloc (by intro g hg; contradiction)
    (sysMalloc_next none 900 (i := 6) kernelEnv_kernel.place rfl hr.inv hr.used (by decide)
      (by decide) rfl hfree)
  obtain ⟨hblocks, hmalloc⟩ := heap_blocks_apart kernelEnv_kernel hr.reach
  exact ⟨r, r', hr.live_eq, hblocks, hrun,
    hmalloc none 900 0xc010040c r' (by intro g hg; contradiction) hrun (by decide)⟩

end Blocks

section Books

def HeapRun.freeElems (env : HeapEnv) (r : HeapRun) (i : Nat) : List Nat :=
  listElems r.heap.mem (freeList (env.descs + descSize * i))

structure HeapRun.BooksOk (env : HeapEnv) (r : HeapRun) : Prop where
  -- An arena of blocks counts its blocks on the free list.
  counts : ∀ p ∈ ptrs r.live, r.heap.mem.word (block2arena p + 8) = 0 →
    ∃ i < 7, (r.heap.mem.word (block2arena p)).toNat = env.descs + descSize * i
      ∧ (r.heap.mem.word (block2arena p + 4)).toNat
          = (r.freeElems env i).countP fun b => block2arena b = block2arena p
  -- No block is on a free list twice, on two free lists, or while it is in use.
  once : ∀ i < 7, (r.freeElems env i).Nodup
  single : ∀ i < 7, ∀ j < 7, ∀ b ∈ r.freeElems env i, b ∈ r.freeElems env j → i = j
  unused : ∀ i < 7, ∀ b ∈ r.freeElems env i, b ∉ ptrs r.live
  -- Every page that is held belongs to the arena of a block in use.
  used : ∀ page, r.heap.held page = true → ∃ p ∈ ptrs r.live, block2arena p / 4096 ≤ page
    ∧ page < block2arena p / 4096 + arenaPages r.heap.mem (block2arena p)
  -- Without blocks in use nothing is held.
  empty : r.live = [] → (∀ page, r.heap.held page = false) ∧ ∀ i < 7, r.freeElems env i = []

section Exact

variable (hP : Place env.descs lo hi)
  (hinv : HeapInv env.descs lo hi (fun _ => False) K free r.live r.heap)
include hP hinv

theorem HeapInv.freeElems_eq {i : Nat} (hi : i < 7) : r.freeElems env i = free i :=
  (hinv.lists.lists i hi).listElems_eq (node_apart hP hinv.ok)

omit hP in
theorem HeapInv.live_of_arena (hused : ∀ q, K.Used r.live q) {q : Nat} {A : Arena}
    (hq : K q = some A) : ∃ p s, (p, s) ∈ r.live ∧ block2arena p = 4096 * q := by
  cases A with
  | large cnt =>
    obtain ⟨⟨p, s⟩, hp, heq⟩ := List.mem_map.mp (hinv.largePtr q cnt hq)
    dsimp only at heq
    refine ⟨p, s, hp, ?_⟩
    unfold block2arena
    omega
  | small i =>
    obtain ⟨idx, hidx, hmem⟩ := hused q i hq
    obtain ⟨⟨p, s⟩, hp, heq⟩ := List.mem_map.mp hmem
    dsimp only at heq
    refine ⟨p, s, hp, ?_⟩
    rw [heq]
    exact block2arena_blockAt hidx

theorem HeapInv.held_live (hused : ∀ q, K.Used r.live q) {page : Nat}
    (hpage : r.heap.held page = true)
    : ∃ p ∈ ptrs r.live, block2arena p / 4096 ≤ page
        ∧ page < block2arena p / 4096 + arenaPages r.heap.mem (block2arena p) := by
  obtain ⟨q, A, hq, h1, h2⟩ := ((hinv.held page).mp hpage).resolve_right id
  obtain ⟨p, s, hp, harena⟩ := hinv.live_of_arena hused hq
  obtain ⟨q', A', hq', harena', hpages, -⟩ := hinv.extent hP hp
  have hqq : q' = q := by omega
  subst hqq
  rw [hq, Option.some.injEq] at hq'
  refine ⟨p, List.mem_map.mpr ⟨_, hp, rfl⟩, ?_⟩
  rw [harena, hpages, ← hq']
  omega

omit hP in
theorem HeapInv.countP_le {q i : Nat} (hcls : i < 7)
    : (free i).countP (fun x => x / 4096 = q) ≤ blocksPerArena i := by
  rw [countP_blocks (hinv.lists.lists i hcls).elems_nodup]
  . apply List.countP_le_length.trans
    rw [List.length_range]
  . intro x hx
    obtain ⟨q', idx, -, hidx, heq⟩ := hinv.lists.mem_block hcls hx
    exact ⟨q', idx, hidx, heq⟩

theorem HeapInv.counter_eq {p : Nat} (hp : p ∈ ptrs r.live)
    (hsmall : r.heap.mem.word (block2arena p + 8) = 0)
    : ∃ i < 7, (r.heap.mem.word (block2arena p)).toNat = env.descs + descSize * i
        ∧ (r.heap.mem.word (block2arena p + 4)).toNat
            = (r.freeElems env i).countP fun b => block2arena b = block2arena p := by
  obtain ⟨⟨p, s⟩, hmem, rfl⟩ := List.mem_map.mp hp
  dsimp only at hsmall ⊢
  obtain ⟨q, A, hq, harena, -, -, -, -⟩ := hinv.extent hP hmem
  rw [harena] at hsmall ⊢
  cases A with
  | large cnt =>
    rw [(hinv.large q cnt hq).large] at hsmall
    exact absurd hsmall (by decide)
  | small i =>
    have hcls := hinv.ok.cls q i hq
    have hheader := hinv.small q i hq
    refine ⟨i, hcls, ?_, ?_⟩
    . rw [hheader.desc]
      exact toNat_ofNat_desc hP hcls
    . have hle : (free i).countP (fun x => x / 4096 = q) ≤ blocksPerArena i :=
        hinv.countP_le hcls
      have hlt := @blocksPerArena_lt i
      rw [hheader.cnt, hinv.freeElems_eq hP hcls, UInt32.toNat_ofNat', Nat.mod_eq_of_lt (by omega)]
      apply List.countP_congr
      intro b _
      unfold block2arena
      rw [decide_eq_true_eq, decide_eq_true_eq]
      omega

theorem HeapInv.nothing_held (hused : ∀ q, K.Used r.live q) (hnil : r.live = [])
    : (∀ page, r.heap.held page = false) ∧ ∀ i < 7, r.freeElems env i = [] := by
  constructor
  . intro page
    cases hpage : r.heap.held page with
    | false => rfl
    | true =>
      obtain ⟨p, hp, -⟩ := hinv.held_live hP hused hpage
      rw [hnil] at hp
      contradiction
  . intro i hi
    rw [hinv.freeElems_eq hP hi, List.eq_nil_iff_forall_not_mem]
    intro b hb
    obtain ⟨q, idx, arena, -⟩ := hinv.lists.mem_block hi hb
    obtain ⟨p, s, hp, -⟩ := hinv.live_of_arena hused arena
    rw [hnil] at hp
    contradiction

end Exact

theorem HeapRun.Inv.booksOk (hP : Place env.descs lo hi) (h : r.Inv env.descs lo hi)
    : r.BooksOk env := by
  obtain ⟨K, free, hinv, hused⟩ := h
  have helems : ∀ i < 7, r.freeElems env i = free i := fun i hi => hinv.freeElems_eq hP hi
  refine ⟨fun p hp hsmall => hinv.counter_eq hP hp hsmall, ?_, ?_, ?_,
    fun page hpage => hinv.held_live hP hused hpage, fun hnil => hinv.nothing_held hP hused hnil⟩
  . intro i hi
    rw [helems i hi]
    exact (hinv.lists.lists i hi).elems_nodup
  . intro i hi j hj b hb hb'
    rw [helems i hi] at hb
    rw [helems j hj] at hb'
    obtain ⟨q, idx, arena, hidx, rfl⟩ := hinv.lists.mem_block hi hb
    have hnode :=
      (hinv.lists.lists j hj).nodes _ (List.mem_cons_of_mem _ (List.mem_append_left _ hb'))
    exact Node.cls_unique hP hinv.ok (.block arena hidx) hnode
  . intro i hi b hb
    rw [helems i hi] at hb
    exact hinv.unused i hi b hb

/-- The bookkeeping is exact after every step, and a block in use can always be freed. -/
theorem heap_books_exact (henv : env.Kernel) (hr : KernelReach env m r)
    : r.BooksOk env
      ∧ ∀ p ∈ ptrs r.live, ∃ r', ((HeapCall.free p).exec env).run r = .ok (0, r')
          ∧ r'.live = without r.live p
          ∧ r'.BooksOk env := by
  have hinv := henv.inv hr
  refine ⟨hinv.booksOk henv.place, ?_⟩
  intro p hp
  obtain ⟨r', hrun, hlive, hinv'⟩ := free_step henv.place (fun _ => Nat.le_refl _) hinv hp
  exact ⟨r', hrun, hlive, hinv'.booksOk henv.place⟩

theorem at_pageGivenBack
    : ∃ (r : HeapRun) (K : Arenas) (free : Nat → List Nat),
        r.At kernelEnv 0xc0100 (2 ^ 20) Mem.zero K free [(0xc010040c, 1000), (0xc010000c, 1000)]
        ∧ free 6 = [0xc010080c] ∧ r.heap.held 0xc0101 = false := by
  have hP := kernelEnv_kernel.place
  obtain ⟨r2, free, h2, hfree, hnil, hf2⟩ := at_twoBlocks
  obtain ⟨r3, -, h3⟩ := h2.sysMalloc (by rintro g ⟨⟩; exact hf2)
    (sysMalloc_first 500 (i := 5) hP rfl h2.inv h2.used (by decide) (by decide) rfl
      (hnil 5 (by decide)) hf2)
  obtain ⟨r4, -, h4⟩ := h3.sysFree (p := 0xc010100c) (by decide)
    (sysFree_last (q := 0xc0101) (i := 5) 0 hP kernel_frees h3.inv h3.used rfl (by decide)
      (by decide)
      (by rw [Function.update_self]; decide))
  refine ⟨r4, _, _, h4, ?_, ?_⟩
  . rw [Function.update_of_ne (by decide), Function.update_of_ne (by decide)]
    exact hfree
  . have hf4 : FreshPages 0xc0100 (2 ^ 20) r4.heap 0xc0101 1 := by
      apply h4.inv.fresh (by decide) (by decide)
      intro k hk
      rw [Function.update_idem]
      refine ⟨(Arenas.clear_none.insert ?_).erase, id⟩
      simp only [Arena.pages]
      omega
    exact hf4.free 0 Nat.one_pos

theorem heap_books_exact_pageGivenBack
    : ∃ r r' : HeapRun, r.live = [(0xc010040c, 1000), (0xc010000c, 1000)] ∧ r.BooksOk kernelEnv
        ∧ r.freeElems kernelEnv 6 = [0xc010080c] ∧ r.heap.held 0xc0101 = false
        ∧ ((HeapCall.free 0xc010000c).exec kernelEnv).run r = .ok (0, r')
            ∧ r'.live = [(0xc010040c, 1000)] ∧ r'.BooksOk kernelEnv := by
  obtain ⟨r, K, free, hr, hfree, hheld⟩ := at_pageGivenBack
  obtain ⟨hbooks, hfrees⟩ := heap_books_exact kernelEnv_kernel hr.reach
  have hlive := hr.live_eq
  obtain ⟨r', hrun, hlive', hbooks'⟩ := hfrees 0xc010000c (by rw [hlive]; decide)
  have helems :=
    (hr.inv.lists.lists 6 (by decide)).listElems_eq (node_apart kernelEnv_kernel.place hr.inv.ok)
  refine ⟨r, r', hlive, hbooks, helems.trans hfree, hheld, hrun, ?_, hbooks'⟩
  rw [hlive', hlive]
  rfl

end Books

end RogOS
