import RogOS.Memory.Lemmas.Heap

/-!
What `sys_free` does to the heap.
-/

namespace RogOS

variable {D lo hi q i idx x p s n : Nat} {K : Arenas} {A : Arena} {free : Nat → List Nat}
  {live : List (Nat × Nat)}
  {m m' : Mem} {h : Heap} {l l' : List Nat} {other : Nat → Prop}

def without (live : List (Nat × Nat)) (p : Nat) : List (Nat × Nat) := live.filter fun b => b.1 ≠ p

theorem mem_without {b : Nat × Nat} : b ∈ without live p ↔ b ∈ live ∧ b.1 ≠ p := by
  simp [without]

theorem mem_ptrs_without : x ∈ ptrs (without live p) ↔ x ∈ ptrs live ∧ x ≠ p := by
  simp only [ptrs, List.mem_map, mem_without]
  constructor
  . rintro ⟨b, ⟨h1, h2⟩, rfl⟩
    exact ⟨⟨b, h1, rfl⟩, h2⟩
  . rintro ⟨⟨b, h1, rfl⟩, h2⟩
    exact ⟨b, ⟨h1, h2⟩, rfl⟩

theorem nodup_without (h : (ptrs live).Nodup) : (ptrs (without live p)).Nodup := by
  have hsub : (ptrs (without live p)).Sublist (ptrs live) := List.Sublist.map _ List.filter_sublist
  exact h.sublist hsub

section Erase

theorem mfreePage_run (hinv : HeapInv D lo hi other K free live h) {h1 : Heap}
    (hheld : h1.held = h.held) (hq : K q = some A)
    : (mfreePage (4096 * q) A.pages).run h1 = .ok ((), h1.setPages q A.pages false) := by
  have hdiv : 4096 * q / 4096 = q := by omega
  have hpos := hinv.ok.pages _ _ hq
  simp only [mfreePage, Cmd.bind_run, Cmd.assert_run, Cmd.get_run, Cmd.modify_run]
  refine ⟨_, _, ⟨⟨hpos, by omega⟩, rfl⟩, _, _, rfl, _, _, ⟨?_, rfl⟩, ?_⟩
  . rw [List.all_eq_true]
    intro k hk
    rw [List.mem_range] at hk
    rw [hdiv, hheld]
    exact (hinv.held _).mpr (.inl ⟨q, A, hq, by omega, by omega⟩)
  . rw [hdiv]

theorem erase_cases {q' : Nat} {A' : Arena} (h : Function.update K q none q' = some A')
    : q' ≠ q ∧ K q' = some A' := by
  by_cases hqq : q' = q
  . rw [hqq, Function.update_self] at h
    contradiction
  . rw [Function.update_of_ne hqq] at h
    exact ⟨hqq, h⟩

theorem Arenas.Ok.erase (hK : K.Ok lo hi) : Arenas.Ok (Function.update K q none) lo hi where
  range q' A' h := hK.range q' A' (erase_cases h).2
  apart q1 q2 A1 A2 h1 h2 := hK.apart q1 q2 A1 A2 (erase_cases h1).2 (erase_cases h2).2
  cls q' i h := hK.cls q' i (erase_cases h).2
  pages q' A' h := hK.pages q' A' (erase_cases h).2

theorem held_erase (hinv : HeapInv D lo hi other K free live h) (hq : K q = some A) (p : Nat)
    : (h.setPages q A.pages false).held p = true
        ↔
      (∃ q' A', Function.update K q none q' = some A' ∧ q' ≤ p ∧ p < q' + A'.pages) ∨ other p := by
  simp only [Heap.setPages]
  constructor
  . intro hp
    split at hp
    . contradiction
    . next hout =>
      obtain ⟨q', A', hq', h1, h2⟩ | hother := (hinv.held p).mp hp
      . refine .inl ⟨q', A', ?_, h1, h2⟩
        rw [Function.update_of_ne]
        . exact hq'
        . rintro rfl
          rw [hq, Option.some.injEq] at hq'
          rw [← hq'] at h2
          omega
      . exact .inr hother
  . rintro (⟨q', A', hq', h1, h2⟩ | hother)
    case inr =>
      split
      . next hin => exact absurd hother (hinv.foreign q A p hq hin.1 hin.2)
      . exact (hinv.held p).mpr (.inr hother)
    obtain ⟨hne, hq'⟩ := erase_cases hq'
    split
    . next hin =>
      exfalso
      obtain hlt | hlt := Nat.lt_or_gt_of_ne hne
      . have := hinv.ok.apart _ _ _ _ hq' hq hlt
        omega
      . have := hinv.ok.apart _ _ _ _ hq hq' hlt
        omega
    . exact (hinv.held p).mpr (.inl ⟨q', A', hq', h1, h2⟩)

theorem Lists.erase (h : Lists D K free m) (hnot : ∀ i < 7, ∀ x ∈ free i, x / 4096 ≠ q)
    : Lists D (Function.update K q none) free m where
  size := h.size
  blocks := h.blocks
  lists i hi := by
    apply (h.lists i hi).mono
    intro x hx
    simp only [List.mem_cons, List.mem_append, List.not_mem_nil, or_false] at hx
    obtain rfl | hx | rfl := hx
    . exact .head hi
    . obtain ⟨q', idx, arena, hidx, rfl⟩ := h.mem_block hi hx
      apply Node.block _ hidx
      rw [Function.update_of_ne]
      . exact arena
      . rintro rfl
        exact hnot i hi _ hx (blockAt_div hidx)
    . exact .tail hi

theorem HeapInv.erase (hinv : HeapInv D lo hi other K free live h) (hq : K q = some A)
    (hnot : ∀ i < 7, ∀ x ∈ free i, x / 4096 ≠ q) (hptr : ∀ x ∈ ptrs (without live p), x / 4096 ≠ q)
    (hpq : p / 4096 = q)
    : HeapInv D lo hi other (Function.update K q none) free (without live p)
        (h.setPages q A.pages false) where
  ok := hinv.ok.erase
  held := held_erase hinv hq
  foreign q' A' x hq' := hinv.foreign q' A' x (erase_cases hq').2
  lists := hinv.lists.erase hnot
  small q' i hq' := hinv.small q' i (erase_cases hq').2
  large q' cnt hq' := hinv.large q' cnt (erase_cases hq').2
  unused i hi x hx hmem := hinv.unused i hi x hx (mem_ptrs_without.mp hmem).1
  block q' i idx hq' hidx := by
    obtain ⟨hne, hq'⟩ := erase_cases hq'
    obtain hmem | hmem := hinv.block q' i idx hq' hidx
    . exact .inl hmem
    . right
      apply mem_ptrs_without.mpr
      refine ⟨hmem, ?_⟩
      rintro rfl
      exact hne ((blockAt_div hidx).symm.trans hpq)
  fits p' s hp' := by
    apply (hinv.fits p' s (mem_without.mp hp').1).update
    exact hptr p' (List.mem_map.mpr ⟨_, hp', rfl⟩)
  largePtr q' cnt hq' := by
    obtain ⟨hne, hq'⟩ := erase_cases hq'
    apply mem_ptrs_without.mpr
    refine ⟨hinv.largePtr q' cnt hq', ?_⟩
    rintro rfl
    omega
  nodup := nodup_without hinv.nodup

end Erase

section Remove

theorem removeBlocks_run (hP : Place D lo hi) (hK : K.Ok lo hi) (hcls : i < 7)
    (arena : K q = some (.small i)) (hdesc : h.mem.word (4096 * q) = UInt32.ofNat (descAt D i))
    (hl : Lists D K free h.mem) (hmem : ∀ k, idx ≤ k → k < idx + n → blockAt q i k ∈ free i)
    : ∃ h', (removeBlocks (4096 * q) n idx).run h = .ok ((), h') ∧ h'.held = h.held
        ∧ Lists D K (Function.update free i ((free i).diff ((List.range' idx n).map (blockAt q i))))
            h'.mem
        ∧ Mem.SameOff (Nodes D K) h.mem h'.mem := by
  induction n generalizing idx h free with
  | zero =>
    refine ⟨h, Cmd.pure_run.mpr rfl, rfl, ?_, .refl⟩
    rw [List.range'_zero, List.map_nil, List.diff_nil, Function.update_eq_self]
    exact hl
  | succ n ih =>
    have hb := @arena2block_eq D lo hi q i idx K free h.mem hP hl hcls hdesc
    have hlist : freeList (h.mem.word (4096 * q)).toNat = freeList (descAt D i) := by
      rw [hdesc, toNat_ofNat_desc hP hcls]
    have hin := hmem idx (Nat.le_refl _) (by omega)
    have hfind : elemFind h.mem (freeList (descAt D i)) (blockAt q i idx) = some true := by
      rw [(hl.lists i hcls).elemFind_eq (node_apart hP hK), decide_eq_true hin]
    obtain ⟨l1, l2, -, hsplit, herase⟩ := List.exists_erase_eq hin
    obtain ⟨hl', hoff⟩ := hl.remove hP hK hcls hsplit
    rw [← herase] at hl'
    generalize hm : listRemove h.mem (blockAt q i idx) = m' at hl' hoff
    have hdesc' : m'.word (4096 * q) = UInt32.ofNat (descAt D i) := by
      rw [← hdesc]
      apply Mem.word_congr
      intro k hk
      exact sameOff_header hP hK arena hoff k (by omega)
    have hmem' : ∀ k, idx + 1 ≤ k → k < idx + 1 + n →
        blockAt q i k ∈ Function.update free i ((free i).erase (blockAt q i idx)) i := by
      intro k hk1 hk2
      rw [Function.update_self, List.mem_erase_of_ne]
      . exact hmem k (by omega) (by omega)
      . intro heq
        have := blockAt_injective heq
        omega
    obtain ⟨h', hrun, hheld, hl'', hoff'⟩ := ih (h := h.setMem m') hdesc' hl' hmem'
    refine ⟨h', ?_, hheld, ?_, hoff.trans hoff'⟩
    . simp only [removeBlocks, Cmd.bind_run, Cmd.get_run]
      refine ⟨_, _, rfl, ?_⟩
      rw [hb, hlist, hfind]
      simp only [modifyMem, Cmd.bind_run, Cmd.assert_run, Cmd.modify_run]
      refine ⟨_, _, ⟨trivial, rfl⟩, _, _, rfl, ?_⟩
      rw [hm]
      exact hrun
    . rw [Function.update_self, Function.update_idem] at hl''
      rw [List.range'_succ, List.map_cons, List.diff_cons]
      exact hl''

section Shrink

variable (hinv : HeapInv D lo hi other K free live h) (hcls : i < 7)
include hinv hcls

theorem HeapInv.mem_diff : x ∈ (free i).diff ((List.range (blocksPerArena i)).map (blockAt q i))
    ↔ x ∈ free i ∧ x / 4096 ≠ q := by
  rw [(hinv.lists.lists i hcls).elems_nodup.mem_sdiff_iff]
  constructor
  . rintro ⟨hx, hnot⟩
    refine ⟨hx, ?_⟩
    rintro rfl
    obtain ⟨q', idx, -, hidx, rfl⟩ := hinv.lists.mem_block hcls hx
    apply hnot
    rw [blockAt_div hidx]
    exact List.mem_map.mpr ⟨idx, List.mem_range.mpr hidx, rfl⟩
  . rintro ⟨hx, hne⟩
    refine ⟨hx, ?_⟩
    intro hin
    obtain ⟨idx, hidx, rfl⟩ := List.mem_map.mp hin
    exact hne (blockAt_div (List.mem_range.mp hidx))

theorem HeapInv.mem_shrunk {j : Nat}
    (hx : x ∈ Function.update free i
      ((free i).diff ((List.range (blocksPerArena i)).map (blockAt q i))) j)
    : x ∈ free j ∧ (j = i → x / 4096 ≠ q) := by
  by_cases hji : j = i
  . subst hji
    rw [Function.update_self, hinv.mem_diff hcls] at hx
    exact ⟨hx.1, fun _ => hx.2⟩
  . rw [Function.update_of_ne hji] at hx
    exact ⟨hx, fun heq => absurd heq hji⟩

theorem HeapInv.countP_shrunk {q' : Nat} (hne : q' ≠ q) (j : Nat)
    : (Function.update free i
        ((free i).diff ((List.range (blocksPerArena i)).map (blockAt q i))) j).countP
          (fun x => x / 4096 = q')
        = (free j).countP fun x => x / 4096 = q' := by
  have hnd := (hinv.lists.lists i hcls).elems_nodup
  have hblocks : ∀ x ∈ free i, ∃ q idx, idx < blocksPerArena i ∧ x = blockAt q i idx := by
    intro x hx
    obtain ⟨q', idx, -, hidx, heq⟩ := hinv.lists.mem_block hcls hx
    exact ⟨q', idx, hidx, heq⟩
  by_cases hji : j = i
  . subst hji
    rw [Function.update_self, countP_blocks hnd hblocks,
      countP_blocks hnd.diff fun x hx => hblocks x ((hinv.mem_diff hcls).mp hx).1]
    apply List.countP_congr
    intro idx hidx
    rw [decide_eq_true_eq, decide_eq_true_eq, hinv.mem_diff hcls,
      blockAt_div (List.mem_range.mp hidx)]
    exact and_iff_left hne
  . rw [Function.update_of_ne hji]

theorem HeapInv.shrink (hP : Place D lo hi) (arena : K q = some (.small i)) {h1 : Heap}
    (hheld : h1.held = h.held)
    (hl : Lists D K
      (Function.update free i ((free i).diff ((List.range (blocksPerArena i)).map (blockAt q i))))
      h1.mem)
    (hoff : Mem.SameOff (Nodes D K) h.mem h1.mem) (hptr : ∀ x ∈ ptrs live, x / 4096 ≠ q)
    : HeapInv D lo hi other (Function.update K q none)
        (Function.update free i ((free i).diff ((List.range (blocksPerArena i)).map (blockAt q i))))
        live (h1.setPages q 1 false) where
  ok := hinv.ok.erase
  held x := by
    have hset : (h1.setPages q 1 false).held x
        = (h.setPages q (Arena.pages (.small i)) false).held x := by
      simp only [Heap.setPages, hheld]
      rfl
    rw [hset]
    exact held_erase hinv arena x
  foreign q' A' x hq' := hinv.foreign q' A' x (erase_cases hq').2
  lists := by
    apply hl.erase
    intro j hj x hx hdiv
    obtain ⟨hx', hne⟩ := hinv.mem_shrunk hcls hx
    by_cases hji : j = i
    . exact hne hji hdiv
    . obtain ⟨q', idx, arena', hidx, rfl⟩ := hinv.lists.mem_block hj hx'
      rw [blockAt_div hidx] at hdiv
      subst hdiv
      rw [arena, Option.some.injEq, Arena.small.injEq] at arena'
      exact hji arena'.symm
  small q' j hq' := by
    obtain ⟨hne, hq'⟩ := erase_cases hq'
    rw [hinv.countP_shrunk hcls hne]
    exact (hinv.small q' j hq').congr (sameOff_header hP hinv.ok hq' hoff)
  large q' cnt hq' := by
    obtain ⟨-, hq'⟩ := erase_cases hq'
    exact (hinv.large q' cnt hq').congr (sameOff_header hP hinv.ok hq' hoff)
  unused j hj x hx := hinv.unused j hj x (hinv.mem_shrunk hcls hx).1
  block q' j idx hq' hidx := by
    obtain ⟨hne, hq'⟩ := erase_cases hq'
    obtain hin | hin := hinv.block q' j idx hq' hidx
    . left
      by_cases hji : j = i
      . subst hji
        rw [Function.update_self, hinv.mem_diff hcls, blockAt_div hidx]
        exact ⟨hin, hne⟩
      . rw [Function.update_of_ne hji]
        exact hin
    . exact .inr hin
  fits p' s hp' := (hinv.fits p' s hp').update (hptr p' (List.mem_map.mpr ⟨_, hp', rfl⟩))
  largePtr q' cnt hq' := hinv.largePtr q' cnt (erase_cases hq').2
  nodup := hinv.nodup

end Shrink

end Remove

section Free

/-- The memory after a block was given back: it is the last of its list, and its arena counts it. -/
structure Given (D lo hi : Nat) (other : Nat → Prop) (K : Arenas) (free : Nat → List Nat)
    (q i idx : Nat) (m m' : Mem) : Prop where
  lists : Lists D K (Function.update free i (free i ++ [blockAt q i idx])) m'
  others : ∀ q' A, K q' = some A → q' ≠ q → ∀ k < 12, m' (4096 * q' + k) = m (4096 * q' + k)
  header : SmallHeader D i ((free i ++ [blockAt q i idx]).countP fun x => x / 4096 = q) m' q
  frame : HeapFrame D lo hi other m m'

theorem countP_given (hidx : idx < blocksPerArena i)
    : (free i ++ [blockAt q i idx]).countP (fun x => x / 4096 = q)
        = (free i).countP (fun x => x / 4096 = q) + 1 := by
  rw [List.countP_append, List.countP_singleton, blockAt_div hidx, if_pos (decide_eq_true rfl)]

theorem countP_given_other {q' : Nat} (hidx : idx < blocksPerArena i) (hne : q' ≠ q) (j : Nat)
    : (Function.update free i (free i ++ [blockAt q i idx]) j).countP (fun x => x / 4096 = q')
        = (free j).countP (fun x => x / 4096 = q') := by
  by_cases hji : j = i
  . subst hji
    rw [Function.update_self, List.countP_append, List.countP_singleton, blockAt_div hidx, if_neg,
      Nat.add_zero]
    rw [decide_eq_true_eq]
    exact Ne.symm hne
  . rw [Function.update_of_ne hji]

theorem Lists.recount {l : List Nat} {v : UInt32} (hP : Place D lo hi) (hK : K.Ok lo hi)
    (arena : K q = some (.small i)) (h : Lists D K (Function.update free i l) m)
    : Lists D K (Function.update free i l) (m.setWord (4096 * q + 4) v) := by
  apply h.of_bytes (S := fun a => 4096 * q + 4 ≤ a ∧ a < 4096 * q + 8)
  . intro a ha
    exact Mem.setWord_of_not_mem (by omega)
  . intro j hj k hk
    have hr := hK.range _ _ arena
    have hregion := hP.descs
    simp only [Arena.pages] at hr
    unfold descAt descSize
    omega
  . intro j hj x hx k hk
    have := hK.header_apart hP arena ((h.lists j hj).nodes x hx).nodes
    omega

theorem giveBlock_mem (hP : Place D lo hi) (hinv : HeapInv D lo hi other K free live h)
    (hcls : i < 7) (arena : K q = some (.small i)) (hidx : idx < blocksPerArena i)
    (hlive : blockAt q i idx ∈ ptrs live)
    (hm : m = listAppend h.mem (freeList (descAt D i)) (blockAt q i idx))
    : Given D lo hi other K free q i idx h.mem
        (m.setWord (4096 * q + 4) (m.word (4096 * q + 4) + 1)) := by
  have hK := hinv.ok
  have hnot : blockAt q i idx ∉ free i := fun hmem => hinv.unused i hcls _ hmem hlive
  obtain ⟨hl, hoff⟩ := hinv.lists.append hP hK hcls arena hidx hnot
  rw [← hm] at hl hoff
  have hheader := fun q' A hq' => @sameOff_header D lo hi q' K A h.mem m hP hK hq' hoff
  have hold := (hinv.small q i arena).congr (hheader q _ arena)
  generalize hm2 : m.setWord (4096 * q + 4) (m.word (4096 * q + 4) + 1) = m2
  have hsame : ∀ a, (a < 4096 * q + 4 ∨ 4096 * q + 8 ≤ a) → m2 a = m a := by
    intro a ha
    rw [← hm2, Mem.setWord_of_not_mem (by omega)]
  refine ⟨?_, ?_, ⟨?_, ?_, ?_⟩, ?_⟩
  . rw [← hm2]
    exact hl.recount hP hK arena
  . intro q' A hq' hne k hk
    rw [hsame _ (by omega)]
    exact hheader q' A hq' k hk
  . rw [← hold.desc, ← hm2]
    exact Mem.word_setWord_of_disjoint (by omega)
  . rw [countP_given hidx, UInt32.ofNat_add, ← hold.cnt, ← hm2]
    exact Mem.word_setWord_self
  . rw [← hold.large, ← hm2]
    exact Mem.word_setWord_of_disjoint (by omega)
  . apply (hK.frame_of_sameOff hinv.foreign hoff).trans
    intro a ha1 ha2
    apply hsame
    have hpage : ¬ (4096 * q ≤ a ∧ a < 4096 * (q + 1)) := fun hand =>
      hK.not_frame hinv.foreign arena hand.1 hand.2 ha2
    omega

theorem HeapInv.give (hinv : HeapInv D lo hi other K free live h) (arena : K q = some (.small i))
    (hidx : idx < blocksPerArena i) (hg : Given D lo hi other K free q i idx h.mem m)
    : HeapInv D lo hi other K (Function.update free i (free i ++ [blockAt q i idx]))
        (without live (blockAt q i idx)) (h.setMem m) where
  ok := hinv.ok
  held := hinv.held
  foreign := hinv.foreign
  lists := hg.lists
  small q' j hq' := by
    by_cases hqq : q' = q
    . subst hqq
      rw [arena, Option.some.injEq, Arena.small.injEq] at hq'
      subst hq'
      rw [Function.update_self]
      exact hg.header
    . rw [countP_given_other hidx hqq]
      exact (hinv.small q' j hq').congr (hg.others q' _ hq' hqq)
  large q' cnt hq' := by
    have hqq : q' ≠ q := by
      rintro rfl
      rw [arena] at hq'
      cases hq'
    exact (hinv.large q' cnt hq').congr (hg.others q' _ hq' hqq)
  unused j hj x hx hin := by
    obtain ⟨hold, hne⟩ := mem_ptrs_without.mp hin
    by_cases hji : j = i
    . subst hji
      rw [Function.update_self, List.mem_append, List.mem_singleton] at hx
      obtain hx | hx := hx
      . exact hinv.unused j hj x hx hold
      . exact hne hx
    . rw [Function.update_of_ne hji] at hx
      exact hinv.unused j hj x hx hold
  block q' j idx' hq' hidx' := by
    obtain hmem | hmem := hinv.block q' j idx' hq' hidx'
    . left
      by_cases hji : j = i
      . subst hji
        rw [Function.update_self]
        exact List.mem_append_left _ hmem
      . rw [Function.update_of_ne hji]
        exact hmem
    . by_cases heq : blockAt q' j idx' = blockAt q i idx
      . left
        obtain ⟨rfl, rfl, rfl⟩ | hap := Arenas.blocks_apart hq' arena hidx' hidx
        . rw [Function.update_self]
          exact List.mem_append_right _ List.mem_cons_self
        . have h1 := @blockSize_pos i
          have h2 := @blockSize_pos j
          omega
      . exact .inr (mem_ptrs_without.mpr ⟨hmem, heq⟩)
  fits p' s hp' := hinv.fits p' s (mem_without.mp hp').1
  largePtr q' cnt hq' := by
    apply mem_ptrs_without.mpr
    refine ⟨hinv.largePtr q' cnt hq', ?_⟩
    intro heq
    have hdiv := blockAt_div (q := q) hidx
    rw [← heq] at hdiv
    have hqq : q' = q := by omega
    subst hqq
    rw [arena] at hq'
    cases hq'
  nodup := nodup_without hinv.nodup

theorem HeapInv.ptr_small (hinv : HeapInv D lo hi other K free live h)
    (arena : K q = some (.small i)) (hx : x ∈ ptrs live)
    (hdiv : x / 4096 = q) : ∃ idx < blocksPerArena i, x = blockAt q i idx := by
  obtain ⟨⟨p, s⟩, hp, rfl⟩ := List.mem_map.mp hx
  dsimp only at hdiv ⊢
  cases hinv.fits p s hp with
  | large arena' size =>
    rename_i q' cnt
    have hqq : q' = q := by omega
    rw [hqq, arena] at arena'
    cases arena'
  | small arena' idx_lt size =>
    rw [blockAt_div idx_lt] at hdiv
    subst hdiv
    rw [arena, Option.some.injEq, Arena.small.injEq] at arena'
    subst arena'
    exact ⟨_, idx_lt, rfl⟩

theorem HeapInv.ptr_large {cnt : Nat} (hinv : HeapInv D lo hi other K free live h)
    (arena : K q = some (.large cnt)) (hx : x ∈ ptrs live)
    (hdiv : x / 4096 = q) : x = 4096 * q + 12 := by
  obtain ⟨⟨p, s⟩, hp, rfl⟩ := List.mem_map.mp hx
  dsimp only at hdiv ⊢
  cases hinv.fits p s hp with
  | large arena' size => omega
  | small arena' idx_lt size =>
    rw [blockAt_div idx_lt] at hdiv
    subst hdiv
    rw [arena] at arena'
    cases arena'

theorem HeapInv.ptr_pos (hP : Place D lo hi) (hinv : HeapInv D lo hi other K free live h)
    (hp : p ∈ ptrs live)
    : p ≠ 0 ∧ (0xc0100 ≤ lo → 0xc0100000 < p) := by
  obtain ⟨⟨p', s⟩, hmem, rfl⟩ := List.mem_map.mp hp
  obtain ⟨q, A, hq, h1, -, -⟩ := (hinv.fits p' s hmem).arena
  have hr := hinv.ok.range q A hq
  have hlow := hP.lowest
  dsimp only
  omega

theorem Arenas.Used.without (hused : K.Used live q) (hne : p / 4096 ≠ q)
    : K.Used (without live p) q := by
  intro j hq
  obtain ⟨idx, hidx, hin⟩ := hused j hq
  refine ⟨idx, hidx, mem_ptrs_without.mpr ⟨hin, ?_⟩⟩
  intro heq
  have hdiv := blockAt_div (q := q) hidx
  rw [heq] at hdiv
  exact hne hdiv

structure Freed (D lo hi : Nat) (other : Nat → Prop) (K : Arenas) (free : Nat → List Nat)
    (live : List (Nat × Nat)) (p : Nat) (h h' : Heap) : Prop where
  inv : HeapInv D lo hi other K free (without live p) h'
  used : ∀ q, K.Used (without live p) q
  frame : HeapFrame D lo hi other h.mem h'.mem

theorem HeapInv.counter_full (hinv : HeapInv D lo hi other K free live h) (hcls : i < 7)
    (arena : K q = some (.small i))
    : h.mem.word (4096 * q + 4) = h.mem.word (descAt D i + 4) ↔ ∀ k < blocksPerArena i,
        blockAt q i k ∈ free i := by
  have hnd := (hinv.lists.lists i hcls).elems_nodup
  have hblocks : ∀ x ∈ free i, ∃ q idx, idx < blocksPerArena i ∧ x = blockAt q i idx := by
    intro x hx
    obtain ⟨q', idx', -, hidx', heq⟩ := hinv.lists.mem_block hcls hx
    exact ⟨q', idx', hidx', heq⟩
  have hfull := @countP_eq_blocksPerArena q i _ hnd hblocks
  have hle : (free i).countP (fun x => x / 4096 = q) ≤ blocksPerArena i := by
    rw [countP_blocks hnd hblocks]
    apply List.countP_le_length.trans
    rw [List.length_range]
  have hlt := @blocksPerArena_lt i
  rw [← hfull, (hinv.small q i arena).cnt, hinv.lists.blocks i hcls, ← UInt32.toNat_inj,
    UInt32.toNat_ofNat', UInt32.toNat_ofNat']
  omega

variable {env : HeapEnv}

theorem sysFree_large {cnt : Nat} (hP : Place D lo hi) (hkernel : env.kernel = true → 0xc0100 ≤ lo)
    (hinv : HeapInv D lo hi other K free live h) (hused : ∀ q, K.Used live q)
    (arena : K q = some (.large cnt))
    : ∃ h', (sysFree env (4096 * q + 12)).run h = .ok ((), h')
        ∧ Freed D lo hi other (Function.update K q none) free live (4096 * q + 12) h h' := by
  have hp := hinv.largePtr q cnt arena
  obtain ⟨hpos, habove⟩ := hinv.ptr_pos hP hp
  have harena : block2arena (4096 * q + 12) = 4096 * q := by
    unfold block2arena
    omega
  have hheader := hinv.large q cnt arena
  have hcnt : (UInt32.ofNat cnt).toNat = cnt := by
    have hr := hinv.ok.range _ _ arena
    have := hP.highest
    simp only [Arena.pages] at hr
    rw [UInt32.toNat_ofNat']
    omega
  refine ⟨h.setPages q cnt false, ?_, ?_, ?_, .refl⟩
  . simp only [sysFree, harena, Cmd.bind_run, Cmd.assert_run, Cmd.get_run]
    refine ⟨_, _, ⟨hpos, rfl⟩, _, _, ⟨fun hk => habove (hkernel hk), rfl⟩, _, _, rfl, _, _,
      ⟨.inr hheader.large, rfl⟩, ?_⟩
    rw [if_pos ⟨by rw [hheader.desc]; rfl, hheader.large⟩, hheader.cnt, hcnt]
    exact mfreePage_run hinv rfl arena
  . apply hinv.erase arena
    . intro j hj x hx hdiv
      obtain ⟨q', idx, arena', hidx, rfl⟩ := hinv.lists.mem_block hj hx
      rw [blockAt_div hidx] at hdiv
      subst hdiv
      rw [arena] at arena'
      cases arena'
    . intro x hx hdiv
      obtain ⟨hx, hne⟩ := mem_ptrs_without.mp hx
      exact hne (hinv.ptr_large arena hx hdiv)
    . omega
  . intro q' j hq'
    obtain ⟨hne, hq'⟩ := erase_cases hq'
    have hdiv : (4096 * q + 12) / 4096 ≠ q' := by omega
    exact (hused q').without hdiv j hq'

theorem sysFree_small (hP : Place D lo hi) (hkernel : env.kernel = true → 0xc0100 ≤ lo)
    (hinv : HeapInv D lo hi other K free live h) (arena : K q = some (.small i))
    (hidx : idx < blocksPerArena i) (hp : blockAt q i idx ∈ ptrs live)
    : ∃ h1, HeapInv D lo hi other K (Function.update free i (free i ++ [blockAt q i idx]))
        (without live (blockAt q i idx)) h1
        ∧ HeapFrame D lo hi other h.mem h1.mem
        ∧ ∀ r, (if ∀ k < blocksPerArena i, blockAt q i k ∈ free i ++ [blockAt q i idx] then do
              removeBlocks (4096 * q) (blocksPerArena i) 0
              mfreePage (4096 * q) 1
            else pure () : HeapM Unit).run h1 = .ok r
          → (sysFree env (blockAt q i idx)).run h = .ok r := by
  have hcls := hinv.ok.cls q i arena
  have hheader := hinv.small q i arena
  have harena := block2arena_blockAt (q := q) hidx
  have hdesc := toNat_ofNat_desc hP hcls
  have hdescPos : descAt D i ≠ 0 := by
    have := hP.descsPos
    unfold descAt
    omega
  obtain ⟨hpos, habove⟩ := hinv.ptr_pos hP hp
  have hgiven := giveBlock_mem hP hinv hcls arena hidx hp rfl
  have hgive := hinv.give arena hidx hgiven
  have hframe := hgiven.frame
  generalize hm1 : listAppend h.mem (freeList (descAt D i)) (blockAt q i idx) = m1 at hgive hframe
  generalize hm2 : m1.setWord (4096 * q + 4) (m1.word (4096 * q + 4) + 1) = m2 at hgive hframe
  have hfull : m2.word (4096 * q + 4) = m2.word (descAt D i + 4)
      ↔ ∀ k < blocksPerArena i, blockAt q i k ∈ free i ++ [blockAt q i idx] := by
    rw [← @Function.update_self _ _ _ i (free i ++ [blockAt q i idx]) free]
    exact hgive.counter_full hcls arena
  have hblocks : m2.word (descAt D i + 4) = UInt32.ofNat (blocksPerArena i) :=
    hgive.lists.blocks i hcls
  refine ⟨h.setMem m2, hgive, hframe, ?_⟩
  intro r hr
  simp only [sysFree, harena, modifyMem, loadWord, Cmd.bind_run, Cmd.assert_run, Cmd.get_run]
  refine ⟨_, _, ⟨hpos, rfl⟩, _, _, ⟨fun hk => habove (hkernel hk), rfl⟩, _, _, rfl, _, _,
    ⟨.inl hheader.large, rfl⟩, ?_⟩
  rw [hheader.desc, hdesc, if_neg fun hand => hdescPos hand.1]
  simp only [harena, hheader.desc, hdesc, Cmd.bind_run, Cmd.assert_run, Cmd.get_run, Cmd.modify_run,
    Cmd.pure_run]
  refine ⟨_, _, ⟨hdescPos, rfl⟩, _, _, rfl, _, _, rfl, _, _, ⟨_, _, rfl, rfl⟩, _, _,
    ⟨_, _, rfl, rfl⟩, ?_⟩
  simp only [Heap.setMem, hm1, hm2]
  split at hr
  . next hall =>
    rw [if_pos (hfull.mpr hall), hblocks, toNat_ofNat_blocksPerArena]
    exact hr
  . next hno =>
    rw [if_neg fun heq => hno (hfull.mp heq)]
    exact hr

theorem sysFree_keep (idx : Nat) (hP : Place D lo hi) (hkernel : env.kernel = true → 0xc0100 ≤ lo)
    (hinv : HeapInv D lo hi other K free live h) (hused : ∀ q, K.Used live q)
    (arena : K q = some (.small i)) (hidx : idx < blocksPerArena i)
    (hp : blockAt q i idx ∈ ptrs live)
    (hno : ¬ ∀ k < blocksPerArena i, blockAt q i k ∈ free i ++ [blockAt q i idx])
    : ∃ h', (sysFree env (blockAt q i idx)).run h = .ok ((), h')
        ∧ Freed D lo hi other K (Function.update free i (free i ++ [blockAt q i idx])) live
            (blockAt q i idx) h h' := by
  obtain ⟨h1, hgive, hframe, hrun⟩ :=
    @sysFree_small D lo hi q i idx K free live h other env hP hkernel hinv arena hidx hp
  rw [if_neg hno] at hrun
  refine ⟨h1, hrun _ (Cmd.pure_run.mpr rfl), hgive, ?_, hframe⟩
  intro q' j hq'
  by_cases hqq : q' = q
  . -- some block of the arena is not free
    subst hqq
    rw [arena, Option.some.injEq, Arena.small.injEq] at hq'
    subst hq'
    push Not at hno
    obtain ⟨k, hk, hnot⟩ := hno
    refine ⟨k, hk, ?_⟩
    obtain hin | hin := hgive.block q' i k arena hk
    . rw [Function.update_self] at hin
      exact absurd hin hnot
    . exact hin
  . have hdiv : blockAt q i idx / 4096 ≠ q' := by
      rw [blockAt_div hidx]
      exact Ne.symm hqq
    exact (hused q').without hdiv j hq'

theorem sysFree_last (idx : Nat) (hP : Place D lo hi) (hkernel : env.kernel = true → 0xc0100 ≤ lo)
    (hinv : HeapInv D lo hi other K free live h) (hused : ∀ q, K.Used live q)
    (arena : K q = some (.small i)) (hidx : idx < blocksPerArena i)
    (hp : blockAt q i idx ∈ ptrs live)
    (hall : ∀ k < blocksPerArena i, blockAt q i k ∈ free i ++ [blockAt q i idx])
    : ∃ h', (sysFree env (blockAt q i idx)).run h = .ok ((), h')
        ∧ Freed D lo hi other (Function.update K q none)
            (Function.update free i
              ((free i ++ [blockAt q i idx]).diff
              ((List.range (blocksPerArena i)).map (blockAt q i))))
            live (blockAt q i idx) h h' := by
  have hcls := hinv.ok.cls q i arena
  obtain ⟨h1, hgive, hframe, hrun⟩ :=
    @sysFree_small D lo hi q i idx K free live h other env hP hkernel hinv arena hidx hp
  rw [if_pos hall] at hrun
  have hin : ∀ k, 0 ≤ k → k < 0 + blocksPerArena i →
      blockAt q i k ∈ Function.update free i (free i ++ [blockAt q i idx]) i := by
    intro k hk1 hk2
    rw [Function.update_self]
    exact hall k (by omega)
  obtain ⟨h2, hrun2, hheld, hl, hoff⟩ :=
    removeBlocks_run hP hinv.ok hcls arena (hgive.small q i arena).desc hgive.lists hin
  rw [← List.range_eq_range'] at hl
  have hptr : ∀ x ∈ ptrs (without live (blockAt q i idx)), x / 4096 ≠ q := by
    intro x hx hdiv
    obtain ⟨k, hk, rfl⟩ := hgive.ptr_small arena hx hdiv
    apply hgive.unused i hcls _ _ hx
    rw [Function.update_self]
    exact hall k hk
  have hshrink := hgive.shrink hcls hP arena hheld hl hoff hptr
  rw [Function.update_self, Function.update_idem] at hshrink
  refine ⟨h2.setPages q 1 false, hrun _ ?_, hshrink, ?_,
    hframe.trans (hinv.ok.frame_of_sameOff hinv.foreign hoff)⟩
  . rw [Cmd.bind_run]
    exact ⟨(), h2, hrun2, mfreePage_run hgive hheld arena⟩
  . intro q' j hq'
    obtain ⟨hne, hq'⟩ := erase_cases hq'
    have hdiv : blockAt q i idx / 4096 ≠ q' := by
      rw [blockAt_div hidx]
      exact Ne.symm hne
    exact (hused q').without hdiv j hq'

theorem sysFree_run (hP : Place D lo hi) (hkernel : env.kernel = true → 0xc0100 ≤ lo)
    (hinv : HeapInv D lo hi other K free live h) (hused : ∀ q, K.Used live q) (hp : p ∈ ptrs live)
    : ∃ K' free' h', (sysFree env p).run h = .ok ((), h')
        ∧ Freed D lo hi other K' free' live p h h' := by
  obtain ⟨⟨p', s⟩, hmem, rfl⟩ := List.mem_map.mp hp
  cases hinv.fits p' s hmem with
  | large arena size =>
    obtain ⟨h', hrun, hfreed⟩ := sysFree_large hP hkernel hinv hused arena
    exact ⟨_, _, h', hrun, hfreed⟩
  | small arena idx_lt size =>
    rename_i q i idx
    by_cases hall : ∀ k < blocksPerArena i, blockAt q i k ∈ free i ++ [blockAt q i idx]
    . obtain ⟨h', hrun, hfreed⟩ := sysFree_last idx hP hkernel hinv hused arena idx_lt hp hall
      exact ⟨_, _, h', hrun, hfreed⟩
    . obtain ⟨h', hrun, hfreed⟩ := sysFree_keep idx hP hkernel hinv hused arena idx_lt hp hall
      exact ⟨_, _, h', hrun, hfreed⟩

end Free

end RogOS
