import RogOS.Memory.Lemmas.Arena

/-!
The state of the heap between the calls of `sys_malloc` and `sys_free`, and what the parts of these
functions do to it.
-/

namespace RogOS

variable {D lo hi q i j idx x a : Nat} {K : Arenas} {A : Arena} {free : Nat → List Nat}
  {live : List (Nat × Nat)}
  {m m' : Mem} {h : Heap} {l l' : List Nat} {other : Nat → Prop}

section Lists

structure Lists (D : Nat) (K : Arenas) (free : Nat → List Nat) (m : Mem) : Prop where
  size : ∀ i < 7, m.word (descAt D i) = UInt32.ofNat (blockSize i)
  blocks : ∀ i < 7, m.word (descAt D i + 4) = UInt32.ofNat (blocksPerArena i)
  lists : ∀ i < 7, ListOf (Node D K i) m (freeList (descAt D i)) (free i)

theorem node_apart (hP : Place D lo hi) (hK : K.Ok lo hi) : Mem.Apart (Node D K i) :=
  (nodes_apart hP hK).mono fun _ hx => hx.nodes

namespace Lists

theorem mem_block (h : Lists D K free m) (hi : i < 7) (hx : x ∈ free i)
    : ∃ q idx, K q = some (.small i) ∧ idx < blocksPerArena i ∧ x = blockAt q i idx := by
  have hlist := h.lists i hi
  have hnode := hlist.nodes x (List.mem_cons_of_mem _ (List.mem_append_left _ hx))
  have hnd := hlist.nodup
  cases hnode with
  | head cls =>
    rw [List.nodup_cons] at hnd
    exact absurd (List.mem_append_left _ hx) hnd.1
  | tail cls => exact absurd hx hlist.tail_not_mem
  | block arena idx_lt => exact ⟨_, _, arena, idx_lt, rfl⟩

theorem of_words (h : Lists D K free m)
    (hdesc : ∀ i < 7, m'.word (descAt D i) = m.word (descAt D i) ∧ m'.word (descAt D i + 4)
      = m.word (descAt D i + 4))
    (hnode : ∀ i < 7, ∀ x ∈ freeList (descAt D i) :: (free i ++ [listTail (freeList (descAt D i))]),
      m'.word x = m.word x ∧ m'.word (x + 4) = m.word (x + 4))
    : Lists D K free m' where
  size i hi := (hdesc i hi).1.trans (h.size i hi)
  blocks i hi := (hdesc i hi).2.trans (h.blocks i hi)
  lists i hi := (h.lists i hi).of_words (hnode i hi)

theorem of_bytes {S : Nat → Prop} (h : Lists D K free m) (hsame : ∀ a, ¬ S a → m' a = m a)
    (hdesc : ∀ i < 7, ∀ k < 8, ¬ S (descAt D i + k))
    (hnode : ∀ i < 7, ∀ x ∈ freeList (descAt D i) :: (free i ++ [listTail (freeList (descAt D i))]),
      ∀ k < 8, ¬ S (x + k))
    : Lists D K free m' := by
  apply h.of_words
  . intro i hi
    constructor
    . apply Mem.word_congr
      intro k hk
      exact hsame _ (hdesc i hi k (by omega))
    . apply Mem.word_congr
      intro k hk
      rw [Nat.add_assoc]
      exact hsame _ (hdesc i hi (4 + k) (by omega))
  . intro i hi x hx
    constructor
    . apply Mem.word_congr
      intro k hk
      exact hsame _ (hnode i hi x hx k (by omega))
    . apply Mem.word_congr
      intro k hk
      rw [Nat.add_assoc]
      exact hsame _ (hnode i hi x hx (4 + k) (by omega))

theorem change (h : Lists D K free m) (hP : Place D lo hi) (hK : K.Ok lo hi)
    (hi : i < 7) (hoff : Mem.SameOff (Nodes D K) m m')
    (hlist : ListOf (Node D K i) m' (freeList (descAt D i)) l)
    {k : Links Nat} (hk : Mem.LinksOn (Nodes D K) m' k)
    (hsame : ∀ x, ¬ Node D K i x → k.next x = m.links.next x ∧ k.prev x = m.links.prev x)
    : Lists D K (Function.update free i l) m' where
  size j hj := by
    rw [hoff.word]
    . exact h.size j hj
    . intro x hx
      have := hK.desc_apart hP hj hx
      omega
  blocks j hj := by
    rw [hoff.word]
    . exact h.blocks j hj
    . intro x hx
      have := hK.desc_apart hP hj hx
      omega
  lists j hj := by
    by_cases hji : j = i
    . subst hji
      rw [Function.update_self]
      exact hlist
    . rw [Function.update_of_ne hji]
      apply (h.lists j hj).congr (k := k)
      . intro x hx
        exact hk x hx.nodes
      . intro x hx
        apply hsame
        intro hnode
        exact hji (((h.lists j hj).nodes x hx).cls_unique hP hK hnode)

theorem append (h : Lists D K free m) (hP : Place D lo hi) (hK : K.Ok lo hi) (hi : i < 7)
    (arena : K q = some (.small i)) (hidx : idx < blocksPerArena i)
    (hnot : blockAt q i idx ∉ free i)
    : Lists D K (Function.update free i (free i ++ [blockAt q i idx]))
        (listAppend m (freeList (descAt D i)) (blockAt q i idx))
      ∧ Mem.SameOff (Nodes D K) m (listAppend m (freeList (descAt D i)) (blockAt q i idx)) := by
  have hlist := h.lists i hi
  have hx : Node D K i (blockAt q i idx) := .block arena hidx
  have hb := hK.block_bounds arena hidx
  have hregion := hP.descs
  have hs := @blockSize_ge i
  have hnot' : blockAt q i idx ∉ freeList (descAt D i)
      :: (free i ++ [listTail (freeList (descAt D i))]) := by
    simp only [List.mem_cons, List.mem_append, List.not_mem_nil, or_false, not_or, freeList,
      listTail, descAt, descSize]
    refine ⟨by omega, hnot, by omega⟩
  have htail : Node D K i (listTail (freeList (descAt D i))) := .tail hi
  have hprev : Node D K i (m.links.prev (listTail (freeList (descAt D i)))) := by
    apply hlist.nodes
    rw [← List.cons_append]
    exact List.mem_append_left _ hlist.chain.prev_mem
  have hne : blockAt q i idx ≠ listTail (freeList (descAt D i)) := by
    intro heq
    apply hnot'
    rw [heq]
    simp
  have hoff := listInsertBefore_sameOff (nodes_apart hP hK) htail.nodes hx.nodes hprev.nodes hne
  refine ⟨?_, hoff⟩
  apply h.change hP hK hi hoff (hlist.listAppend (node_apart hP hK) hx hnot')
    (listInsertBefore_links (nodes_apart hP hK) htail.nodes hx.nodes hprev.nodes hne)
  intro y hy
  unfold Links.insertBefore
  dsimp only
  rw [Function.update_of_ne, Function.update_of_ne, Function.update_of_ne, Function.update_of_ne]
  . exact ⟨rfl, rfl⟩
  . rintro rfl
    exact hy hx
  . rintro rfl
    exact hy htail
  . rintro rfl
    exact hy hx
  . rintro rfl
    exact hy hprev

theorem remove (h : Lists D K free m) (hP : Place D lo hi) (hK : K.Ok lo hi) (hi : i < 7)
    (hfree : free i = l ++ x :: l')
    : Lists D K (Function.update free i (l ++ l')) (listRemove m x)
        ∧ Mem.SameOff (Nodes D K) m (listRemove m x) := by
  have hlist := h.lists i hi
  rw [hfree] at hlist
  obtain ⟨hx, hp, hn, hne⟩ := hlist.remove_nodes
  have hoff := listRemove_sameOff (nodes_apart hP hK) hx.nodes hp.nodes hn.nodes hne
  refine ⟨?_, hoff⟩
  apply h.change hP hK hi hoff (hlist.listRemove (node_apart hP hK))
    (listRemove_links (nodes_apart hP hK) hx.nodes hp.nodes hn.nodes hne)
  intro y hy
  unfold Links.remove
  dsimp only
  rw [Function.update_of_ne, Function.update_of_ne]
  . exact ⟨rfl, rfl⟩
  . rintro rfl
    exact hy hn
  . rintro rfl
    exact hy hp

end Lists

end Lists

section Inv

def HeapFrame (D lo hi : Nat) (other : Nat → Prop) (m m' : Mem) : Prop :=
  ∀ a, (a < D ∨ D + 168 ≤ a) → (a < 4096 * lo ∨ 4096 * hi ≤ a ∨ other (a / 4096)) → m' a = m a

theorem HeapFrame.refl : HeapFrame D lo hi other m m := fun _ _ _ => rfl

theorem HeapFrame.trans {m'' : Mem} (h : HeapFrame D lo hi other m m')
    (h' : HeapFrame D lo hi other m' m'')
    : HeapFrame D lo hi other m m'' := by
  intro a ha1 ha2
  rw [h' a ha1 ha2, h a ha1 ha2]

def Arenas.Foreign (K : Arenas) (other : Nat → Prop) : Prop :=
  ∀ q A p, K q = some A → q ≤ p → p < q + A.pages → ¬ other p

theorem Arenas.Ok.not_frame (hK : K.Ok lo hi) (hforeign : K.Foreign other) (hq : K q = some A)
    (ha1 : 4096 * q ≤ a)
    (ha2 : a < 4096 * (q + A.pages)) : ¬ (a < 4096 * lo ∨ 4096 * hi ≤ a ∨ other (a / 4096)) := by
  have hr := hK.range q A hq
  have hf := hforeign q A (a / 4096) hq (by omega) (by omega)
  rintro (h | h | h)
  . omega
  . omega
  . exact hf h

theorem Arenas.Ok.frame_of_sameOff (hK : K.Ok lo hi) (hforeign : K.Foreign other)
    (hoff : Mem.SameOff (Nodes D K) m m') : HeapFrame D lo hi other m m' := by
  intro a ha1 ha2
  apply hoff
  rintro x ⟨i, hx⟩
  by_contra hin
  obtain ⟨hi, hx⟩ | ⟨q, idx, arena, hidx, rfl⟩ := hx.cases
  . omega
  . have hb := blockAt_bounds (q := q) hidx
    have hs := @blockSize_ge i
    apply hK.not_frame (a := a) hforeign arena _ _ ha2
    . omega
    . simp only [Arena.pages]
      omega

structure SmallHeader (D i cnt : Nat) (m : Mem) (q : Nat) : Prop where
  desc : m.word (4096 * q) = UInt32.ofNat (descAt D i)
  cnt : m.word (4096 * q + 4) = UInt32.ofNat cnt
  large : m.word (4096 * q + 8) = 0

structure LargeHeader (cnt : Nat) (m : Mem) (q : Nat) : Prop where
  desc : m.word (4096 * q) = 0
  cnt : m.word (4096 * q + 4) = UInt32.ofNat cnt
  large : m.word (4096 * q + 8) = 1

inductive Fits (K : Arenas) : Nat → Nat → Prop
  | large {q cnt s : Nat} (arena : K q = some (.large cnt)) (size : s + 12 ≤ 4096 * cnt)
      : Fits K (4096 * q + 12) s
  | small {q i idx s : Nat} (arena : K q = some (.small i)) (idx_lt : idx < blocksPerArena i)
      (size : s ≤ blockSize i)
    : Fits K (blockAt q i idx) s

abbrev ptrs (live : List (Nat × Nat)) : List Nat := live.map Prod.fst

/--
The state of the heap with the arenas `K`, the free lists `free` and the blocks `live` in use. The
task holds the pages `other` too, which are none of the arenas.
-/
structure HeapInv (D lo hi : Nat) (other : Nat → Prop) (K : Arenas) (free : Nat → List Nat)
    (live : List (Nat × Nat)) (h : Heap) : Prop where
  ok : K.Ok lo hi
  held : ∀ p, h.held p = true ↔ (∃ q A, K q = some A ∧ q ≤ p ∧ p < q + A.pages) ∨ other p
  foreign : K.Foreign other
  lists : Lists D K free h.mem
  small : ∀ q i, K q = some (.small i) → SmallHeader D i ((free i).countP fun x =>
    x / 4096 = q) h.mem q
  large : ∀ q cnt, K q = some (.large cnt) → LargeHeader cnt h.mem q
  unused : ∀ i < 7, ∀ x ∈ free i, x ∉ ptrs live
  block : ∀ q i idx, K q = some (.small i) → idx < blocksPerArena i →
    blockAt q i idx ∈ free i ∨ blockAt q i idx ∈ ptrs live
  fits : ∀ p s, (p, s) ∈ live → Fits K p s
  largePtr : ∀ q cnt, K q = some (.large cnt) → 4096 * q + 12 ∈ ptrs live
  nodup : (ptrs live).Nodup

def Arenas.Used (K : Arenas) (live : List (Nat × Nat)) (q : Nat) : Prop :=
  ∀ i, K q = some (.small i) → ∃ idx < blocksPerArena i, blockAt q i idx ∈ ptrs live

theorem SmallHeader.congr {cnt : Nat} (h : SmallHeader D i cnt m q)
    (hsame : ∀ k < 12, m' (4096 * q + k) = m (4096 * q + k)) : SmallHeader D i cnt m' q := by
  have hword : ∀ o, o + 4 ≤ 12 → m'.word (4096 * q + o) = m.word (4096 * q + o) := by
    intro o ho
    apply Mem.word_congr
    intro k hk
    rw [Nat.add_assoc]
    exact hsame _ (by omega)
  exact ⟨(hword 0 (by omega)).trans h.desc, (hword 4 (by omega)).trans h.cnt,
    (hword 8 (by omega)).trans h.large⟩

theorem LargeHeader.congr {cnt : Nat} (h : LargeHeader cnt m q)
    (hsame : ∀ k < 12, m' (4096 * q + k) = m (4096 * q + k)) : LargeHeader cnt m' q := by
  have hword : ∀ o, o + 4 ≤ 12 → m'.word (4096 * q + o) = m.word (4096 * q + o) := by
    intro o ho
    apply Mem.word_congr
    intro k hk
    rw [Nat.add_assoc]
    exact hsame _ (by omega)
  exact ⟨(hword 0 (by omega)).trans h.desc, (hword 4 (by omega)).trans h.cnt,
    (hword 8 (by omega)).trans h.large⟩

theorem sameOff_header (hP : Place D lo hi) (hK : K.Ok lo hi) (hq : K q = some A)
    (h : Mem.SameOff (Nodes D K) m m')
    : ∀ k < 12, m' (4096 * q + k) = m (4096 * q + k) := by
  intro k hk
  apply h
  intro x hx
  have := hK.header_apart hP hq hx
  omega

theorem toNat_ofNat_desc (hP : Place D lo hi) (hi : i < 7)
    : (UInt32.ofNat (descAt D i)).toNat = descAt D i := by
  rw [UInt32.toNat_ofNat']
  have := hP.descsEnd
  unfold descAt descSize
  omega

theorem toNat_ofNat_blockSize (hi : i < 7) : (UInt32.ofNat (blockSize i)).toNat = blockSize i := by
  rw [UInt32.toNat_ofNat']
  have := blockSize_le hi
  omega

theorem toNat_ofNat_blocksPerArena
    : (UInt32.ofNat (blocksPerArena i)).toNat = blocksPerArena i := by
  rw [UInt32.toNat_ofNat']
  have := @blocksPerArena_lt i
  omega

end Inv

section Take

variable {b s : Nat}

theorem Lists.of_block (h : Lists D K free m) (hP : Place D lo hi) (hK : K.Ok lo hi)
    (arena : K q = some (.small i)) (hidx : idx < blocksPerArena i)
    (hnot : ∀ j < 7, blockAt q i idx ∉ free j)
    (hsame : ∀ a, (a < blockAt q i idx ∨ blockAt q i idx + blockSize i ≤ a)
      → (a < 4096 * q ∨ 4096 * q + 12 ≤ a) →
      m' a = m a)
    : Lists D K free m' := by
  have hb := hK.block_bounds arena hidx
  have hr := hK.range _ _ arena
  have hregion := hP.descs
  simp only [Arena.pages] at hr
  apply h.of_bytes (S := fun a => blockAt q i idx ≤ a ∧ a < blockAt q i idx + blockSize i
    ∨ 4096 * q ≤ a ∧ a < 4096 * q + 12)
  . intro a ha
    apply hsame <;> omega
  . intro j hj k hk
    unfold descAt descSize
    omega
  . intro j hj x hx k hk
    have hnode := (h.lists j hj).nodes x hx
    have hheader := hK.header_apart hP arena hnode.nodes
    have hne : x ≠ blockAt q i idx := by
      rintro rfl
      have hmem := hx
      simp only [List.mem_cons, List.mem_append, List.not_mem_nil, or_false, freeList, listTail,
        descAt, descSize]
        at hmem
      obtain hmem | hmem | hmem := hmem
      . omega
      . exact hnot j hj hmem
      . omega
    have hs := @blockSize_ge j
    obtain ⟨hj, hx'⟩ | ⟨q', idx', arena', hidx', rfl⟩ := hnode.cases
    . omega
    . obtain ⟨rfl, rfl, rfl⟩ | hap := Arenas.blocks_apart arena arena' hidx hidx'
      . exact absurd rfl hne
      . omega

structure Taken (D lo hi : Nat) (other : Nat → Prop) (K : Arenas) (free : Nat → List Nat)
    (q i idx : Nat) (l : List Nat) (m m' : Mem)
    : Prop where
  lists : Lists D K (Function.update free i l) m'
  unlinked : ∀ j < 7, blockAt q i idx ∉ Function.update free i l j
  others : ∀ q' A, K q' = some A → q' ≠ q → ∀ k < 12, m' (4096 * q' + k) = m (4096 * q' + k)
  header : SmallHeader D i (l.countP fun x => x / 4096 = q) m' q
  zero : ∀ a, blockAt q i idx ≤ a → a < blockAt q i idx + blockSize i → m' a = 0
  frame : HeapFrame D lo hi other m m'

theorem takeBlock_mem (hP : Place D lo hi) (hinv : HeapInv D lo hi other K free live h)
    (hcls : i < 7) (arena : K q = some (.small i)) (hidx : idx < blocksPerArena i)
    (hfree : free i = blockAt q i idx :: l)
    : ∃ m', (takeBlock (descAt D i)).run h = .ok (blockAt q i idx, h.setMem m')
        ∧ Taken D lo hi other K free q i idx l h.mem m' := by
  have hK := hinv.ok
  obtain ⟨hlists, hoff⟩ := hinv.lists.remove (l := []) hP hK hcls hfree
  rw [List.nil_append] at hlists
  have hlist := hinv.lists.lists i hcls
  have hnext : (h.mem.word (freeList (descAt D i) + 4)).toNat = blockAt q i idx := by
    have hchain := hlist.chain
    rw [hfree] at hchain
    exact hchain.1
  have hbounds := blockAt_bounds (q := q) hidx
  have hsize : (listRemove h.mem (blockAt q i idx)).word (descAt D i)
      = UInt32.ofNat (blockSize i) := hlists.size i hcls
  -- the three steps on the memory
  generalize hm1 : listRemove h.mem (blockAt q i idx) = m1 at hlists hoff hsize
  generalize hm2 : m1.blit (blockAt q i idx) (blockSize i) Mem.zero = m2
  generalize hm3 : m2.setWord (4096 * q + 4) (m2.word (4096 * q + 4) - 1) = m3
  have hnot : ∀ j < 7, blockAt q i idx ∉ Function.update free i l j := by
    intro j hj hmem
    have hnodup : (blockAt q i idx :: l).Nodup := by
      rw [← hfree]
      exact hlist.elems_nodup
    by_cases hji : j = i
    . rw [hji, Function.update_self] at hmem
      exact (List.nodup_cons.mp hnodup).1 hmem
    . have hnode :=
        (hlists.lists j hj).nodes _ (List.mem_cons_of_mem _ (List.mem_append_left _ hmem))
      exact hji (hnode.cls_unique hP hK (.block arena hidx))
  have hsame13 : ∀ a, (a < blockAt q i idx ∨ blockAt q i idx + blockSize i ≤ a) →
      (a < 4096 * q + 4 ∨ 4096 * q + 8 ≤ a) → m3 a = m1 a := by
    intro a ha1 ha2
    rw [← hm3, Mem.setWord_of_not_mem (by omega), ← hm2, Mem.blit_of_not_mem ha1]
  have hcnt : m3.word (4096 * q + 4) = UInt32.ofNat (l.countP fun x => x / 4096 = q) := by
    have hold : m2.word (4096 * q + 4) = UInt32.ofNat (l.countP (fun x => x / 4096 = q) + 1) := by
      have hm : m2.word (4096 * q + 4) = h.mem.word (4096 * q + 4) := by
        apply Mem.word_congr
        intro k hk
        rw [← hm2, Mem.blit_of_not_mem (by omega), Nat.add_assoc]
        exact sameOff_header hP hK arena hoff _ (by omega)
      rw [hm, (hinv.small q i arena).cnt, hfree, List.countP_cons, if_pos]
      exact decide_eq_true (blockAt_div hidx)
    rw [← hm3, Mem.word_setWord_self, hold, UInt32.ofNat_add]
    simp
  refine ⟨m3, ?_, ?_, hnot, ?_, ?_, ?_, ?_⟩
  . simp only [takeBlock, listPop, modifyMem, loadWord, memsetZero, Cmd.bind_run, Cmd.get_run,
      Cmd.modify_run, Cmd.pure_run]
    refine ⟨_, _, rfl, _, _, rfl, _, _, ⟨_, _, rfl, rfl⟩, _, _, rfl, _, _, rfl, ?_⟩
    simp only [Heap.setMem, hnext, hm1, hsize, toNat_ofNat_blockSize hcls, hm2,
      block2arena_blockAt hidx, hm3]
  . apply hlists.of_block hP hK arena hidx hnot
    intro a ha1 ha2
    exact hsame13 a ha1 (by omega)
  . intro q' A hq' hne k hk
    rw [hsame13 _ (by omega) (by omega)]
    exact sameOff_header hP hK hq' hoff k hk
  . have hold := hinv.small q i arena
    have hkeep : ∀ k < 12, (k < 4 ∨ 8 ≤ k) → m3 (4096 * q + k) = h.mem (4096 * q + k) := by
      intro k hk hk'
      rw [hsame13 _ (by omega) (by omega)]
      exact sameOff_header hP hK arena hoff k hk
    refine ⟨?_, hcnt, ?_⟩
    . rw [← hold.desc]
      apply Mem.word_congr
      intro k hk
      exact hkeep k (by omega) (by omega)
    . rw [← hold.large]
      apply Mem.word_congr
      intro k hk
      rw [Nat.add_assoc]
      exact hkeep _ (by omega) (by omega)
  . intro a ha1 ha2
    rw [← hm3, Mem.setWord_of_not_mem (by omega), ← hm2, Mem.blit_of_mem ha1 ha2]
    rfl
  . apply (hK.frame_of_sameOff hinv.foreign hoff).trans
    intro a ha1 ha2
    have hpage : ¬ (4096 * q ≤ a ∧ a < 4096 * (q + 1)) := fun hand =>
      hK.not_frame hinv.foreign arena hand.1 hand.2 ha2
    exact hsame13 a (by omega) (by omega)

theorem HeapInv.take (hinv : HeapInv D lo hi other K free live h) (hcls : i < 7)
    (arena : K q = some (.small i)) (hidx : idx < blocksPerArena i)
    (hfree : free i = blockAt q i idx :: l) (hs : s ≤ blockSize i)
    (ht : Taken D lo hi other K free q i idx l h.mem m')
    : HeapInv D lo hi other K (Function.update free i l) ((blockAt q i idx, s) :: live)
        (h.setMem m') := by
  have hbmem : blockAt q i idx ∈ free i := by
    rw [hfree]
    exact List.mem_cons_self
  refine ⟨hinv.ok, hinv.held, hinv.foreign, ht.lists, ?_, ?_, ?_, ?_, ?_, ?_, ?_⟩
  . intro q' j hq'
    by_cases hqq : q' = q
    . subst hqq
      rw [arena, Option.some.injEq, Arena.small.injEq] at hq'
      subst hq'
      rw [Function.update_self]
      exact ht.header
    . have hcount : (Function.update free i l j).countP (fun x => x / 4096 = q')
          = (free j).countP (fun x => x / 4096 = q') := by
        by_cases hji : j = i
        . subst hji
          rw [Function.update_self, hfree, List.countP_cons, if_neg, Nat.add_zero]
          rw [decide_eq_true_eq, blockAt_div hidx]
          exact Ne.symm hqq
        . rw [Function.update_of_ne hji]
      rw [hcount]
      exact (hinv.small q' j hq').congr (ht.others q' _ hq' hqq)
  . intro q' cnt hq'
    have hne : q' ≠ q := by
      rintro rfl
      rw [arena] at hq'
      cases hq'
    exact (hinv.large q' cnt hq').congr (ht.others q' _ hq' hne)
  . intro j hj x hx
    rw [ptrs, List.map_cons, List.mem_cons, not_or]
    constructor
    . rintro rfl
      exact ht.unlinked j hj hx
    . apply hinv.unused j hj
      by_cases hji : j = i
      . subst hji
        rw [Function.update_self] at hx
        rw [hfree]
        exact List.mem_cons_of_mem _ hx
      . rw [Function.update_of_ne hji] at hx
        exact hx
  . intro q' j idx' hq' hidx'
    rw [ptrs, List.map_cons, List.mem_cons]
    obtain hmem | hmem := hinv.block q' j idx' hq' hidx'
    . by_cases hji : j = i
      . subst hji
        rw [hfree, List.mem_cons] at hmem
        rw [Function.update_self]
        tauto
      . rw [Function.update_of_ne hji]
        exact .inl hmem
    . exact .inr (.inr hmem)
  . intro p s' hp
    rw [List.mem_cons] at hp
    obtain hp | hp := hp
    . cases hp
      exact .small arena hidx hs
    . exact hinv.fits p s' hp
  . intro q' cnt hq'
    exact List.mem_cons_of_mem _ (hinv.largePtr q' cnt hq')
  . rw [ptrs, List.map_cons, List.nodup_cons]
    exact ⟨hinv.unused i hcls _ hbmem, hinv.nodup⟩

theorem takeBlock_run (hP : Place D lo hi) (hinv : HeapInv D lo hi other K free live h)
    (hcls : i < 7) (hfree : free i = b :: l) (hs : s ≤ blockSize i)
    : ∃ h', (takeBlock (descAt D i)).run h = .ok (b, h')
        ∧ HeapInv D lo hi other K (Function.update free i l) ((b, s) :: live) h'
        ∧ (∀ a, b ≤ a → a < b + blockSize i → h'.mem a = 0)
            ∧ HeapFrame D lo hi other h.mem h'.mem := by
  have hbmem : b ∈ free i := by
    rw [hfree]
    exact List.mem_cons_self
  obtain ⟨q, idx, arena, hidx, rfl⟩ := hinv.lists.mem_block hcls hbmem
  obtain ⟨m', hrun, ht⟩ := takeBlock_mem hP hinv hcls arena hidx hfree
  exact ⟨h.setMem m', hrun, hinv.take hcls arena hidx hfree hs ht, ht.zero, ht.frame⟩

end Take

section Grow

variable {g n : Nat}

structure FreshPages (lo hi : Nat) (h : Heap) (g n : Nat) : Prop where
  lowest : lo ≤ g
  highest : g + n ≤ hi
  free : ∀ k < n, h.held (g + k) = false

def Arenas.Clear (K : Arenas) (p : Nat) : Prop := ∀ q A, K q = some A → p < q ∨ q + A.pages ≤ p

theorem Arenas.clear_none {p : Nat} : Arenas.Clear (fun _ => none) p := by
  intro q A hq
  contradiction

theorem Arenas.Clear.insert {p : Nat} (hK : K.Clear p) (hA : p < g ∨ g + A.pages ≤ p)
    : Arenas.Clear (Function.update K g (some A)) p := by
  intro q A' hq
  by_cases hqg : q = g
  . rw [hqg, Function.update_self, Option.some.injEq] at hq
    rw [hqg, ← hq]
    exact hA
  . rw [Function.update_of_ne hqg] at hq
    exact hK q A' hq

theorem Arenas.Clear.erase {p : Nat} (hK : K.Clear p)
    : Arenas.Clear (Function.update K q none) p := by
  intro q' A hq
  by_cases hqq : q' = q
  . rw [hqq, Function.update_self] at hq
    contradiction
  . rw [Function.update_of_ne hqq] at hq
    exact hK q' A hq

theorem HeapInv.fresh (hinv : HeapInv D lo hi other K free live h) (hlo : lo ≤ g) (hhi : g + n ≤ hi)
    (hclear : ∀ k < n, K.Clear (g + k) ∧ ¬ other (g + k)) : FreshPages lo hi h g n := by
  refine ⟨hlo, hhi, ?_⟩
  intro k hk
  obtain ⟨hK, hother⟩ := hclear k hk
  rw [Bool.eq_false_iff, Ne, hinv.held]
  rintro (⟨q, A, hq, h1, h2⟩ | ho)
  . have := hK q A hq
    omega
  . exact hother ho

theorem HeapInv.apart_fresh (hinv : HeapInv D lo hi other K free live h)
    (hf : FreshPages lo hi h g n) (hn : 0 < n)
    (hq : K q = some A) : q + A.pages ≤ g ∨ g + n ≤ q := by
  have hpos := hinv.ok.pages _ _ hq
  by_contra hov
  -- the larger of the two first pages is held and fresh
  have hheld : h.held (max q g) = true := (hinv.held _).mpr (.inl ⟨q, A, hq, by omega, by omega⟩)
  have hfree := hf.free (max q g - g) (by omega)
  rw [show g + (max q g - g) = max q g by omega, hheld] at hfree
  contradiction

theorem HeapInv.fresh_none (hinv : HeapInv D lo hi other K free live h)
    (hf : FreshPages lo hi h g n) (hn : 0 < n)
    : K g = none := by
  cases hq : K g with
  | none => rfl
  | some A =>
    have := hinv.apart_fresh hf hn hq
    have hpos := hinv.ok.pages _ _ hq
    omega

theorem HeapInv.insert_ok (hinv : HeapInv D lo hi other K free live h)
    (hf : FreshPages lo hi h g A.pages) (hn : 0 < A.pages)
    (hcls : ∀ i, A = .small i → i < 7) : Arenas.Ok (Function.update K g (some A)) lo hi := by
  have hK := hinv.ok
  have hcases : ∀ q A', Function.update K g (some A) q = some A' → q = g ∧ A' = A ∨ q ≠ g
      ∧ K q = some A' := by
    intro q A' hq
    by_cases hqg : q = g
    . rw [hqg, Function.update_self, Option.some.injEq] at hq
      exact .inl ⟨hqg, hq.symm⟩
    . rw [Function.update_of_ne hqg] at hq
      exact .inr ⟨hqg, hq⟩
  constructor
  . intro q A' hq
    obtain ⟨rfl, rfl⟩ | ⟨-, hq⟩ := hcases q A' hq
    . exact ⟨hf.lowest, hf.highest⟩
    . exact hK.range q A' hq
  . intro q q' A1 A2 hq hq' hlt
    obtain ⟨rfl, rfl⟩ | ⟨-, h1⟩ := hcases q A1 hq
    . obtain ⟨rfl, rfl⟩ | ⟨-, h2⟩ := hcases q' A2 hq'
      . omega
      . have := hinv.apart_fresh hf hn h2
        omega
    . obtain ⟨rfl, rfl⟩ | ⟨-, h2⟩ := hcases q' A2 hq'
      . have := hinv.apart_fresh hf hn h1
        omega
      . exact hK.apart q q' A1 A2 h1 h2 hlt
  . intro q i hq
    obtain ⟨-, heq⟩ | ⟨-, hq⟩ := hcases q _ hq
    . exact hcls i heq.symm
    . exact hK.cls q i hq
  . intro q A' hq
    obtain ⟨-, rfl⟩ | ⟨-, hq⟩ := hcases q A' hq
    . exact hn
    . exact hK.pages q A' hq

theorem Node.update {A' : Option Arena} (h : Node D K i x) (hg : K g = none)
    : Node D (Function.update K g A') i x := by
  cases h with
  | head cls => exact .head cls
  | tail cls => exact .tail cls
  | block arena idx_lt =>
    apply Node.block _ idx_lt
    rw [Function.update_of_ne]
    . exact arena
    . rintro rfl
      rw [hg] at arena
      contradiction

theorem Lists.update {A' : Option Arena} (h : Lists D K free m) (hg : K g = none)
    : Lists D (Function.update K g A') free m where
  size := h.size
  blocks := h.blocks
  lists i hi := (h.lists i hi).mono fun x hx => ((h.lists i hi).nodes x hx).update hg

theorem HeapInv.lists_fresh (hinv : HeapInv D lo hi other K free live h) (hP : Place D lo hi)
    (hf : FreshPages lo hi h g n) (hn : 0 < n)
    (hsame : ∀ a, (a < 4096 * g ∨ 4096 * (g + n) ≤ a) → m' a = h.mem a)
    : Lists D K free m' := by
  have hregion := hP.descs
  have hlow := hf.lowest
  have hhigh := hf.highest
  apply hinv.lists.of_bytes (S := fun a => 4096 * g ≤ a ∧ a < 4096 * (g + n))
  . intro a ha
    exact hsame a (by omega)
  . intro j hj k hk
    unfold descAt descSize
    omega
  . intro j hj x hx k hk
    have hs := @blockSize_ge j
    obtain ⟨hj, hx'⟩ | ⟨q, idx, arena, hidx, rfl⟩ := ((hinv.lists.lists j hj).nodes x hx).cases
    . omega
    . have hb := blockAt_bounds (q := q) hidx
      have hap := hinv.apart_fresh hf hn arena
      simp only [Arena.pages] at hap
      omega

theorem HeapInv.header_fresh (hinv : HeapInv D lo hi other K free live h)
    (hf : FreshPages lo hi h g n) (hn : 0 < n)
    (hsame : ∀ a, (a < 4096 * g ∨ 4096 * (g + n) ≤ a) → m' a = h.mem a) (hq : K q = some A)
    : ∀ k < 12, m' (4096 * q + k) = h.mem (4096 * q + k) := by
  intro k hk
  apply hsame
  have := hinv.apart_fresh hf hn hq
  have hpos := hinv.ok.pages _ _ hq
  omega

theorem HeapInv.insert_foreign (hinv : HeapInv D lo hi other K free live h)
    (hf : FreshPages lo hi h g A.pages)
    : Arenas.Foreign (Function.update K g (some A)) other := by
  intro q A' p hq h1 h2 hother
  by_cases hqg : q = g
  . rw [hqg, Function.update_self, Option.some.injEq] at hq
    have hfree := hf.free (p - g) (by rw [hq]; omega)
    rw [show g + (p - g) = p by omega, (hinv.held p).mpr (.inr hother)] at hfree
    contradiction
  . rw [Function.update_of_ne hqg] at hq
    exact hinv.foreign q A' p hq h1 h2 hother

theorem held_setPages (hinv : HeapInv D lo hi other K free live h) (hg : K g = none) (p : Nat)
    : (h.setPages g A.pages true).held p = true
        ↔
      (∃ q A', Function.update K g (some A) q = some A' ∧ q ≤ p ∧ p < q + A'.pages) ∨ other p := by
  simp only [Heap.setPages]
  constructor
  . intro hp
    split at hp
    . next hin => exact .inl ⟨g, A, Function.update_self _ _ _, hin.1, hin.2⟩
    . obtain ⟨q, A', hq, h1, h2⟩ | hother := (hinv.held p).mp hp
      . refine .inl ⟨q, A', ?_, h1, h2⟩
        rw [Function.update_of_ne]
        . exact hq
        . rintro rfl
          rw [hg] at hq
          contradiction
      . exact .inr hother
  . rintro (⟨q, A', hq, h1, h2⟩ | hother)
    case inr =>
      split
      . rfl
      . exact (hinv.held p).mpr (.inr hother)
    split
    . rfl
    . next hout =>
      by_cases hqg : q = g
      . rw [hqg, Function.update_self, Option.some.injEq] at hq
        rw [← hq, hqg] at h2
        omega
      . rw [Function.update_of_ne hqg] at hq
        exact (hinv.held p).mpr (.inl ⟨q, A', hq, h1, h2⟩)

theorem HeapInv.frame_fresh (hinv : HeapInv D lo hi other K free live h)
    (hf : FreshPages lo hi h g n)
    (hsame : ∀ a, (a < 4096 * g ∨ 4096 * (g + n) ≤ a) → m' a = h.mem a)
    : HeapFrame D lo hi other h.mem m' := by
  intro a ha1 ha2
  apply hsame
  by_contra hin
  have hlow := hf.lowest
  have hhigh := hf.highest
  obtain h1 | h1 | h1 := ha2
  . omega
  . omega
  . have hfree := hf.free (a / 4096 - g) (by omega)
    rw [show g + (a / 4096 - g) = a / 4096 by omega, (hinv.held _).mpr (.inr h1)] at hfree
    contradiction

theorem arena2block_eq (hP : Place D lo hi) (hl : Lists D K free m) (hcls : i < 7)
    (hdesc : m.word (4096 * q) = UInt32.ofNat (descAt D i))
    : arena2block m (4096 * q) idx = blockAt q i idx := by
  unfold arena2block blockAt arenaSize
  rw [hdesc, toNat_ofNat_desc hP hcls, hl.size i hcls, toNat_ofNat_blockSize hcls]

theorem appendBlocks_run (hP : Place D lo hi) (hK : K.Ok lo hi) (hcls : i < 7)
    (arena : K q = some (.small i)) (hdesc : h.mem.word (4096 * q) = UInt32.ofNat (descAt D i))
    (hl : Lists D K free h.mem) (hn : idx + n ≤ blocksPerArena i)
    (hnot : ∀ k, idx ≤ k → blockAt q i k ∉ free i)
    : ∃ h', (appendBlocks (4096 * q) n idx).run h = .ok ((), h') ∧ h'.held = h.held
        ∧ Lists D K (Function.update free i (free i ++ (List.range' idx n).map (blockAt q i)))
            h'.mem
        ∧ Mem.SameOff (Nodes D K) h.mem h'.mem := by
  induction n generalizing idx h free with
  | zero =>
    refine ⟨h, Cmd.pure_run.mpr rfl, rfl, ?_, .refl⟩
    rw [List.range'_zero, List.map_nil, List.append_nil, Function.update_eq_self]
    exact hl
  | succ n ih =>
    have hb := @arena2block_eq D lo hi q i idx K free h.mem hP hl hcls hdesc
    have hlist : freeList (h.mem.word (4096 * q)).toNat = freeList (descAt D i) := by
      rw [hdesc, toNat_ofNat_desc hP hcls]
    have hnotin := hnot idx (Nat.le_refl _)
    have hfind : elemFind h.mem (freeList (descAt D i)) (blockAt q i idx) = some false := by
      rw [(hl.lists i hcls).elemFind_eq (node_apart hP hK), decide_eq_false hnotin]
    obtain ⟨hl', hoff⟩ := hl.append hP hK hcls arena (by omega : idx < blocksPerArena i) hnotin
    generalize hm : listAppend h.mem (freeList (descAt D i)) (blockAt q i idx) = m' at hl' hoff
    have hdesc' : m'.word (4096 * q) = UInt32.ofNat (descAt D i) := by
      rw [← hdesc]
      apply Mem.word_congr
      intro k hk
      exact sameOff_header hP hK arena hoff k (by omega)
    have hnot' : ∀ k, idx + 1 ≤ k →
        blockAt q i k ∉ Function.update free i (free i ++ [blockAt q i idx]) i := by
      intro k hk
      rw [Function.update_self, List.mem_append, List.mem_singleton, not_or]
      refine ⟨hnot k (by omega), ?_⟩
      intro heq
      have := blockAt_injective heq
      omega
    obtain ⟨h', hrun, hheld, hl'', hoff'⟩ := ih (h := h.setMem m') hdesc' hl' (by omega) hnot'
    refine ⟨h', ?_, hheld, ?_, hoff.trans hoff'⟩
    . simp only [appendBlocks, Cmd.bind_run, Cmd.get_run]
      refine ⟨_, _, rfl, ?_⟩
      rw [hb, hlist, hfind]
      simp only [modifyMem, Cmd.bind_run, Cmd.assert_run, Cmd.modify_run]
      refine ⟨_, _, ⟨trivial, rfl⟩, _, _, rfl, ?_⟩
      rw [hm]
      exact hrun
    . rw [Function.update_self, Function.update_idem, List.append_assoc] at hl''
      rw [List.range'_succ, List.map_cons]
      exact hl''

theorem Fits.arena {p s : Nat} (h : Fits K p s)
    : ∃ q A, K q = some A ∧ 4096 * q + 12 ≤ p ∧ p < 4096 * q + 4096
        ∧ p + s ≤ 4096 * (q + A.pages) := by
  cases h with
  | large arena size =>
    refine ⟨_, _, arena, Nat.le_refl _, by omega, ?_⟩
    simp only [Arena.pages]
    omega
  | small arena idx_lt size =>
    rename_i q i idx
    have hb := blockAt_bounds (q := q) idx_lt
    have hs := @blockSize_ge i
    refine ⟨_, _, arena, hb.1, by omega, ?_⟩
    simp only [Arena.pages]
    omega

theorem Fits.update {p s : Nat} {A' : Option Arena} (h : Fits K p s) (hne : p / 4096 ≠ g)
    : Fits (Function.update K g A') p s := by
  cases h with
  | large arena size =>
    apply Fits.large _ size
    rw [Function.update_of_ne]
    . exact arena
    . omega
  | small arena idx_lt size =>
    apply Fits.small _ idx_lt size
    rw [Function.update_of_ne]
    . exact arena
    . rintro rfl
      exact hne (blockAt_div idx_lt)

theorem HeapInv.ptr_fresh (hinv : HeapInv D lo hi other K free live h) (hf : FreshPages lo hi h g n)
    (hn : 0 < n) (hp : x ∈ ptrs live) : x / 4096 ≠ g := by
  obtain ⟨⟨p, s⟩, hmem, rfl⟩ := List.mem_map.mp hp
  obtain ⟨q, A, hq, h1, h2, -⟩ := (hinv.fits p s hmem).arena
  have := hinv.apart_fresh hf hn hq
  have hpos := hinv.ok.pages _ _ hq
  dsimp only
  omega

theorem countP_new
    : ((List.range (blocksPerArena i)).map (blockAt g i)).countP (fun x => x / 4096 = q)
    = if g = q then blocksPerArena i else 0 := by
  split
  . next heq =>
    have hlen : ((List.range (blocksPerArena i)).map (blockAt g i)).length = blocksPerArena i := by
      rw [List.length_map, List.length_range]
    apply Eq.trans _ hlen
    apply List.countP_eq_length.mpr
    intro x hx
    obtain ⟨idx, hidx, rfl⟩ := List.mem_map.mp hx
    rw [List.mem_range] at hidx
    rw [decide_eq_true_eq, blockAt_div hidx]
    exact heq
  . next hne =>
    rw [List.countP_eq_zero]
    intro x hx
    obtain ⟨idx, hidx, rfl⟩ := List.mem_map.mp hx
    rw [List.mem_range] at hidx
    rw [decide_eq_true_eq, blockAt_div hidx]
    exact hne

structure Grown (D lo hi : Nat) (other : Nat → Prop) (K : Arenas) (free : Nat → List Nat)
    (i g : Nat) (h h' : Heap) : Prop where
  held : h'.held = (h.setPages g 1 true).held
  lists : Lists D (Function.update K g (some (.small i)))
    (Function.update free i ((List.range (blocksPerArena i)).map (blockAt g i))) h'.mem
  header : SmallHeader D i (blocksPerArena i) h'.mem g
  others : ∀ q A, K q = some A → ∀ k < 12, h'.mem (4096 * q + k) = h.mem (4096 * q + k)
  frame : HeapFrame D lo hi other h.mem h'.mem

theorem newArena_mem (hP : Place D lo hi) (hinv : HeapInv D lo hi other K free live h)
    (hcls : i < 7) (hempty : free i = []) (hf : FreshPages lo hi h g 1)
    (hK' : Arenas.Ok (Function.update K g (some (.small i))) lo hi)
    : ∃ h', (newArena (some g) (descAt D i)).run h = .ok (true, h')
        ∧ Grown D lo hi other K free i g h h' := by
  have hnone := hinv.fresh_none hf Nat.one_pos
  have harena : Function.update K g (some (.small i)) g = some (.small i) :=
    Function.update_self _ _ _
  -- the header
  generalize hm1 : h.mem.blit (4096 * g) 4096 Mem.zero = m1
  generalize hm2 : m1.setWord (4096 * g) (UInt32.ofNat (descAt D i)) = m2
  generalize hm3 : m2.setWord (4096 * g + 8) 0 = m3
  generalize hm4 : m3.setWord (4096 * g + 4) (UInt32.ofNat (blocksPerArena i)) = m4
  have hsame3 : ∀ a, (a < 4096 * g ∨ 4096 * (g + 1) ≤ a) → m3 a = h.mem a := by
    intro a ha
    rw [← hm3, Mem.setWord_of_not_mem (by omega), ← hm2, Mem.setWord_of_not_mem (by omega), ← hm1,
      Mem.blit_of_not_mem (by omega)]
  have hsame4 : ∀ a, (a < 4096 * g ∨ 4096 * (g + 1) ≤ a) → m4 a = h.mem a := by
    intro a ha
    rw [← hm4, Mem.setWord_of_not_mem (by omega), hsame3 a ha]
  have hheader : SmallHeader D i (blocksPerArena i) m4 g := by
    refine ⟨?_, ?_, ?_⟩
    . rw [← hm4, Mem.word_setWord_of_disjoint (by omega), ← hm3,
        Mem.word_setWord_of_disjoint (by omega), ← hm2, Mem.word_setWord_self]
    . rw [← hm4, Mem.word_setWord_self]
    . rw [← hm4, Mem.word_setWord_of_disjoint (by omega), ← hm3, Mem.word_setWord_self]
  have hl4 : Lists D (Function.update K g (some (.small i))) free m4 :=
    (hinv.lists_fresh hP hf Nat.one_pos hsame4).update hnone
  have hblocks : m3.word (descAt D i + 4) = UInt32.ofNat (blocksPerArena i) :=
    (hinv.lists_fresh hP hf Nat.one_pos hsame3).blocks i hcls
  have hnot : ∀ k, 0 ≤ k → blockAt g i k ∉ free i := by
    intro k hk
    rw [hempty]
    exact List.not_mem_nil
  obtain ⟨h', hrun, hheld, hl', hoff⟩ :=
    appendBlocks_run (h := (h.setPages g 1 true).setMem m4) (n := blocksPerArena i)
    hP hK' hcls harena hheader.desc hl4 (show 0 + blocksPerArena i ≤ blocksPerArena i by omega) hnot
  rw [hempty, List.nil_append, ← List.range_eq_range'] at hl'
  have hforeign' := hinv.insert_foreign (A := .small i) hf
  refine ⟨h', ?_, hheld, hl', ?_, ?_,
    (hinv.frame_fresh hf hsame4).trans (hK'.frame_of_sameOff hforeign' hoff)⟩
  . have hempty' : listEmpty h.mem (freeList (descAt D i)) = true :=
      (hinv.lists.lists i hcls).listEmpty_eq.mpr hempty
    simp only [newArena, Cmd.bind_run, Cmd.get_run]
    refine ⟨_, _, rfl, ?_⟩
    rw [if_pos hempty']
    simp only [mallocPage, memsetZero, modifyMem, loadWord, Cmd.bind_run, Cmd.assert_run,
      Cmd.modify_run, Cmd.pure_run]
    refine ⟨_, _, ⟨_, _, ⟨⟨by omega, by omega⟩, rfl⟩, _, _, rfl, rfl⟩, ?_⟩
    dsimp only
    simp only [Cmd.bind_run, Cmd.modify_run, Cmd.get_run, Cmd.pure_run]
    refine ⟨_, _, rfl, _, _, rfl, _, _, rfl, _, _, ⟨_, _, rfl, rfl⟩, _, _, rfl, (), h', ?_, rfl⟩
    have hmem : (h.setPages g 1 true).mem = h.mem := rfl
    simp only [Heap.setMem, hmem, hm1, hm2, hm3, hblocks, hm4, toNat_ofNat_blocksPerArena]
    exact hrun
  . exact hheader.congr (sameOff_header hP hK' harena hoff)
  . intro q A hq k hk
    have hqg : q ≠ g := by
      rintro rfl
      rw [hnone] at hq
      contradiction
    have hq' : Function.update K g (some (.small i)) q = some A := by
      rw [Function.update_of_ne hqg]
      exact hq
    rw [sameOff_header hP hK' hq' hoff k hk]
    exact hinv.header_fresh hf Nat.one_pos hsame4 hq k hk

theorem HeapInv.grow (hinv : HeapInv D lo hi other K free live h) (hempty : free i = [])
    (hf : FreshPages lo hi h g 1) (hK' : Arenas.Ok (Function.update K g (some (.small i))) lo hi)
    {h' : Heap} (hg : Grown D lo hi other K free i g h h')
    : HeapInv D lo hi other (Function.update K g (some (.small i)))
        (Function.update free i ((List.range (blocksPerArena i)).map (blockAt g i))) live h' := by
  have hnone := hinv.fresh_none hf Nat.one_pos
  have harena : Function.update K g (some (.small i)) g = some (.small i) :=
    Function.update_self _ _ _
  have hlarge : ∀ {q cnt}, Function.update K g (some (.small i)) q = some (.large cnt)
      → K q = some (.large cnt) := by
    intro q cnt hq
    have hqg : q ≠ g := by
      rintro rfl
      rw [harena] at hq
      cases hq
    rw [Function.update_of_ne hqg] at hq
    exact hq
  refine ⟨hK', ?_, hinv.insert_foreign (A := .small i) hf, hg.lists, ?_, ?_, ?_, ?_, ?_, ?_,
    hinv.nodup⟩
  . intro p
    rw [hg.held]
    exact held_setPages (A := .small i) hinv hnone p
  . intro q j hq
    by_cases hqg : q = g
    . subst hqg
      rw [harena, Option.some.injEq, Arena.small.injEq] at hq
      subst hq
      rw [Function.update_self, countP_new, if_pos rfl]
      exact hg.header
    . rw [Function.update_of_ne hqg] at hq
      have hcount :
          (Function.update free i ((List.range (blocksPerArena i)).map (blockAt g i)) j).countP
          (fun x => x / 4096 = q) = (free j).countP fun x => x / 4096 = q := by
        by_cases hji : j = i
        . subst hji
          rw [Function.update_self, countP_new, if_neg (Ne.symm hqg), hempty]
          rfl
        . rw [Function.update_of_ne hji]
      rw [hcount]
      exact (hinv.small q j hq).congr (hg.others q _ hq)
  . intro q cnt hq
    exact (hinv.large q cnt (hlarge hq)).congr (hg.others q _ (hlarge hq))
  . intro j hj x hx
    by_cases hji : j = i
    . subst hji
      rw [Function.update_self] at hx
      obtain ⟨idx, hidx, rfl⟩ := List.mem_map.mp hx
      rw [List.mem_range] at hidx
      intro hptr
      exact hinv.ptr_fresh hf Nat.one_pos hptr (blockAt_div hidx)
    . rw [Function.update_of_ne hji] at hx
      exact hinv.unused j hj x hx
  . intro q j idx hq hidx
    by_cases hqg : q = g
    . subst hqg
      rw [harena, Option.some.injEq, Arena.small.injEq] at hq
      subst hq
      left
      rw [Function.update_self]
      exact List.mem_map.mpr ⟨idx, List.mem_range.mpr hidx, rfl⟩
    . rw [Function.update_of_ne hqg] at hq
      obtain hmem | hmem := hinv.block q j idx hq hidx
      . have hji : j ≠ i := by
          rintro rfl
          rw [hempty] at hmem
          contradiction
        rw [Function.update_of_ne hji]
        exact .inl hmem
      . exact .inr hmem
  . intro p s hp
    apply (hinv.fits p s hp).update
    exact hinv.ptr_fresh hf Nat.one_pos (List.mem_map.mpr ⟨_, hp, rfl⟩)
  . intro q cnt hq
    exact hinv.largePtr q cnt (hlarge hq)

theorem newArena_run (hP : Place D lo hi) (hinv : HeapInv D lo hi other K free live h)
    (hcls : i < 7) (hempty : free i = []) (hf : FreshPages lo hi h g 1)
    : ∃ h', (newArena (some g) (descAt D i)).run h = .ok (true, h')
        ∧ HeapInv D lo hi other (Function.update K g (some (.small i)))
            (Function.update free i ((List.range (blocksPerArena i)).map (blockAt g i))) live h'
        ∧ HeapFrame D lo hi other h.mem h'.mem := by
  have hK' : Arenas.Ok (Function.update K g (some (.small i))) lo hi := by
    apply hinv.insert_ok (A := .small i) hf Nat.one_pos
    intro j hj
    cases hj
    exact hcls
  obtain ⟨h', hrun, hgrown⟩ := newArena_mem hP hinv hcls hempty hf hK'
  exact ⟨h', hrun, hinv.grow hempty hf hK' hgrown, hgrown.frame⟩

theorem largePages_spec {size : UInt32} (hsize : size.toNat ≤ 2 ^ 31)
    : size.toNat + 12 ≤ 4096 * (largePages size).toNat ∧ 0 < (largePages size).toNat
      ∧ (largePages size * 4096).toNat = 4096 * (largePages size).toNat := by
  have hval : (largePages size).toNat = (size.toNat + 12 + 4096 - 1) / 4096 := by
    simp only [largePages, arenaSize, UInt32.toNat_div, UInt32.toNat_sub, UInt32.toNat_add,
      UInt32.reduceOfNat, UInt32.reduceToNat]
    omega
  rw [UInt32.toNat_mul, hval]
  simp only [UInt32.reduceToNat]
  omega

structure LargeMade (g cnt : Nat) (m m' : Mem) : Prop where
  header : LargeHeader cnt m' g
  others : ∀ a, (a < 4096 * g ∨ 4096 * (g + cnt) ≤ a) → m' a = m a
  zero : ∀ a, 4096 * g + 12 ≤ a → a < 4096 * (g + cnt) → m' a = 0

theorem mallocLarge_mem {size : UInt32} (hpos : 0 < (largePages size).toNat)
    (hbytes : (largePages size * 4096).toNat = 4096 * (largePages size).toNat)
    (hmax : (largePages size).toNat < 3840)
    : ∃ m', (mallocLarge (some g) size).run h
        = .ok (4096 * g + 12, (h.setPages g (largePages size).toNat true).setMem m')
        ∧ LargeMade g (largePages size).toNat h.mem m' := by
  generalize hm1 : h.mem.blit (4096 * g) (4096 * (largePages size).toNat) Mem.zero = m1
  generalize hm2 : m1.setWord (4096 * g) 0 = m2
  generalize hm3 : m2.setWord (4096 * g + 4) (largePages size) = m3
  generalize hm4 : m3.setWord (4096 * g + 8) 1 = m4
  refine ⟨m4, ?_, ⟨?_, ?_, ?_⟩, ?_, ?_⟩
  . simp only [mallocLarge, mallocPage, memsetZero, modifyMem, Cmd.bind_run, Cmd.assert_run,
      Cmd.modify_run, Cmd.pure_run]
    refine ⟨_, _, ⟨_, _, ⟨⟨hpos, hmax⟩, rfl⟩, _, _, rfl, rfl⟩, ?_⟩
    dsimp only
    simp only [Cmd.bind_run, Cmd.modify_run, Cmd.pure_run]
    refine ⟨_, _, rfl, _, _, rfl, _, _, rfl, _, _, rfl, ?_⟩
    have hmem : (h.setPages g (largePages size).toNat true).mem = h.mem := rfl
    simp only [Heap.setMem, hmem, hbytes, hm1, hm2, hm3, hm4, arenaSize]
  . rw [← hm4, Mem.word_setWord_of_disjoint (by omega), ← hm3,
      Mem.word_setWord_of_disjoint (by omega), ← hm2, Mem.word_setWord_self]
  . rw [← hm4, Mem.word_setWord_of_disjoint (by omega), ← hm3, Mem.word_setWord_self,
      UInt32.ofNat_toNat]
  . rw [← hm4, Mem.word_setWord_self]
  . intro a ha
    rw [← hm4, Mem.setWord_of_not_mem (by omega), ← hm3, Mem.setWord_of_not_mem (by omega), ← hm2,
      Mem.setWord_of_not_mem (by omega), ← hm1, Mem.blit_of_not_mem (by omega)]
  . intro a ha1 ha2
    rw [← hm4, Mem.setWord_of_not_mem (by omega), ← hm3, Mem.setWord_of_not_mem (by omega), ← hm2,
      Mem.setWord_of_not_mem (by omega), ← hm1, Mem.blit_of_mem (by omega) (by omega)]
    rfl

theorem HeapInv.growLarge {cnt : Nat} (hP : Place D lo hi)
    (hinv : HeapInv D lo hi other K free live h) (hpos : 0 < cnt) (hfit : s + 12 ≤ 4096 * cnt)
    (hf : FreshPages lo hi h g cnt) (hmade : LargeMade g cnt h.mem m')
    : HeapInv D lo hi other (Function.update K g (some (.large cnt))) free
        ((4096 * g + 12, s) :: live) ((h.setPages g cnt true).setMem m') := by
  have hnone := hinv.fresh_none hf hpos
  have hK' : Arenas.Ok (Function.update K g (some (.large cnt))) lo hi := by
    apply hinv.insert_ok (A := .large cnt) hf hpos
    intro j hj
    cases hj
  have harena : Function.update K g (some (.large cnt)) g = some (.large cnt) :=
    Function.update_self _ _ _
  have hkeep : ∀ q A, Function.update K g (some (.large cnt)) q = some A → q ≠ g →
      K q = some A ∧ ∀ k < 12, m' (4096 * q + k) = h.mem (4096 * q + k) := by
    intro q A hq hqg
    rw [Function.update_of_ne hqg] at hq
    exact ⟨hq, hinv.header_fresh hf hpos hmade.others hq⟩
  have hsmall : ∀ q i, Function.update K g (some (.large cnt)) q = some (.small i) → q ≠ g := by
    rintro q i hq rfl
    rw [harena] at hq
    cases hq
  refine ⟨hK', ?_, hinv.insert_foreign (A := .large cnt) hf,
    (hinv.lists_fresh hP hf hpos hmade.others).update hnone, ?_, ?_, ?_, ?_, ?_, ?_, ?_⟩
  . intro p
    exact held_setPages (A := .large cnt) hinv hnone p
  . intro q j hq
    obtain ⟨hq', hbytes⟩ := hkeep q _ hq (hsmall q j hq)
    exact (hinv.small q j hq').congr hbytes
  . intro q cnt' hq
    by_cases hqg : q = g
    . subst hqg
      rw [harena, Option.some.injEq, Arena.large.injEq] at hq
      rw [← hq]
      exact hmade.header
    . obtain ⟨hq', hbytes⟩ := hkeep q _ hq hqg
      exact (hinv.large q cnt' hq').congr hbytes
  . intro j hj x hx
    rw [ptrs, List.map_cons, List.mem_cons, not_or]
    refine ⟨?_, hinv.unused j hj x hx⟩
    rintro rfl
    obtain ⟨q, idx, arena, hidx, heq⟩ := hinv.lists.mem_block hj hx
    have hap := hinv.apart_fresh hf hpos arena
    have hdiv := blockAt_div (q := q) hidx
    rw [← heq] at hdiv
    simp only [Arena.pages] at hap
    omega
  . intro q j idx hq hidx
    obtain hmem | hmem := hinv.block q j idx (hkeep q _ hq (hsmall q j hq)).1 hidx
    . exact .inl hmem
    . exact .inr (List.mem_cons_of_mem _ hmem)
  . intro p s' hp
    rw [List.mem_cons] at hp
    obtain hp | hp := hp
    . cases hp
      exact .large harena hfit
    . apply (hinv.fits p s' hp).update
      exact hinv.ptr_fresh hf hpos (List.mem_map.mpr ⟨_, hp, rfl⟩)
  . intro q cnt' hq
    by_cases hqg : q = g
    . rw [hqg]
      exact List.mem_cons_self
    . exact List.mem_cons_of_mem _ (hinv.largePtr q cnt' (hkeep q _ hq hqg).1)
  . rw [ptrs, List.map_cons, List.nodup_cons]
    refine ⟨?_, hinv.nodup⟩
    intro hptr
    exact hinv.ptr_fresh hf hpos hptr (by omega)

theorem mallocLarge_run {size : UInt32} (hP : Place D lo hi)
    (hinv : HeapInv D lo hi other K free live h) (hsize : size.toNat ≤ 2 ^ 31)
    (hmax : (largePages size).toNat < 3840) (hf : FreshPages lo hi h g (largePages size).toNat)
    : ∃ h', (mallocLarge (some g) size).run h = .ok (4096 * g + 12, h')
        ∧ HeapInv D lo hi other (Function.update K g (some (.large (largePages size).toNat))) free
            ((4096 * g + 12, size.toNat) :: live) h'
        ∧ (∀ a, 4096 * g + 12 ≤ a → a < 4096 * (g + (largePages size).toNat) → h'.mem a = 0)
        ∧ HeapFrame D lo hi other h.mem h'.mem := by
  obtain ⟨hfit, hpos, hbytes⟩ := largePages_spec hsize
  obtain ⟨m', hrun, hmade⟩ := mallocLarge_mem (h := h) (g := g) hpos hbytes hmax
  exact ⟨_, hrun, hinv.growLarge hP hpos hfit hf hmade, hmade.zero,
    hinv.frame_fresh hf hmade.others⟩

end Grow

end RogOS
