import Mathlib.Data.List.Perm.Subperm
import RogOS.Memory.Impl.Heap
import RogOS.Memory.Lemmas.List

/-!
The places of arenas, of their blocks and of the elements of free lists, which are the first bytes
of free blocks.
-/

namespace RogOS

def blockSize (i : Nat) : Nat := 16 * 2 ^ i

def blocksPerArena (i : Nat) : Nat := 4084 / blockSize i

def blockAt (q i idx : Nat) : Nat := 4096 * q + 12 + idx * blockSize i

def descAt (D i : Nat) : Nat := D + descSize * i

inductive Arena where
  | small (i : Nat)
  | large (cnt : Nat)
  deriving DecidableEq

def Arena.pages : Arena → Nat
  | .small _ => 1
  | .large cnt => cnt

abbrev Arenas := Nat → Option Arena

variable {D lo hi q q' i j idx x y : Nat} {K : Arenas} {A A' : Arena}

section Blocks

theorem blockSize_pos : 0 < blockSize i := by
  unfold blockSize
  positivity

theorem blockSize_ge : 16 ≤ blockSize i := by
  unfold blockSize
  have : 1 ≤ 2 ^ i := Nat.one_le_two_pow
  omega

theorem blockSize_le (hi : i < 7) : blockSize i ≤ 1024 := by
  unfold blockSize
  have : 2 ^ i ≤ 2 ^ 6 := Nat.pow_le_pow_right (by omega) (by omega)
  omega

theorem blocksPerArena_pos (hi : i < 7) : 0 < blocksPerArena i :=
  Nat.div_pos (by have := blockSize_le hi; omega) blockSize_pos

theorem blocksPerArena_lt : blocksPerArena i < 4084 := by
  unfold blocksPerArena
  apply Nat.div_lt_self (by omega)
  have := @blockSize_ge i
  omega

theorem block_end (hidx : idx < blocksPerArena i) : idx * blockSize i + blockSize i ≤ 4084 := by
  have h1 : (idx + 1) * blockSize i ≤ blocksPerArena i * blockSize i := Nat.mul_le_mul_right _ hidx
  have h2 : blocksPerArena i * blockSize i ≤ 4084 := Nat.div_mul_le_self _ _
  rw [Nat.add_mul, Nat.one_mul] at h1
  omega

theorem block_lt {idx' : Nat} (h : idx < idx')
    : idx * blockSize i + blockSize i ≤ idx' * blockSize i := by
  have h1 : (idx + 1) * blockSize i ≤ idx' * blockSize i := Nat.mul_le_mul_right _ h
  rw [Nat.add_mul, Nat.one_mul] at h1
  omega

theorem blockAt_bounds (hidx : idx < blocksPerArena i)
    : 4096 * q + 12 ≤ blockAt q i idx ∧ blockAt q i idx + blockSize i ≤ 4096 * q + 4096 := by
  have := block_end hidx
  unfold blockAt
  omega

theorem blockAt_div (hidx : idx < blocksPerArena i) : blockAt q i idx / 4096 = q := by
  have h := blockAt_bounds (q := q) hidx
  have hpos := @blockSize_pos i
  omega

theorem block2arena_blockAt (hidx : idx < blocksPerArena i)
    : block2arena (blockAt q i idx) = 4096 * q := by
  rw [block2arena, blockAt_div hidx, Nat.mul_comm]

theorem blockAt_apart {idx' : Nat} (h : idx ≠ idx')
    : blockAt q i idx + blockSize i ≤ blockAt q i idx' ∨ blockAt q i idx' + blockSize i
        ≤ blockAt q i idx := by
  unfold blockAt
  obtain h | h := Nat.lt_or_gt_of_ne h
  . have := block_lt (i := i) h
    omega
  . have := block_lt (i := i) h
    omega

theorem blockAt_injective {idx' : Nat} (h : blockAt q i idx = blockAt q i idx') : idx = idx' := by
  by_contra hne
  have hap := @blockAt_apart q i _ _ hne
  have := @blockSize_pos i
  omega

end Blocks

section Nodes

structure Place (D lo hi : Nat) : Prop where
  descs : D + 168 ≤ 4096 * lo ∨ 4096 * hi ≤ D
  descsPos : 0 < D
  descsEnd : D + 168 ≤ 2 ^ 32
  lowest : 0 < lo
  highest : hi ≤ 2 ^ 20

structure Arenas.Ok (K : Arenas) (lo hi : Nat) : Prop where
  range : ∀ q A, K q = some A → lo ≤ q ∧ q + A.pages ≤ hi
  apart : ∀ q q' A A', K q = some A → K q' = some A' → q < q' → q + A.pages ≤ q'
  cls : ∀ q i, K q = some (.small i) → i < 7
  pages : ∀ q A, K q = some A → 0 < A.pages

inductive Node (D : Nat) (K : Arenas) : Nat → Nat → Prop
  | head {i : Nat} (cls : i < 7) : Node D K i (freeList (descAt D i))
  | tail {i : Nat} (cls : i < 7) : Node D K i (listTail (freeList (descAt D i)))
  | block {q i idx : Nat} (arena : K q = some (.small i)) (idx_lt : idx < blocksPerArena i)
    : Node D K i (blockAt q i idx)

def Nodes (D : Nat) (K : Arenas) (x : Nat) : Prop := ∃ i, Node D K i x

theorem Node.nodes (h : Node D K i x) : Nodes D K x := ⟨i, h⟩

theorem Arenas.Ok.block_bounds (hK : K.Ok lo hi) (arena : K q = some (.small i))
    (hidx : idx < blocksPerArena i)
    : 4096 * lo + 12 ≤ blockAt q i idx ∧ blockAt q i idx + blockSize i ≤ 4096 * hi := by
  have h1 := hK.range _ _ arena
  have h2 := blockAt_bounds (q := q) hidx
  simp only [Arena.pages] at h1
  omega

theorem Node.cases (h : Node D K i x)
    : i < 7 ∧ (x = D + 24 * i + 8 ∨ x = D + 24 * i + 16)
      ∨ ∃ q idx, K q = some (.small i) ∧ idx < blocksPerArena i ∧ x = blockAt q i idx := by
  cases h with
  | head cls => exact .inl ⟨cls, .inl rfl⟩
  | tail cls => exact .inl ⟨cls, .inr rfl⟩
  | block arena idx_lt => exact .inr ⟨_, _, arena, idx_lt, rfl⟩

theorem Node.bounds (hK : K.Ok lo hi) (h : Node D K i x)
    : D + 8 ≤ x ∧ x + 8 ≤ D + 168 ∨ 4096 * lo + 12 ≤ x ∧ x + 8 ≤ 4096 * hi := by
  obtain ⟨hi, hx⟩ | ⟨q, idx, arena, hidx, rfl⟩ := h.cases
  . omega
  . have hb := hK.block_bounds arena hidx
    have hs := @blockSize_ge i
    omega

theorem Arenas.blocks_apart {idx' : Nat} (h : K q = some (.small i)) (h' : K q' = some (.small j))
    (hidx : idx < blocksPerArena i) (hidx' : idx' < blocksPerArena j)
    : (q = q' ∧ i = j ∧ idx = idx') ∨ blockAt q i idx + blockSize i ≤ blockAt q' j idx'
      ∨ blockAt q' j idx' + blockSize j ≤ blockAt q i idx := by
  by_cases hq : q = q'
  . subst hq
    rw [h, Option.some.injEq, Arena.small.injEq] at h'
    subst h'
    by_cases heq : idx = idx'
    . exact .inl ⟨rfl, rfl, heq⟩
    . exact .inr (blockAt_apart heq)
  . have hb := blockAt_bounds (q := q) hidx
    have hb' := blockAt_bounds (q := q') hidx'
    omega

theorem Node.apart (hP : Place D lo hi) (hK : K.Ok lo hi) (hx : Node D K i x) (hy : Node D K j y)
    : (i = j ∧ x = y) ∨ x + 8 ≤ y ∨ y + 8 ≤ x := by
  have hregion := hP.descs
  have hsi := @blockSize_ge i
  have hsj := @blockSize_ge j
  obtain ⟨hi, hx⟩ | ⟨q, idx, arena, hidx, rfl⟩ := hx.cases
  . obtain ⟨hj, hy⟩ | ⟨q', idx', arena', hidx', rfl⟩ := hy.cases
    . omega
    . have hb := hK.block_bounds arena' hidx'
      omega
  . obtain ⟨hj, hy⟩ | ⟨q', idx', arena', hidx', rfl⟩ := hy.cases
    . have hb := hK.block_bounds arena hidx
      omega
    . obtain ⟨rfl, rfl, rfl⟩ | hap := Arenas.blocks_apart arena arena' hidx hidx'
      . exact .inl ⟨rfl, rfl⟩
      . omega

theorem nodes_apart (hP : Place D lo hi) (hK : K.Ok lo hi) : Mem.Apart (Nodes D K) where
  apart := by
    rintro x y ⟨i, hx⟩ ⟨j, hy⟩ hne
    have := hx.apart hP hK hy
    omega
  bound := by
    rintro x ⟨i, hx⟩
    have hb := hx.bounds hK
    have h1 := hP.descsEnd
    have h2 := hP.highest
    omega

theorem Node.cls_unique (hP : Place D lo hi) (hK : K.Ok lo hi) (hx : Node D K i x)
    (hy : Node D K j x) : i = j := by
  have := hx.apart hP hK hy
  omega

theorem Arenas.Ok.header_apart (hP : Place D lo hi) (hK : K.Ok lo hi) (h : K q = some A)
    (hx : Nodes D K x)
    : 4096 * q + 12 ≤ x ∨ x + 8 ≤ 4096 * q := by
  obtain ⟨i, hx⟩ := hx
  have hregion := hP.descs
  have hr := hK.range _ _ h
  have hpos := hK.pages _ _ h
  obtain ⟨hi, hx⟩ | ⟨q', idx, arena, hidx, rfl⟩ := hx.cases
  . omega
  . have hb := blockAt_bounds (q := q') hidx
    have hs := @blockSize_ge i
    by_cases hlt : q' < q
    . have hap := hK.apart _ _ _ _ arena h hlt
      simp only [Arena.pages] at hap
      omega
    . omega

theorem Arenas.Ok.desc_apart (hP : Place D lo hi) (hK : K.Ok lo hi) (hi : i < 7) (hx : Nodes D K x)
    : descAt D i + 8 ≤ x ∨ x + 8 ≤ descAt D i := by
  obtain ⟨j, hx⟩ := hx
  have hregion := hP.descs
  have hs := @blockSize_ge j
  unfold descAt descSize
  obtain ⟨hj, hx⟩ | ⟨q', idx, arena, hidx, rfl⟩ := hx.cases
  . omega
  . have hb := hK.block_bounds arena hidx
    omega

end Nodes

section Count

theorem countP_blocks {l : List Nat} (hnd : l.Nodup)
    (hl : ∀ x ∈ l, ∃ q idx, idx < blocksPerArena i ∧ x = blockAt q i idx)
    : l.countP (fun x => x / 4096 = q) = ((List.range (blocksPerArena i)).countP fun idx =>
        blockAt q i idx ∈ l) := by
  rw [List.countP_eq_length_filter, List.countP_eq_length_filter]
  have hperm : (l.filter fun x => decide (x / 4096 = q)).Perm
      (((List.range (blocksPerArena i)).filter fun idx => decide (blockAt q i idx ∈ l)).map
        (blockAt q i)) := by
    rw [List.perm_ext_iff_of_nodup (hnd.filter _)]
    . intro x
      simp only [List.mem_filter, List.mem_map, List.mem_range, decide_eq_true_eq]
      constructor
      . rintro ⟨hx, hq⟩
        obtain ⟨q', idx, hidx, rfl⟩ := hl x hx
        rw [blockAt_div hidx] at hq
        subst hq
        exact ⟨idx, ⟨hidx, hx⟩, rfl⟩
      . rintro ⟨idx, ⟨hidx, hmem⟩, rfl⟩
        exact ⟨hmem, blockAt_div hidx⟩
    . apply List.Nodup.map
      . intro a b hab
        exact blockAt_injective hab
      . exact List.nodup_range.filter _
  rw [hperm.length_eq, List.length_map]

theorem countP_eq_blocksPerArena {l : List Nat} (hnd : l.Nodup)
    (hl : ∀ x ∈ l, ∃ q idx, idx < blocksPerArena i ∧ x = blockAt q i idx)
    : l.countP (fun x => x / 4096 = q) = blocksPerArena i ↔ ∀ idx < blocksPerArena i,
        blockAt q i idx ∈ l := by
  rw [countP_blocks hnd hl]
  have hlen : (List.range (blocksPerArena i)).length = blocksPerArena i := List.length_range
  constructor
  . intro h idx hidx
    have hall := List.countP_eq_length.mp (h.trans hlen.symm) idx (List.mem_range.mpr hidx)
    exact of_decide_eq_true hall
  . intro h
    apply Eq.trans _ hlen
    apply List.countP_eq_length.mpr
    intro idx hidx
    rw [List.mem_range] at hidx
    exact decide_eq_true (h idx hidx)

end Count

end RogOS
