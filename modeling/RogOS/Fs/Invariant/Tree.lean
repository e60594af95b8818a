import Mathlib.Algebra.Order.BigOperators.Group.Finset
import RogOS.Fs.Lemmas.Delete
import RogOS.Fs.Lemmas.FileWrite

/-!
The tree of files and directories, and what it means for a volume to hold it: the blocks of the
inodes are in use and not shared, and the entries of the directories name their children.
-/

namespace RogOS

variable {part : Partition} {strict : Bool} {pend pend' : Option Nat} {a a' : Image} {d m n : Nat}

structure ProperName (name : List UInt8) : Prop where
  short : name.length < 16
  nulFree : 0 ∉ name
  notDot : name ≠ [46]
  notDotDot : name ≠ [46, 46]

/--
The inode of every inode number in use, its type, the directory it is in, and the number of entries
that were made for it there.
-/
structure Tree where
  node : Nat → Option Inode
  type : Nat → FileType
  parent : Nat → Nat
  entries : Nat → Nat

structure Image.BlocksLive (a : Image) (ino : Inode) : Prop where
  entry : ∀ i < 140, i ≠ 0 → ∀ e, a.dirent ino i 0 = some e → ∃ k < 21, ∃ e',
    a.dirent ino i k = some e' ∧ e'.fType ≠ 0
  table : ino.sector 12 ≠ 0 → a.dirent ino 12 0 ≠ none

theorem Image.BlocksLive.mono {ino ino' : Inode} (h : a.BlocksLive ino)
    (hdirent : ∀ i < 140, ∀ k < 21, a'.dirent ino' i k = a.dirent ino i k)
    (htable : ino'.sector 12 ≠ 0 → ino.sector 12 ≠ 0) : a'.BlocksLive ino' where
  entry i hi h0 e he := by
    rw [hdirent i hi 0 (by omega)] at he
    obtain ⟨k, hk, e', he', hlive⟩ := h.entry i hi h0 e he
    exact ⟨k, hk, e', by rw [hdirent i hi k hk]; exact he', hlive⟩
  table h12 := by
    rw [hdirent 12 (by omega) 0 (by omega)]
    exact h.table (htable h12)

def OtherSlot (i k : Nat) : Prop := ¬ (i = 0 ∧ k < 2)

namespace Tree

variable {T T' : Tree}

def refs (T : Tree) (a : Image) (p : Nat × Nat) : UInt32 :=
  match T.node p.1 with
  | some ino => a.refs ino p.2
  | none => 0

def share (T : Tree) (d m : Nat) : Nat :=
  if (T.node m).isSome ∧ m ≠ 0 ∧ T.parent m = d then T.entries m else 0

def size (T : Tree) (d : Nat) : Nat := ∑ m ∈ Finset.range 256, T.share d m

structure ChildEntry (T : Tree) (pend : Option Nat) (d : Nat) (e : DirEntry) : Prop where
  name : ∃ name, ProperName name ∧ e = DirEntry.new name e.iNo (T.type e.iNo.toNat)
  node : (T.node e.iNo.toNat).isSome
  nonzero : e.iNo ≠ 0
  parent : T.parent e.iNo.toNat = d
  known : pend ≠ some e.iNo.toNat

structure DirOk (T : Tree) (pend : Option Nat) (a : Image) (d : Nat) (ino : Inode) : Prop where
  dot : a.dirent ino 0 0 = some (DirEntry.new [46] (UInt32.ofNat d) .directory)
  dotdot : a.dirent ino 0 1 = some (DirEntry.new [46, 46] (UInt32.ofNat (T.parent d)) .directory)
  child : ∀ i < 140, ∀ k < 21, OtherSlot i k → ∀ e, a.dirent ino i k = some e →
    e = DirEntry.blank ∨ T.ChildEntry pend d e
  once : ∀ i < 140, ∀ k < 21, ∀ j < 140, ∀ l < 21, OtherSlot i k → OtherSlot j l → ∀ e e',
    a.dirent ino i k = some e → a.dirent ino j l = some e' → e.iNo ≠ 0 → e.iNo = e'.iNo → i = j
  twice : ∀ i < 140, ∀ k < 21, OtherSlot i k → ∀ e, a.dirent ino i k = some e → e.iNo ≠ 0 →
    T.entries e.iNo.toNat = 2 → ∃ l < 21, l ≠ k ∧ OtherSlot i l ∧ ∃ e', a.dirent ino i l = some e'
      ∧ e'.iNo = e.iNo
  size : ino.iSize.toNat = 48 + 24 * T.size d
  blocks : a.BlocksLive ino

structure FileOk (a : Image) (ino : Inode) : Prop where
  has : (∀ j, a.refs ino j = 0) ∧ ino.iSize.toNat = 0 ∨ a.HasBlocks ino (ino.iSize.toNat / 512 + 1)
  small : ino.iSize.toNat < 71680

end Tree

def Image.HasEntry (a : Image) (p : Inode) (n : Nat) : Prop :=
  ∃ i < 140, ∃ k < 21, OtherSlot i k ∧ ∃ e, a.dirent p i k = some e ∧ e.iNo = UInt32.ofNat n

/--
The volume holds the tree. The inode `pend` has no entry; `strict` asks for every block in use to be
referred to, and for every other inode to have an entry.
-/
structure TreeInv (part : Partition) (strict : Bool) (pend : Option Nat) (a : Image) (T : Tree)
    : Prop where
  tail : a.TailUsed part
  lt : ∀ n ino, T.node n = some ino → n < 256 ∧ ino.iNo = UInt32.ofNat n
  root : (T.node 0).isSome ∧ T.type 0 = .directory ∧ T.parent 0 = 0
  type : ∀ n ino, T.node n = some ino → T.type n = .regular ∨ T.type n = .directory
  parent : ∀ n ino, T.node n = some ino → (T.node (T.parent n)).isSome ∧ T.type (T.parent n)
    = .directory
  rooted : ∀ n ino, T.node n = some ino → ∃ k, T.parent^[k] n = 0
  entries : ∀ n ino, T.node n = some ino → T.entries n ≤ 2
    ∧ (n ≠ 0 → pend ≠ some n → 0 < T.entries n)
  own : Ownership part part.bitLen a.blockUsed (T.refs a)
  noLeak : strict = true → NoLeak part a.blockUsed (T.refs a)
  file : ∀ n ino, T.node n = some ino → T.type n = .regular → Tree.FileOk a ino
  dir : ∀ n ino, T.node n = some ino → T.type n = .directory → T.DirOk pend a n ino
  linked : strict = true → ∀ n p, (T.node n).isSome → n ≠ 0 → pend ≠ some n → T.node (T.parent n)
    = some p →
    a.HasEntry p n

section Basic

variable {T T' : Tree} {ino ino' : Inode}

theorem Tree.refs_of_node (h : T.node n = some ino) {j : Nat} : T.refs a (n, j) = a.refs ino j := by
  simp [refs, h]

theorem Tree.refs_of_none (h : T.node n = none) {j : Nat} : T.refs a (n, j) = 0 := by
  simp [refs, h]

theorem TreeInv.owns (h : TreeInv part strict pend a T) (hn : T.node n = some ino)
    : a.Owns part ino := by
  rw [Image.owns_iff]
  constructor
  . exact h.own.le
  . intro j hj
    rw [← T.refs_of_node hn] at hj ⊢
    exact h.own.inArea _ hj
  . intro j hj
    rw [← T.refs_of_node hn] at hj ⊢
    exact h.own.used _ hj
  . intro i j hi hij
    rw [← T.refs_of_node hn] at hi hij
    rw [← T.refs_of_node hn] at hij
    have := h.own.inj _ _ hi hij
    exact congrArg Prod.snd this

theorem Tree.DirOk.mono {T T' : Tree} (h : T.DirOk pend a d ino)
    (hdirent : ∀ i < 140, ∀ k < 21, a'.dirent ino' i k = a.dirent ino i k)
    (hparent : T'.parent d = T.parent d) (hchild : ∀ e, T.ChildEntry pend d e →
      T'.ChildEntry pend' d e ∧ T'.entries e.iNo.toNat = T.entries e.iNo.toNat)
    (hsize : ino'.iSize.toNat = 48 + 24 * T'.size d)
    (htable : ino'.sector 12 ≠ 0 → ino.sector 12 ≠ 0)
    : T'.DirOk pend' a' d ino' where
  dot := by rw [hdirent 0 (by omega) 0 (by omega), h.dot]
  dotdot := by rw [hdirent 0 (by omega) 1 (by omega), h.dotdot, hparent]
  child i hi k hk ho e he := by
    rw [hdirent i hi k hk] at he
    cases h.child i hi k hk ho e he with
    | inl hb => exact .inl hb
    | inr hc => exact .inr (hchild e hc).1
  once i hi k hk j hj l hl ho ho' e e' he he' h0 := by
    rw [hdirent i hi k hk] at he
    rw [hdirent j hj l hl] at he'
    exact h.once i hi k hk j hj l hl ho ho' e e' he he' h0
  twice i hi k hk ho e he h0 h2 := by
    rw [hdirent i hi k hk] at he
    have hc : T.ChildEntry pend d e := by
      cases h.child i hi k hk ho e he with
      | inl hb =>
        rw [hb] at h0
        exact absurd rfl h0
      | inr hc => exact hc
    rw [(hchild e hc).2] at h2
    obtain ⟨l, hl, hlk, hol, e', he', hno⟩ := h.twice i hi k hk ho e he h0 h2
    exact ⟨l, hl, hlk, hol, e', by rw [hdirent i hi l hl]; exact he', hno⟩
  size := hsize
  blocks := h.blocks.mono hdirent htable

theorem Image.HasEntry.mono (h : a.HasEntry ino n)
    (hdirent : ∀ i < 140, ∀ k < 21, OtherSlot i k → ∀ e, a.dirent ino i k = some e
      → e.iNo = UInt32.ofNat n →
      a'.dirent ino' i k = some e) : a'.HasEntry ino' n := by
  obtain ⟨i, hi, k, hk, ho, e, he, hno⟩ := h
  exact ⟨i, hi, k, hk, ho, e, hdirent i hi k hk ho e he hno, hno⟩

theorem Tree.FileOk.mono (h : Tree.FileOk a ino) (hrefs : ∀ j, a'.refs ino j = a.refs ino j)
    : Tree.FileOk a' ino where
  has := by
    cases h.has with
    | inl h0 => exact .inl ⟨fun j => by rw [hrefs]; exact h0.1 j, h0.2⟩
    | inr hb =>
      refine .inr ⟨?_, hb.table⟩
      intro j hj
      rw [← Image.refs_of_lt (by omega), hrefs, Image.refs_of_lt (by omega)]
      exact hb.block j hj
  small := h.small

end Basic

section Size

variable {T T' : Tree}

theorem Tree.size_change (hn : n < 256) (h : ∀ m, m ≠ n → T'.share d m = T.share d m)
    : T'.size d + T.share d n = T.size d + T'.share d n := by
  have hmem : n ∈ Finset.range 256 := Finset.mem_range.mpr hn
  have hrest : ∑ m ∈ (Finset.range 256).erase n, T'.share d m
      = ∑ m ∈ (Finset.range 256).erase n, T.share d m := by
    apply Finset.sum_congr rfl
    intro m hm
    exact h m (Finset.ne_of_mem_erase hm)
  unfold Tree.size
  rw [← Finset.add_sum_erase _ _ hmem, ← Finset.add_sum_erase _ (T.share d) hmem, hrest]
  omega

theorem Tree.size_congr (h : ∀ m, T'.share d m = T.share d m) : T'.size d = T.size d := by
  unfold Tree.size
  exact Finset.sum_congr rfl fun m _ => h m

theorem Tree.share_le_size (hn : n < 256) : T.share d n ≤ T.size d := by
  unfold Tree.size
  exact Finset.single_le_sum (f := T.share d) (fun _ _ => Nat.zero_le _) (Finset.mem_range.mpr hn)

theorem TreeInv.size_le (h : TreeInv part strict pend a T) : T.size d ≤ 512 := by
  have hle : ∀ m ∈ Finset.range 256, T.share d m ≤ 2 := by
    intro m _
    unfold Tree.share
    split
    . next hm =>
      obtain ⟨ino, hino⟩ := Option.isSome_iff_exists.mp hm.1
      exact (h.entries m ino hino).1
    . omega
  have hsum := Finset.sum_le_card_nsmul (Finset.range 256) (T.share d) 2 hle
  rw [Finset.card_range] at hsum
  exact hsum

end Size

section Extend

variable {T T' : Tree} {ino ino' : Inode}

def Tree.Frame (T : Tree) (n : Nat) (a a' : Image) : Prop :=
  ∀ m, m ≠ n → ∀ j, T.refs a (m, j) ≠ 0 → a'.sec (T.refs a (m, j)).toNat
    = a.sec (T.refs a (m, j)).toNat

theorem TreeInv.frame (h : TreeInv part strict pend a T) {r' : Nat → UInt32}
    (hext : Extends part part.bitLen a a' (fun j => T.refs a (n, j)) r') : T.Frame n a a' := by
  intro m hmn j h0
  apply hext.sec
  intro i hi heq
  have heq' := UInt32.toNat_inj.mp heq
  cases hext.old i hi with
  | inl hold =>
    rw [hold] at heq' hi
    have := h.own.inj _ _ hi heq'
    exact hmn (congrArg Prod.fst this).symm
  | inr hfree =>
    rw [heq', h.own.used _ h0] at hfree
    contradiction

theorem Tree.Frame.refs (h : T.Frame n a a') (hmn : m ≠ n) (hm : T.node m = some ino) {j : Nat}
    : a'.refs ino j = a.refs ino j := by
  unfold Image.refs
  split
  . symm
    apply Image.ref_congr (fun _ _ => rfl)
    intro h0
    have h140 : T.refs a (m, 140) = ino.sector 12 := by rw [T.refs_of_node hm, Image.refs_table]
    have hsec := h m hmn 140 (by rw [h140]; exact h0)
    rw [h140] at hsec
    exact hsec.symm
  . rfl

theorem Tree.Frame.dirent (h : T.Frame n a a') (hmn : m ≠ n) (hm : T.node m = some ino) {i k : Nat}
    (hi : i < 140) : a'.dirent ino i k = a.dirent ino i k := by
  have href : a'.ref ino i = a.ref ino i := by
    rw [← Image.refs_of_lt (by omega), ← Image.refs_of_lt (by omega)]
    exact h.refs hmn hm
  symm
  apply Image.dirent_congr href.symm
  intro h0
  have hrefs : T.refs a (m, i) = a.ref ino i := by
    rw [T.refs_of_node hm, Image.refs_of_lt (by omega)]
  have hsec := h m hmn i (by rw [hrefs]; exact h0)
  rw [hrefs] at hsec
  exact hsec.symm

def Tree.setNode (T : Tree) (n : Nat) (o : Option Inode)
    : Tree := { T with node := Function.update T.node n o }

theorem Tree.Frame.refs_setNode (h : T.Frame n a a') (p : Nat × Nat)
    (hT : T'.node = Function.update T.node n (some ino'))
    : T'.refs a' p = if p.1 = n then a'.refs ino' p.2 else T.refs a p := by
  unfold Tree.refs
  rw [hT]
  by_cases hp : p.1 = n
  . rw [if_pos hp, hp, Function.update_self]
  . rw [if_neg hp, Function.update_of_ne hp]
    split
    . next ino hino => exact h.refs hp hino
    . rfl

theorem TreeInv.own_extend (h : TreeInv part strict pend a T)
    (hext : Extends part part.bitLen a a' (fun j => T.refs a (n, j)) (a'.refs ino'))
    (hT : T'.node = Function.update T.node n (some ino'))
    : Ownership part part.bitLen a'.blockUsed (T'.refs a') := by
  have hrefs := fun p => (h.frame hext).refs_setNode p hT
  -- a new reference of the inode `n` is to no block of another inode
  have hcross : ∀ p q : Nat × Nat, p.1 = n → q.1 ≠ n → a'.refs ino' p.2 ≠ 0 → a'.refs ino' p.2
      ≠ T.refs a q := by
    intro p q hp hq h0 heq
    cases hext.old p.2 h0 with
    | inl hold =>
      have hinj := h.own.inj (n, p.2) q (by rw [← hold]; exact h0) (by rw [← hold]; exact heq)
      exact hq (congrArg Prod.fst hinj).symm
    | inr hfree =>
      rw [heq] at h0 hfree
      rw [h.own.used q h0] at hfree
      contradiction
  constructor
  . exact h.own.le
  . intro p hp
    rw [hrefs] at hp ⊢
    split at hp
    . next hpn =>
      rw [if_pos hpn]
      exact hext.own.inArea _ hp
    . next hpn =>
      rw [if_neg hpn]
      exact h.own.inArea _ hp
  . intro p hp
    rw [hrefs] at hp ⊢
    split at hp
    . next hpn =>
      rw [if_pos hpn]
      exact hext.own.used _ hp
    . next hpn =>
      rw [if_neg hpn]
      exact hext.used _ (h.own.used _ hp)
  . intro p q hp hpq
    rw [hrefs] at hp hpq
    rw [hrefs q] at hpq
    by_cases hpn : p.1 = n
    . rw [if_pos hpn] at hp hpq
      by_cases hqn : q.1 = n
      . rw [if_pos hqn] at hpq
        exact Prod.ext (hpn.trans hqn.symm) (hext.own.inj _ _ hp hpq)
      . rw [if_neg hqn] at hpq
        exact absurd hpq (hcross p q hpn hqn hp)
    . rw [if_neg hpn] at hp hpq
      by_cases hqn : q.1 = n
      . rw [if_pos hqn] at hpq
        rw [hpq] at hp
        exact absurd hpq.symm (hcross q p hqn hpn hp)
      . rw [if_neg hqn] at hpq
        exact h.own.inj _ _ hp hpq

theorem TreeInv.noLeak_extend (h : TreeInv part strict pend a T) (hstrict : strict = true)
    (hext : Extends part part.bitLen a a' (fun j => T.refs a (n, j)) (a'.refs ino'))
    (hkeeps : Keeps (fun j => T.refs a (n, j)) (a'.refs ino'))
    (hT : T'.node = Function.update T.node n (some ino'))
    : NoLeak part a'.blockUsed (T'.refs a') := by
  have hrefs := fun p => (h.frame hext).refs_setNode p hT
  intro b hb hused
  cases hext.new b hused with
  | inl hold =>
    obtain ⟨p, hp⟩ := h.noLeak hstrict b hb hold
    refine ⟨p, ?_⟩
    rw [hrefs]
    split
    . next hpn =>
      have h0 : T.refs a (n, p.2) ≠ 0 := by
        rw [← hpn, hp]
        exact (part.isData_blockLba (by have := part.bitLen_le; omega)).ne_zero
      rw [hkeeps p.2 h0, ← hpn]
      exact hp
    . exact hp
  | inr hnew =>
    obtain ⟨j, -, hj⟩ := hnew
    refine ⟨(n, j), ?_⟩
    rw [hrefs, if_pos rfl]
    exact hj

end Extend

end RogOS
