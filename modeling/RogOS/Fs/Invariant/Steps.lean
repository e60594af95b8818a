import RogOS.Fs.Invariant.Tree

/-!
The steps that the system calls are made of: making and releasing an inode, entering it in a
directory and deleting its entry, and writing to a file. Each of them keeps the invariant of the
tree.
-/

namespace RogOS

variable {part : Partition} {strict : Bool} {pend pend' : Option Nat} {a a' : Image} {T : Tree}
  {d m n w : Nat} {p p' ino ino' : Inode}

theorem Extends.tailUsed {r r' : Nat → UInt32} (h : Extends part part.bitLen a a' r r')
    (ht : a.TailUsed part)
    : a'.TailUsed part := fun b h1 h2 => h.used b (ht b h1 h2)

def Tree.change (T : Tree) (d : Nat) (p' : Inode) (m w : Nat) : Tree :=
  { T with node := Function.update T.node d (some p'), entries := Function.update T.entries m w }

section Change

theorem Tree.change_isSome (hd : T.node d = some p) {x : Nat}
    : ((T.change d p' m w).node x).isSome = (T.node x).isSome := by
  simp only [Tree.change, Function.update_apply]
  split
  . next hx => simp [hx, hd]
  . rfl

theorem Tree.change_entries_of_ne {x : Nat} (hx : x ≠ m)
    : (T.change d p' m w).entries x = T.entries x := by
  simp [Tree.change, hx]

theorem Tree.change_entries_self : (T.change d p' m w).entries m = w := by
  simp [Tree.change]

theorem Tree.change_node_of_ne {x : Nat} (hx : x ≠ d) : (T.change d p' m w).node x = T.node x := by
  simp [Tree.change, hx]

theorem Tree.change_node_self : (T.change d p' m w).node d = some p' := by
  simp [Tree.change]

theorem Tree.change_share_of_ne (hd : T.node d = some p) {c x : Nat} (hx : x ≠ m)
    : (T.change d p' m w).share c x = T.share c x := by
  unfold Tree.share
  rw [T.change_isSome hd, T.change_entries_of_ne hx]
  rfl

theorem Tree.change_size_of_ne (hd : T.node d = some p) {c : Nat}
    (hm : T.parent m ≠ c ∨ w = T.entries m) : (T.change d p' m w).size c = T.size c := by
  apply Tree.size_congr
  intro x
  by_cases hx : x = m
  . rw [hx]
    unfold Tree.share
    rw [T.change_isSome hd, T.change_entries_self]
    cases hm with
    | inl hm =>
      rw [if_neg fun h => hm h.2.2, if_neg fun h => hm h.2.2]
    | inr hm => rw [hm]; rfl
  . exact T.change_share_of_ne hd hx

theorem Tree.change_cases {x : Nat} {i : Inode} (hx : (T.change d p' m w).node x = some i)
    : x = d ∧ i = p' ∨ x ≠ d ∧ T.node x = some i := by
  by_cases hxd : x = d
  . rw [hxd, T.change_node_self, Option.some.injEq] at hx
    exact .inl ⟨hxd, hx.symm⟩
  . rw [T.change_node_of_ne hxd] at hx
    exact .inr ⟨hxd, hx⟩

theorem Tree.change_old (hd : T.node d = some p) {x : Nat} {i : Inode}
    (hx : (T.change d p' m w).node x = some i) : ∃ j, T.node x = some j := by
  rw [← Option.isSome_iff_exists, ← T.change_isSome hd (m := m) (w := w), hx]
  rfl

/-- Either the entries of `m` in the directory `d` were counted again, or nothing was. -/
def Tree.Recounted (T : Tree) (pend pend' : Option Nat) (d m w : Nat) : Prop :=
  T.parent m = d ∧ (pend' ≠ some m → 0 < w) ∧ w ≤ 2 ∧ (∀ x, x ≠ m → pend' ≠ some x)
      ∧ (∀ x, x ≠ m → pend ≠ some x)
    ∨ w = T.entries m ∧ pend' = pend

theorem TreeInv.entries_change (h : TreeInv part strict pend a T) (hd : T.node d = some p)
    (hm : T.Recounted pend pend' d m w) {x : Nat} {i : Inode}
    (hx : (T.change d p' m w).node x = some i)
    : (T.change d p' m w).entries x ≤ 2
        ∧ (x ≠ 0 → pend' ≠ some x → 0 < (T.change d p' m w).entries x) := by
  obtain ⟨j, hj⟩ := T.change_old hd hx
  by_cases hxm : x = m
  . rw [hxm, T.change_entries_self]
    rw [hxm] at hj
    cases hm with
    | inl hm => exact ⟨hm.2.2.1, fun _ => hm.2.1⟩
    | inr hm =>
      rw [hm.1, hm.2]
      exact h.entries m j hj
  . rw [T.change_entries_of_ne hxm]
    refine ⟨(h.entries x j hj).1, fun h0 hp => (h.entries x j hj).2 h0 ?_⟩
    cases hm with
    | inl hm => exact hm.2.2.2.2 x hxm
    | inr hm =>
      rw [← hm.2]
      exact hp

theorem Tree.DirOk.change_other {x : Nat} {i : Inode} (hok : T.DirOk pend a x i)
    (hd : T.node d = some p) (hm : T.Recounted pend pend' d m w) (hframe : T.Frame d a a')
    (hx : T.node x = some i) (hxd : x ≠ d) : (T.change d p' m w).DirOk pend' a' x i := by
  have hparent : (T.change d p' m w).parent x = T.parent x := rfl
  apply hok.mono (fun j hj k _ => hframe.dirent hxd hx hj) hparent
  . intro e he
    -- the entries of `m` are in the directory that was changed
    have hne : T.parent m = d → e.iNo.toNat ≠ m := by
      intro hpar heq
      have := he.parent
      rw [heq, hpar] at this
      exact hxd this.symm
    constructor
    . refine ⟨he.name, ?_, he.nonzero, he.parent, ?_⟩
      . rw [T.change_isSome hd]
        exact he.node
      . cases hm with
        | inl hm => exact hm.2.2.2.1 _ (hne hm.1)
        | inr hm =>
          rw [hm.2]
          exact he.known
    . cases hm with
      | inl hm => exact T.change_entries_of_ne (hne hm.1)
      | inr hm =>
        by_cases heq : e.iNo.toNat = m
        . rw [heq, T.change_entries_self, hm.1]
        . exact T.change_entries_of_ne heq
  . rw [hok.size, T.change_size_of_ne hd]
    cases hm with
    | inl hm =>
      left
      rw [hm.1]
      exact Ne.symm hxd
    | inr hm => exact .inr hm.1
  . exact id

theorem TreeInv.linked_other (h : TreeInv part strict pend a T)
    (hm : T.Recounted pend pend' d m w) (hframe : T.Frame d a a') (hs : strict = true) {x : Nat}
    {q : Inode} (hx : (T.node x).isSome) (h0 : x ≠ 0) (hpx : pend' ≠ some x)
    (hxd : T.parent x ≠ d) (hq : T.node (T.parent x) = some q) : a'.HasEntry q x := by
  have hpend : pend ≠ some x := by
    cases hm with
    | inl hm =>
      apply hm.2.2.2.2
      rintro rfl
      exact hxd hm.1
    | inr hm =>
      rw [← hm.2]
      exact hpx
  apply (h.linked hs x q hx h0 hpend hq).mono
  intro i hi k _ _ e he _
  rw [hframe.dirent hxd hq hi]
  exact he

theorem TreeInv.change (h : TreeInv part strict pend a T) (hd : T.node d = some p)
    (hframe : T.Frame d a a') (htail : a'.TailUsed part)
    (hown : Ownership part part.bitLen a'.blockUsed ((T.change d p' m w).refs a'))
    (hleak : strict = true → NoLeak part a'.blockUsed ((T.change d p' m w).refs a'))
    (hno : p'.iNo = p.iNo) (hm : T.Recounted pend pend' d m w)
    (hfile : T.type d = .regular → Tree.FileOk a' p')
    (hdir : T.type d = .directory → (T.change d p' m w).DirOk pend' a' d p')
    (hlink : strict = true → ∀ x, (T.node x).isSome → x ≠ 0 → pend' ≠ some x → T.parent x = d
      → a'.HasEntry p' x)
    : TreeInv part strict pend' a' (T.change d p' m w) where
  tail := htail
  lt x i hx := by
    obtain ⟨rfl, rfl⟩ | ⟨-, hx⟩ := T.change_cases hx
    . rw [hno]
      exact h.lt x p hd
    . exact h.lt x i hx
  root := by
    rw [T.change_isSome hd]
    exact h.root
  type x i hx := by
    obtain ⟨j, hj⟩ := T.change_old hd hx
    exact h.type x j hj
  parent x i hx := by
    obtain ⟨j, hj⟩ := T.change_old hd hx
    rw [T.change_isSome hd]
    exact h.parent x j hj
  rooted x i hx := by
    obtain ⟨j, hj⟩ := T.change_old hd hx
    exact h.rooted x j hj
  entries x i hx := h.entries_change hd hm hx
  own := hown
  noLeak := hleak
  file x i hx hty := by
    obtain ⟨rfl, rfl⟩ | ⟨hxd, hx⟩ := T.change_cases hx
    . exact hfile hty
    . exact (h.file x i hx hty).mono fun j => hframe.refs hxd hx
  dir x i hx hty := by
    obtain ⟨rfl, rfl⟩ | ⟨hxd, hx⟩ := T.change_cases hx
    . exact hdir hty
    . exact (h.dir x i hx hty).change_other hd hm hframe hx hxd
  linked hs x q hx h0 hpx hq := by
    rw [T.change_isSome hd] at hx
    obtain ⟨hxd, rfl⟩ | ⟨hxd, hq⟩ := T.change_cases hq
    . exact hlink hs x hx h0 hpx hxd
    . exact h.linked_other hm hframe hs hx h0 hpx hxd hq

theorem TreeInv.change_of_extends (h : TreeInv part strict pend a T) (hd : T.node d = some p)
    (hext : Extends part part.bitLen a a' (a.refs p) (a'.refs p'))
    (hkeeps : strict = true → Keeps (a.refs p) (a'.refs p')) (hno : p'.iNo = p.iNo)
    (hm : T.Recounted pend pend' d m w)
    (hfile : T.type d = .regular → Tree.FileOk a' p')
    (hdir : T.type d = .directory → (T.change d p' m w).DirOk pend' a' d p')
    (hlink : strict = true → ∀ x, (T.node x).isSome → x ≠ 0 → pend' ≠ some x → T.parent x = d
      → a'.HasEntry p' x)
    : TreeInv part strict pend' a' (T.change d p' m w) := by
  have hrefs : a.refs p = fun j => T.refs a (d, j) := funext fun j => (T.refs_of_node hd).symm
  rw [hrefs] at hext hkeeps
  apply h.change hd (h.frame hext) (hext.tailUsed h.tail) _ _ hno hm hfile hdir hlink
  . exact h.own_extend hext rfl
  . intro hs
    exact h.noLeak_extend hs hext (hkeeps hs) rfl

theorem TreeInv.write (h : TreeInv part strict pend a T) (hn : T.node n = some ino)
    (hty : T.type n = .regular) (hext : Extends part part.bitLen a a' (a.refs ino) (a'.refs ino'))
    (hkeeps : Keeps (a.refs ino) (a'.refs ino')) (hno : ino'.iNo = ino.iNo)
    (hfile : Tree.FileOk a' ino')
    : TreeInv part strict pend a' (T.change n ino' n (T.entries n)) := by
  apply h.change_of_extends hn hext (fun _ => hkeeps) hno (.inr ⟨rfl, rfl⟩) (fun _ => hfile)
  . intro hdir
    rw [hty] at hdir
    contradiction
  . intro _ x hx _ _ hpar
    obtain ⟨i, hi⟩ := Option.isSome_iff_exists.mp hx
    have hdir := (h.parent x i hi).2
    rw [hpar, hty] at hdir
    contradiction

end Change

section Add

def Tree.add (T : Tree) (d n : Nat) (ty : FileType) (ino : Inode) : Tree where
  node := Function.update T.node n (some ino)
  type := Function.update T.type n ty
  parent := Function.update T.parent n d
  entries := Function.update T.entries n 0

variable {ty : FileType}

theorem Tree.add_share (hnew : T.node n = none) {c x : Nat}
    : (T.add d n ty ino).share c x = T.share c x := by
  unfold Tree.share Tree.add
  by_cases hx : x = n
  . rw [hx]
    simp [hnew]
  . simp [hx]

theorem Tree.add_size (hnew : T.node n = none) {c : Nat} : (T.add d n ty ino).size c = T.size c :=
  Tree.size_congr fun _ => T.add_share hnew

theorem TreeInv.size_of_none (h : TreeInv part strict pend a T) (hnew : T.node n = none)
    : T.size n = 0 := by
  unfold Tree.size
  apply Finset.sum_eq_zero
  intro x _
  unfold Tree.share
  split
  . next hx =>
    obtain ⟨ino, hino⟩ := Option.isSome_iff_exists.mp hx.1
    have := (h.parent x ino hino).1
    rw [hx.2.2, hnew] at this
    contradiction
  . rfl

theorem TreeInv.iterate_parent (h : TreeInv part strict pend a T) {f : Nat → Nat}
    (hf : ∀ x, (T.node x).isSome → f x = T.parent x) {x k : Nat} (hx : (T.node x).isSome)
    : f^[k] x = T.parent^[k] x := by
  induction k generalizing x with
  | zero => rfl
  | succ k ih =>
    rw [Function.iterate_succ_apply, Function.iterate_succ_apply, hf x hx]
    obtain ⟨i, hi⟩ := Option.isSome_iff_exists.mp hx
    exact ih (h.parent x i hi).1

theorem Tree.add_cases {x : Nat} {i : Inode} (hx : (T.add d n ty ino).node x = some i)
    : x = n ∧ i = ino ∨ x ≠ n ∧ T.node x = some i := by
  by_cases hxn : x = n
  . rw [hxn] at hx
    simp only [Tree.add, Function.update_self, Option.some.injEq] at hx
    exact .inl ⟨hxn, hx.symm⟩
  . simp only [Tree.add, Function.update_of_ne hxn] at hx
    exact .inr ⟨hxn, hx⟩

theorem Tree.ne_of_node (hnew : T.node n = none) {x : Nat} (hx : (T.node x).isSome) : x ≠ n := by
  rintro rfl
  rw [hnew] at hx
  contradiction

theorem Tree.add_parent_self : (T.add d n ty ino).parent n = d := by
  simp [Tree.add]

theorem Tree.add_type_self : (T.add d n ty ino).type n = ty := by
  simp [Tree.add]

section Old

variable (hnew : T.node n = none) {x : Nat} (hx : (T.node x).isSome)
include hnew hx

theorem Tree.add_isSome : ((T.add d n ty ino).node x).isSome := by
  simp [Tree.add, Tree.ne_of_node hnew hx, hx]

theorem Tree.add_type : (T.add d n ty ino).type x = T.type x := by
  simp [Tree.add, Tree.ne_of_node hnew hx]

theorem Tree.add_parent : (T.add d n ty ino).parent x = T.parent x := by
  simp [Tree.add, Tree.ne_of_node hnew hx]

theorem Tree.add_entries : (T.add d n ty ino).entries x = T.entries x := by
  simp [Tree.add, Tree.ne_of_node hnew hx]

theorem TreeInv.rooted_add (h : TreeInv part strict none a T)
    : ∃ k, (T.add d n ty ino).parent^[k] x = 0 := by
  obtain ⟨i, hi⟩ := Option.isSome_iff_exists.mp hx
  obtain ⟨k, hk⟩ := h.rooted x i hi
  refine ⟨k, ?_⟩
  rw [h.iterate_parent (fun y hy => Tree.add_parent hnew hy) hx, hk]

end Old

theorem Tree.DirOk.add {x : Nat} {i : Inode} (hok : T.DirOk none a x i) (hnew : T.node n = none)
    (hframe : T.Frame n a a') (hx : T.node x = some i)
    : (T.add d n ty ino).DirOk (some n) a' x i := by
  have hxs : (T.node x).isSome := by rw [hx]; rfl
  apply hok.mono (fun j hj k _ => hframe.dirent (Tree.ne_of_node hnew hxs) hx hj)
    (Tree.add_parent hnew hxs)
  . intro e he
    refine ⟨⟨?_, Tree.add_isSome hnew he.node, he.nonzero,
      (Tree.add_parent hnew he.node).trans he.parent, ?_⟩, Tree.add_entries hnew he.node⟩
    . rw [Tree.add_type hnew he.node]
      exact he.name
    . intro heq
      rw [Option.some.injEq] at heq
      exact Tree.ne_of_node hnew he.node heq.symm
  . rw [hok.size, T.add_size hnew]
  . exact id

theorem TreeInv.add (h : TreeInv part strict none a T) (hnew : T.node n = none) (hn : n < 256)
    (hno : ino.iNo = UInt32.ofNat n) (hd : T.node d = some p) (hdty : T.type d = .directory)
    (hty : ty = .regular ∨ ty = .directory)
    (hext : Extends part part.bitLen a a' (fun _ => 0) (a'.refs ino))
    (hfile : ty = .regular → Tree.FileOk a' ino)
    (hdir : ty = .directory → (T.add d n ty ino).DirOk (some n) a' n ino)
    : TreeInv part strict (some n) a' (T.add d n ty ino) := by
  have hrefs : (fun j => T.refs a (n, j)) = fun _ => 0 := funext fun j => T.refs_of_none hnew
  have hext' : Extends part part.bitLen a a' (fun j => T.refs a (n, j)) (a'.refs ino) := by
    rw [hrefs]
    exact hext
  have hframe := h.frame hext'
  have hsome : ∀ {x i}, T.node x = some i → (T.node x).isSome := fun hx => by rw [hx]; rfl
  refine {
    tail := hext.tailUsed h.tail, lt := ?_, root := ?_, type := ?_, parent := ?_, rooted := ?_
    entries := ?_, own := h.own_extend hext' rfl, noLeak := ?_, file := ?_, dir := ?_
    linked := ?_ }
  . intro x i hx
    obtain ⟨rfl, rfl⟩ | ⟨-, hx⟩ := T.add_cases hx
    . exact ⟨hn, hno⟩
    . exact h.lt x i hx
  . obtain ⟨h1, h2, h3⟩ := h.root
    rw [Tree.add_type hnew h1, Tree.add_parent hnew h1]
    exact ⟨Tree.add_isSome hnew h1, h2, h3⟩
  . intro x i hx
    obtain ⟨rfl, rfl⟩ | ⟨-, hx⟩ := T.add_cases hx
    . rw [Tree.add_type_self]
      exact hty
    . rw [Tree.add_type hnew (hsome hx)]
      exact h.type x i hx
  . intro x i hx
    obtain ⟨rfl, rfl⟩ | ⟨-, hx⟩ := T.add_cases hx
    . rw [Tree.add_parent_self, Tree.add_type hnew (hsome hd)]
      exact ⟨Tree.add_isSome hnew (hsome hd), hdty⟩
    . obtain ⟨h1, h2⟩ := h.parent x i hx
      rw [Tree.add_parent hnew (hsome hx), Tree.add_type hnew h1]
      exact ⟨Tree.add_isSome hnew h1, h2⟩
  . intro x i hx
    obtain ⟨rfl, rfl⟩ | ⟨-, hx⟩ := T.add_cases hx
    . obtain ⟨k, hk⟩ := h.rooted_add hnew (hsome hd)
      refine ⟨k + 1, ?_⟩
      rw [Function.iterate_succ_apply, Tree.add_parent_self, hk]
    . exact h.rooted_add hnew (hsome hx)
  . intro x i hx
    obtain ⟨rfl, rfl⟩ | ⟨-, hx⟩ := T.add_cases hx
    . simp [Tree.add]
    . rw [Tree.add_entries hnew (hsome hx)]
      exact ⟨(h.entries x i hx).1, fun h0 _ => (h.entries x i hx).2 h0 (by simp)⟩
  . intro hs
    apply h.noLeak_extend hs hext' _ rfl
    rw [hrefs]
    exact fun j hj => absurd rfl hj
  . intro x i hx hxty
    obtain ⟨rfl, rfl⟩ | ⟨hxn, hx⟩ := T.add_cases hx
    . exact hfile (Tree.add_type_self.symm.trans hxty)
    . rw [Tree.add_type hnew (hsome hx)] at hxty
      exact (h.file x i hx hxty).mono fun j => hframe.refs hxn hx
  . intro x i hx hxty
    obtain ⟨rfl, rfl⟩ | ⟨-, hx⟩ := T.add_cases hx
    . exact hdir (Tree.add_type_self.symm.trans hxty)
    . rw [Tree.add_type hnew (hsome hx)] at hxty
      exact (h.dir x i hx hxty).add hnew hframe hx
  . intro hs x q hx h0 hpx hq
    obtain ⟨i, hi⟩ := Option.isSome_iff_exists.mp hx
    obtain ⟨rfl, -⟩ | ⟨-, hi⟩ := T.add_cases hi
    . exact absurd rfl hpx
    have hpn := Tree.ne_of_node hnew (h.parent x i hi).1
    rw [Tree.add_parent hnew (hsome hi)] at hq
    obtain ⟨heq, -⟩ | ⟨-, hq⟩ := T.add_cases hq
    . exact absurd heq hpn
    apply (h.linked hs x q (hsome hi) h0 (by simp) hq).mono
    intro j hj k _ _ e he _
    rw [hframe.dirent hpn hq hj]
    exact he

end Add

section Release

theorem Tree.setNode_of_ne {o : Option Inode} {x : Nat} (hx : x ≠ m)
    : (T.setNode m o).node x = T.node x := by
  simp [Tree.setNode, hx]

theorem Tree.setNode_self {o : Option Inode} : (T.setNode m o).node m = o := by
  simp [Tree.setNode]

theorem Tree.setNode_size {c : Nat} (hent : T.entries m = 0)
    : (T.setNode m none).size c = T.size c := by
  apply Tree.size_congr
  intro x
  unfold Tree.share
  by_cases hx : x = m
  . rw [hx, T.setNode_self, hent]
    simp
  . rw [T.setNode_of_ne hx]
    rfl

theorem Image.Released.refs (h : a.Released part ino m a') {i : Inode} {j : Nat}
    : a'.refs i j = a.refs i j := by
  unfold Image.refs Image.ref Image.block
  rw [h.sec]

theorem Tree.refs_released (h : a.Released part ino m a') (q : Nat × Nat)
    : (T.setNode m none).refs a' q = if q.1 = m then 0 else T.refs a q := by
  unfold Tree.refs
  by_cases hq : q.1 = m
  . rw [if_pos hq, hq, T.setNode_self]
  . rw [if_neg hq, T.setNode_of_ne hq]
    split
    . exact h.refs
    . rfl

theorem Tree.setNode_none_old {x : Nat} {i : Inode} (hx : (T.setNode m none).node x = some i)
    : x ≠ m ∧ T.node x = some i := by
  have hxm : x ≠ m := by
    rintro rfl
    rw [T.setNode_self] at hx
    contradiction
  rw [T.setNode_of_ne hxm] at hx
  exact ⟨hxm, hx⟩

theorem TreeInv.own_released (h : TreeInv part strict pend a T) (hm : T.node m = some ino)
    (hrel : a.Released part ino m a')
    : Ownership part part.bitLen a'.blockUsed ((T.setNode m none).refs a') := by
  have hrefs := fun q => T.refs_released hrel q
  apply h.own.drop
  . intro q hq
    rw [hrefs] at hq ⊢
    split at hq
    . contradiction
    . next hne => rw [if_neg hne]
  . intro q hq
    rw [hrefs] at hq ⊢
    split at hq
    . contradiction
    . next hne =>
      rw [if_neg hne, hrel.blockUsed]
      refine ⟨h.own.used q hq, ?_⟩
      intro j hj
      rw [← T.refs_of_node hm] at hj ⊢
      apply h.own.blockIdx_ne hj hq
      intro heq
      exact hne (congrArg Prod.fst heq).symm

theorem TreeInv.noLeak_released (h : TreeInv part strict pend a T) (hm : T.node m = some ino)
    (hrel : a.Released part ino m a') (hs : strict = true)
    : NoLeak part a'.blockUsed ((T.setNode m none).refs a') := by
  intro b hb hused
  rw [hrel.blockUsed] at hused
  obtain ⟨q, hq⟩ := h.noLeak hs b hb hused.1
  refine ⟨q, ?_⟩
  rw [T.refs_released hrel, if_neg]
  . exact hq
  . intro hqm
    have hlt : b < 163840 := by
      have := part.bitLen_le
      omega
    have hqr : a.refs ino q.2 = part.blockLba b := by
      rw [← T.refs_of_node hm, ← hqm]
      exact hq
    apply hused.2 q.2
    . rw [hqr]
      exact (part.isData_blockLba hlt).ne_zero
    . rw [hqr, Partition.blockIdx_blockLba hlt]

theorem Tree.DirOk.released {x : Nat} {i : Inode} (hok : T.DirOk (some m) a x i)
    (hent : T.entries m = 0) (hrel : a.Released part ino m a') (hx : T.node x = some i)
    (hxm : x ≠ m) : (T.setNode m none).DirOk none a' x i := by
  have hframe : T.Frame m a a' := by
    intro y _ j _
    rw [hrel.sec]
  have hparent : (T.setNode m none).parent x = T.parent x := rfl
  apply hok.mono (fun j hj k _ => hframe.dirent hxm hx hj) hparent
  . intro e he
    refine ⟨⟨he.name, ?_, he.nonzero, he.parent, by simp⟩, rfl⟩
    rw [T.setNode_of_ne]
    . exact he.node
    . intro heq
      exact he.known (by rw [heq])
  . rw [hok.size, T.setNode_size hent]
  . exact id

theorem TreeInv.release (h : TreeInv part strict (some m) a T) (hm : T.node m = some ino)
    (h0 : m ≠ 0) (hent : T.entries m = 0)
    (hleaf : ∀ x i, T.node x = some i → x ≠ m → T.parent x ≠ m)
    (hrel : a.Released part ino m a') : TreeInv part strict none a' (T.setNode m none) where
  tail b hb hb' := by
    rw [hrel.blockUsed]
    refine ⟨h.tail b hb hb', ?_⟩
    intro j hj
    rw [← T.refs_of_node hm] at hj ⊢
    have := part.blockIdx_lt (h.own.inArea _ hj)
    omega
  lt x i hx := h.lt x i (T.setNode_none_old hx).2
  root := by
    rw [T.setNode_of_ne (Ne.symm h0)]
    exact h.root
  type x i hx := h.type x i (T.setNode_none_old hx).2
  parent x i hx := by
    obtain ⟨hxm, hx⟩ := T.setNode_none_old hx
    have hp := h.parent x i hx
    refine ⟨?_, hp.2⟩
    rw [T.setNode_of_ne]
    . exact hp.1
    . exact hleaf x i hx hxm
  rooted x i hx := h.rooted x i (T.setNode_none_old hx).2
  entries x i hx := by
    obtain ⟨hxm, hx⟩ := T.setNode_none_old hx
    refine ⟨(h.entries x i hx).1, fun hx0 _ => (h.entries x i hx).2 hx0 ?_⟩
    intro heq
    rw [Option.some.injEq] at heq
    exact hxm heq.symm
  own := h.own_released hm hrel
  noLeak hs := h.noLeak_released hm hrel hs
  file x i hx hty :=
    (h.file x i (T.setNode_none_old hx).2 hty).mono fun j => hrel.refs
  dir x i hx hty := by
    obtain ⟨hxm, hx⟩ := T.setNode_none_old hx
    exact (h.dir x i hx hty).released hent hrel hx hxm
  linked hs x q hx hx0 _ hq := by
    obtain ⟨i, hi⟩ := Option.isSome_iff_exists.mp hx
    obtain ⟨hxm, hi⟩ := T.setNode_none_old hi
    have hpend : some m ≠ some x := by
      intro heq
      rw [Option.some.injEq] at heq
      exact hxm heq.symm
    apply (h.linked hs x q (by rw [hi]; rfl) hx0 hpend (T.setNode_none_old hq).2).mono
    intro j _ k _ _ e he _
    unfold Image.dirent Image.ref Image.block
    rw [hrel.sec]
    exact he

theorem TreeInv.leaf (h : TreeInv part strict pend a T) (hm : T.node m = some ino)
    (hempty : T.type m = .regular ∨ ino.iSize.toNat = 48) (hpend : pend = none ∨ pend = some m)
    {x : Nat} {i : Inode} (hx : T.node x = some i) (hx0 : x ≠ 0)
    (hxm : x ≠ m) : T.parent x ≠ m := by
  intro hpar
  have hdir := (h.parent x i hx).2
  rw [hpar] at hdir
  cases hempty with
  | inl hreg =>
    rw [hreg] at hdir
    contradiction
  | inr h48 =>
    have hsize := (h.dir m ino hm hdir).size
    have hlt := (h.lt x i hx).1
    have hshare : T.share m x = T.entries x := by
      unfold Tree.share
      rw [if_pos ⟨by rw [hx]; rfl, hx0, hpar⟩]
    have hle := Tree.share_le_size (T := T) (d := m) hlt
    have hpos : 0 < T.entries x := by
      apply (h.entries x i hx).2 hx0
      cases hpend with
      | inl hn => rw [hn]; simp
      | inr hn =>
        rw [hn]
        intro heq
        rw [Option.some.injEq] at heq
        exact hxm heq.symm
    omega

end Release

end RogOS
