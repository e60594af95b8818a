import RogOS.Fs.Invariant.Volume
import RogOS.Fs.Invariant.Count

/-!
The inodes in memory mirror those of the tree that the volume holds. What the system calls find by a
path is in the tree.
-/

namespace RogOS

variable {part : Partition} {strict : Bool} {s s' t : Fs} {T : Tree} {node : Nat → Option Inode}
  {addr : Nat} {n : UInt32}
  {ino p p' x : Inode}

structure Fs.Matches (s : Fs) (node : Nat → Option Inode) : Prop where
  inode : ∀ addr ino, s.inode? addr = some ino → node ino.iNo.toNat = some ino.pure
  unique : ∀ addr addr' ino ino', s.inode? addr = some ino → s.inode? addr' = some ino'
    → ino.iNo = ino'.iNo →
    addr = addr'
  root : ∀ ino, s.inode? s.rootDir = some ino → ino.iNo = 0

structure Fs.Mirrors (s : Fs) (node : Nat → Option Inode) (type : Nat → FileType)
    : Prop extends s.Matches node where
  files : ∀ i addr ino, (s.fileTable i).fdInode = some addr → s.inode? addr = some ino →
    type ino.iNo.toNat = .regular
  count : ∀ addr ino, s.inode? addr = some ino → type ino.iNo.toNat = .regular
    → ino.iOpenCnts = s.slotCount addr

theorem Inode.iNo_eq_of_pure {i j : Inode} (h : i.pure = j.pure) : i.iNo = j.iNo := by
  have hno := congrArg Inode.iNo h
  exact hno

structure Fs.Fades (type : Nat → FileType) (s s' : Fs) : Prop where
  inode : ∀ addr ino', s'.inode? addr = some ino' → ∃ ino, s.inode? addr = some ino
    ∧ ino'.pure = ino.pure
    ∧ (type ino.iNo.toNat = .regular → ino'.iOpenCnts = ino.iOpenCnts)
  root : s'.rootDir = s.rootDir
  files : s'.fileTable = s.fileTable
  vol : s'.vol = s.vol

namespace Fs.Fades

variable {type : Nat → FileType}

theorem refl : s.Fades type s := ⟨fun _ ino h => ⟨ino, h, rfl, fun _ => rfl⟩, rfl, rfl, rfl⟩

theorem updInode {f : Inode → Inode} (hf : ∀ i, s.inode? addr = some i → (f i).pure = i.pure
    ∧ (type i.iNo.toNat = .regular → (f i).iOpenCnts = i.iOpenCnts)) :
        s.Fades type (s.updInode addr f) where
  inode a ino' h := by
    rw [inode?_updInode] at h
    split at h
    . next ha =>
      rw [Option.map_eq_some_iff] at h
      obtain ⟨i, hi, heq⟩ := h
      have hfi := hf i (by rw [← ha]; exact hi)
      rw [← heq]
      exact ⟨i, hi, hfi.1, hfi.2⟩
    . exact ⟨ino', h, rfl, fun _ => rfl⟩
  root := rfl
  files := rfl
  vol := rfl

theorem closed (hdir : ∀ i, s.inode? addr = some i → type i.iNo.toNat ≠ .regular)
    : s.Fades type (s.closed addr ino) := by
  unfold Fs.closed
  split
  . constructor
    . intro a ino' h
      rw [inode?_dropInode] at h
      split at h
      . contradiction
      . exact ⟨ino', h, rfl, fun _ => rfl⟩
    . rfl
    . rfl
    . rfl
  . exact updInode fun i hi => ⟨rfl, fun hreg => absurd hreg (hdir i hi)⟩

end Fs.Fades

namespace Fs.Matches

variable {extra : Nat → Nat}

theorem of_pure (h : s.Matches node) (hroot : s'.rootDir = s.rootDir)
    (hinode : ∀ addr ino', s'.inode? addr = some ino' → ∃ ino, s.inode? addr = some ino
      ∧ ino'.pure = ino.pure)
    : s'.Matches node where
  inode a ino' hi := by
    obtain ⟨i, h1, h2⟩ := hinode a ino' hi
    rw [Inode.iNo_eq_of_pure h2, h2]
    exact h.inode a i h1
  unique a b i j hi hj heq := by
    obtain ⟨i', h1, h2⟩ := hinode a i hi
    obtain ⟨j', h3, h4⟩ := hinode b j hj
    rw [Inode.iNo_eq_of_pure h2, Inode.iNo_eq_of_pure h4] at heq
    exact h.unique a b i' j' h1 h3 heq
  root i hi := by
    obtain ⟨i', h1, h2⟩ := hinode _ i hi
    rw [hroot] at h1
    rw [Inode.iNo_eq_of_pure h2]
    exact h.root i' h1

theorem newAddr_ne (hc : s.Counted extra)
    : s.rootDir ≠ s.newAddr ∧ ∀ g, (s.fileTable g).fdInode ≠ some s.newAddr := by
  constructor
  . intro heq
    obtain ⟨r, hr⟩ := hc.searchable.root
    rw [heq, inode?_newAddr] at hr
    contradiction
  . intro g hg
    obtain ⟨r, hr⟩ := hc.inode_of_slot hg
    rw [inode?_newAddr] at hr
    contradiction

theorem pushInode (h : s.Matches node) (hc : s.Counted extra)
    (hnode : node ino.iNo.toNat = some ino.pure)
    (hnew : ∀ a i, s.inode? a = some i → i.iNo ≠ ino.iNo)
    : (s.pushInode s.newAddr ino).Matches node where
  inode a i hi := by
    rw [inode?_pushInode] at hi
    split at hi
    . rw [Option.some.injEq] at hi
      rw [← hi]
      exact hnode
    . exact h.inode a i hi
  unique a b i j hi hj heq := by
    rw [inode?_pushInode] at hi hj
    split at hi
    . next ha =>
      rw [Option.some.injEq] at hi
      split at hj
      . next hb => rw [ha, hb]
      . rw [← hi] at heq
        exact absurd heq.symm (hnew b j hj)
    . split at hj
      . rw [Option.some.injEq] at hj
        rw [← hj] at heq
        exact absurd heq (hnew a i hi)
      . exact h.unique a b i j hi hj heq
  root i hi := by
    have hsame : (s.pushInode s.newAddr ino).rootDir = s.rootDir := rfl
    rw [hsame, inode?_pushInode, if_neg (newAddr_ne hc).1] at hi
    exact h.root i hi

end Fs.Matches

namespace Fs.Mirrors

variable {type type' : Nat → FileType} {node' : Nat → Option Inode} {m : Nat} {extra : Nat → Nat}

theorem slotCount_eq (hf : s'.fileTable = s.fileTable) {a : Nat}
    : s'.slotCount a = s.slotCount a := by
  unfold Fs.slotCount
  rw [hf]

theorem fades (h : s.Mirrors node type) (hf : s.Fades type s') : s'.Mirrors node type where
  toMatches := by
    apply h.toMatches.of_pure hf.root
    intro a ino' hi
    obtain ⟨i, h1, h2, -⟩ := hf.inode a ino' hi
    exact ⟨i, h1, h2⟩
  files g a i hg hi := by
    obtain ⟨i', h1, h2, -⟩ := hf.inode a i hi
    rw [hf.files] at hg
    rw [Inode.iNo_eq_of_pure h2]
    exact h.files g a i' hg h1
  count a i hi hty := by
    obtain ⟨i', h1, h2, h3⟩ := hf.inode a i hi
    rw [Inode.iNo_eq_of_pure h2] at hty
    rw [h3 hty, slotCount_eq hf.files]
    exact h.count a i' h1 hty

theorem setVol {v : Vol} (h : s.Mirrors node type) : Fs.Mirrors { s with vol := v } node type :=
  ⟨⟨h.inode, h.unique, h.root⟩, h.files, h.count⟩

theorem setTasks {tasks : Nat → Task} (h : s.Mirrors node type)
    : Fs.Mirrors { s with tasks := tasks } node type :=
  ⟨⟨h.inode, h.unique, h.root⟩, h.files, h.count⟩

theorem setDirs {dirs : List (Nat × Dir)} (h : s.Mirrors node type)
    : Fs.Mirrors { s with dirs := dirs } node type :=
  ⟨⟨h.inode, h.unique, h.root⟩, h.files, h.count⟩

theorem setFile {g : Fin 32} {f : File} (h : s.Mirrors node type)
    (hf : f.fdInode = (s.fileTable g).fdInode)
    : (s.setFile g f).Mirrors node type where
  toMatches := ⟨h.inode, h.unique, h.root⟩
  files g' a i hg hi := by
    simp only [Fs.setFile, Function.update_apply] at hg
    split at hg
    . rw [hf] at hg
      exact h.files g a i hg hi
    . exact h.files g' a i hg hi
  count a i hi hty := by
    have hslot := @slotCount_setFile s g f a
    rw [hf] at hslot
    rw [h.count a i hi hty]
    omega

theorem find?_eq (h : s.Mirrors node type) (hs : s.AddrNodup) (hi : s.inode? addr = some ino)
    : s.find? ino.iNo = some (addr, ino) := by
  cases hf : s.find? ino.iNo with
  | none => exact absurd rfl (Fs.ne_of_find?_eq_none hf hi)
  | some q =>
    obtain ⟨b, j⟩ := q
    obtain ⟨hj, hno⟩ := hs.find?_eq_some hf
    have hab := h.unique addr b ino j hi hj hno.symm
    subst hab
    rw [hi, Option.some.injEq] at hj
    rw [hj]

theorem view_pure (h : s.Mirrors node type) (hs : s.AddrNodup) (hn : node n.toNat = some x)
    (hslot : (s.vol.image part).slot n.toNat = x) (hx : x.pure = x) : (s.view part n).pure = x := by
  unfold Fs.view
  cases hf : s.find? n with
  | some q =>
    obtain ⟨hq, hno⟩ := hs.find?_eq_some hf
    have hmir := h.inode q.1 q.2 hq
    rw [hno, hn, Option.some.injEq] at hmir
    exact hmir.symm
  | none =>
    dsimp only
    rw [hslot, hx]

theorem slotCount_newAddr (hc : s.Counted extra) : s.slotCount s.newAddr = 0 := by
  apply Finset.card_eq_zero.mpr
  rw [Finset.filter_eq_empty_iff]
  intro g _
  exact (Matches.newAddr_ne hc).2 g

theorem pushInode (h : s.Mirrors node type) (hc : s.Counted extra)
    (hnode : node ino.iNo.toNat = some ino.pure)
    (hnew : ∀ a i, s.inode? a = some i → i.iNo ≠ ino.iNo) (hdir : type ino.iNo.toNat ≠ .regular)
    : (s.pushInode s.newAddr ino).Mirrors node type where
  toMatches := h.toMatches.pushInode hc hnode hnew
  files g a i hg hi := by
    have hg' : (s.fileTable g).fdInode = some a := hg
    have hne : a ≠ s.newAddr := by
      rintro rfl
      exact (Matches.newAddr_ne hc).2 g hg'
    rw [inode?_pushInode, if_neg hne] at hi
    exact h.files g a i hg' hi
  count a i hi hty := by
    rw [inode?_pushInode] at hi
    split at hi
    . rw [Option.some.injEq] at hi
      rw [← hi] at hty
      exact absurd hty hdir
    . exact h.count a i hi hty

theorem pushFile {g : Fin 32} {f : File} (h : s.Mirrors node type) (hc : s.Counted extra)
    (hnode : node ino.iNo.toNat = some ino.pure)
    (hnew : ∀ a i, s.inode? a = some i → i.iNo ≠ ino.iNo)
    (hone : ino.iOpenCnts = 1) (hreg : type ino.iNo.toNat = .regular)
    (hfree : (s.fileTable g).fdInode = none) (hf : f.fdInode = some s.newAddr)
    : ((s.pushInode s.newAddr ino).setFile g f).Mirrors node type where
  toMatches := by
    have hm := h.toMatches.pushInode hc hnode hnew
    exact ⟨hm.inode, hm.unique, hm.root⟩
  files g' a i hg hi := by
    have hi' : (s.pushInode s.newAddr ino).inode? a = some i := hi
    rw [inode?_pushInode] at hi'
    split at hi'
    . rw [Option.some.injEq] at hi'
      rw [← hi']
      exact hreg
    . next hne =>
      simp only [Fs.setFile, Function.update_apply] at hg
      split at hg
      . rw [hf, Option.some.injEq] at hg
        exact absurd hg.symm hne
      . exact h.files g' a i hg hi'
  count a i hi hty := by
    have hi' : (s.pushInode s.newAddr ino).inode? a = some i := hi
    have hslot := @slotCount_setFile (s.pushInode s.newAddr ino) g f a
    have hcnt : (s.pushInode s.newAddr ino).slotCount a = s.slotCount a := slotCount_eq rfl
    have hnone : ((s.pushInode s.newAddr ino).fileTable g).fdInode = none := hfree
    rw [hnone, hf, hcnt] at hslot
    rw [inode?_pushInode] at hi'
    split at hi'
    . next ha =>
      rw [Option.some.injEq] at hi'
      rw [ha, slotCount_newAddr hc] at hslot
      simp only [reduceCtorEq, ↓reduceIte] at hslot
      rw [← hi', hone, ha]
      omega
    . next hne =>
      have hne' : ¬ s.newAddr = a := Ne.symm hne
      simp only [reduceCtorEq, ↓reduceIte, Option.some.injEq, hne'] at hslot
      rw [h.count a i hi' hty]
      omega

theorem bumpFile {g : Fin 32} {f : File} (h : s.Mirrors node type) (hi : s.inode? addr = some ino)
    (hreg : type ino.iNo.toNat = .regular) (hfree : (s.fileTable g).fdInode = none)
    (hf : f.fdInode = some addr)
    : ((s.updInode addr fun i => { i with iOpenCnts := i.iOpenCnts + 1 }).setFile g f).Mirrors node
        type := by
  have hold : ∀ a i', (s.updInode addr fun i => { i with iOpenCnts := i.iOpenCnts + 1 }).inode? a
      = some i' →
      ∃ i, s.inode? a = some i ∧ i'.pure = i.pure ∧ i'.iOpenCnts = i.iOpenCnts + if a = addr then 1
        else 0 := by
    intro a i' ha
    rw [inode?_updInode] at ha
    split at ha
    . next heq =>
      rw [Option.map_eq_some_iff] at ha
      obtain ⟨i, h1, h2⟩ := ha
      exact ⟨i, h1, by rw [← h2]; rfl, by rw [← h2, if_pos heq]⟩
    . next hne => exact ⟨i', ha, rfl, by rw [if_neg hne]; rfl⟩
  constructor
  . apply h.toMatches.of_pure
    . rfl
    . intro a i' ha
      obtain ⟨i, h1, h2, -⟩ := hold a i' ha
      exact ⟨i, h1, h2⟩
  . intro g' a i' hg ha
    obtain ⟨i, h1, h2, -⟩ := hold a i' ha
    rw [Inode.iNo_eq_of_pure h2]
    simp only [Fs.setFile, Function.update_apply] at hg
    split at hg
    . rw [hf, Option.some.injEq] at hg
      rw [← hg, hi, Option.some.injEq] at h1
      rw [← h1]
      exact hreg
    . exact h.files g' a i hg h1
  . intro a i' ha hty
    obtain ⟨i, h1, h2, h3⟩ := hold a i' ha
    rw [Inode.iNo_eq_of_pure h2] at hty
    have hcount := h.count a i h1 hty
    have hslot :=
      @slotCount_setFile (s.updInode addr fun i => { i with iOpenCnts := i.iOpenCnts + 1 }) g f a
    have hcnt : (s.updInode addr fun i => { i with iOpenCnts := i.iOpenCnts + 1 }).slotCount a
        = s.slotCount a :=
      slotCount_eq rfl
    have hnone :
        ((s.updInode addr fun i => { i with iOpenCnts := i.iOpenCnts + 1 }).fileTable g).fdInode
        = none := hfree
    rw [hnone, hf, hcnt] at hslot
    rw [h3]
    by_cases heq : a = addr
    . simp only [reduceCtorEq, ↓reduceIte, heq] at hslot ⊢
      rw [heq] at hcount
      omega
    . have hne : ¬ addr = a := Ne.symm heq
      simp only [reduceCtorEq, ↓reduceIte, Option.some.injEq, hne, heq] at hslot ⊢
      omega

theorem fileClosed {g : Fin 32} (h : s.Mirrors node type) (hi : s.inode? addr = some ino)
    (hg : (s.fileTable g).fdInode = some addr) : (s.fileClosed g addr ino).Mirrors node type := by
  have hreg := h.files g addr ino hg hi
  have hcount := h.count addr ino hi hreg
  have hfiles : (s.fileClosed g addr ino).fileTable
      = Function.update s.fileTable g { s.fileTable g with fdInode := none } := by
    unfold Fs.fileClosed Fs.setFile
    dsimp only
    rw [Fs.closed_fileTable]
    rfl
  have hold : ∀ a i', (s.fileClosed g addr ino).inode? a = some i' →
      ∃ i, s.inode? a = some i ∧ i'.pure = i.pure ∧ i'.iOpenCnts = i.iOpenCnts - if a = addr then 1
        else 0 := by
    intro a i' ha
    have ha' : ((s.updInode addr fun i => { i with writeDeny := false }).closed addr
        { ino with writeDeny := false }).inode? a = some i' := ha
    unfold Fs.closed at ha'
    split at ha'
    . rw [inode?_dropInode] at ha'
      split at ha'
      . contradiction
      . next hne =>
        rw [inode?_updInode, if_neg hne] at ha'
        exact ⟨i', ha', rfl, by rw [if_neg hne]; rfl⟩
    . rw [inode?_updInode] at ha'
      split at ha'
      . next heq =>
        rw [heq, inode?_updInode, if_pos rfl, hi, Option.map_some, Option.map_some,
          Option.some.injEq] at ha'
        rw [heq]
        exact ⟨ino, hi, by rw [← ha']; rfl, by rw [← ha', if_pos rfl]⟩
      . next hne =>
        rw [inode?_updInode, if_neg hne] at ha'
        exact ⟨i', ha', rfl, by rw [if_neg hne]; rfl⟩
  have hslot : ∀ a, (s.fileClosed g addr ino).slotCount a + (if some addr = some a then 1 else 0)
      = s.slotCount a := by
    intro a
    have hset := @slotCount_setFile s g { s.fileTable g with fdInode := none } a
    have hsame : (s.fileClosed g addr ino).slotCount a
        = (s.setFile g { s.fileTable g with fdInode := none }).slotCount a := slotCount_eq hfiles
    rw [hg] at hset
    simp only [reduceCtorEq, ↓reduceIte] at hset
    rw [hsame]
    exact hset
  constructor
  . apply h.toMatches.of_pure
    . unfold Fs.fileClosed Fs.closed
      split <;> rfl
    . intro a i' ha
      obtain ⟨i, h1, h2, -⟩ := hold a i' ha
      exact ⟨i, h1, h2⟩
  . intro g' a i' hg' ha
    obtain ⟨i, h1, h2, -⟩ := hold a i' ha
    rw [Inode.iNo_eq_of_pure h2]
    rw [hfiles, Function.update_apply] at hg'
    split at hg'
    . contradiction
    . exact h.files g' a i hg' h1
  . intro a i' ha hty
    obtain ⟨i, h1, h2, h3⟩ := hold a i' ha
    rw [Inode.iNo_eq_of_pure h2] at hty
    have hcount' := h.count a i h1 hty
    have hslot' := hslot a
    rw [h3]
    by_cases heq : a = addr
    . simp only [↓reduceIte, heq] at hslot' ⊢
      rw [heq] at hcount'
      omega
    . have hne : ¬ addr = a := Ne.symm heq
      simp only [↓reduceIte, Option.some.injEq, hne, heq] at hslot' ⊢
      omega

theorem opened (h : s.Mirrors node type) (hc : s.Counted extra) (hn : node n.toNat = some x)
    (hslot : (s.vol.image part).slot n.toNat = x) (hx : x.pure = x) (hno : x.iNo = n)
    (hdir : type n.toNat ≠ .regular)
    : (s.opened part n).2.Mirrors node type := by
  unfold Fs.opened
  cases hf : s.find? n with
  | some q =>
    obtain ⟨hq, hqn⟩ := hc.addrs.find?_eq_some hf
    apply h.fades
    apply Fades.updInode
    intro i hi
    rw [hq, Option.some.injEq] at hi
    refine ⟨rfl, ?_⟩
    rw [← hi, hqn]
    exact fun hreg => absurd hreg hdir
  | none =>
    dsimp only
    rw [hslot]
    apply h.pushInode hc
    . show node x.iNo.toNat = some x.pure
      rw [hno, hx]
      exact hn
    . intro a i hi
      show i.iNo ≠ x.iNo
      rw [hno]
      exact Fs.ne_of_find?_eq_none hf hi
    . show type x.iNo.toNat ≠ .regular
      rw [hno]
      exact hdir

theorem updInode (h : s.Mirrors node type) (hi : s.inode? addr = some p) (hno : p'.iNo = p.iNo)
    (hcnt : p'.iOpenCnts = p.iOpenCnts) (hself : node' p.iNo.toNat = some p'.pure)
    (hother : ∀ k, k ≠ p.iNo.toNat → node' k = node k)
    : (s.updInode addr fun _ => p').Mirrors node' type := by
  have hold : ∀ c k, (s.updInode addr fun _ => p').inode? c = some k →
      c = addr ∧ k = p' ∨ c ≠ addr ∧ s.inode? c = some k := by
    intro c k hc
    rw [inode?_updInode] at hc
    split at hc
    . next heq =>
      rw [heq, hi, Option.map_some, Option.some.injEq] at hc
      exact .inl ⟨heq, hc.symm⟩
    . next hne => exact .inr ⟨hne, hc⟩
  have hnum : ∀ c k, (s.updInode addr fun _ => p').inode? c = some k →
      ∃ k', s.inode? c = some k' ∧ k.iNo = k'.iNo ∧ k.iOpenCnts = k'.iOpenCnts := by
    intro c k hc
    obtain ⟨rfl, rfl⟩ | ⟨-, hc⟩ := hold c k hc
    . exact ⟨p, hi, hno, hcnt⟩
    . exact ⟨k, hc, rfl, rfl⟩
  refine ⟨⟨?_, ?_, ?_⟩, ?_, ?_⟩
  . intro a i ha
    obtain ⟨rfl, rfl⟩ | ⟨hne, ha⟩ := hold a i ha
    . rw [hno]
      exact hself
    . rw [hother]
      . exact h.inode a i ha
      . intro heq
        exact hne (h.unique a addr i p ha hi (UInt32.toNat_inj.mp heq))
  . intro a b i j ha hb heq
    obtain ⟨i', hi', hii, -⟩ := hnum a i ha
    obtain ⟨j', hj', hjj, -⟩ := hnum b j hb
    rw [hii, hjj] at heq
    exact h.unique a b i' j' hi' hj' heq
  . intro i hr
    obtain ⟨i', hi', hii, -⟩ := hnum _ i hr
    rw [hii]
    exact h.root i' hi'
  . intro g a i hg ha
    obtain ⟨i', hi', hii, -⟩ := hnum a i ha
    rw [hii]
    exact h.files g a i' hg hi'
  . intro a i ha hty
    obtain ⟨i', hi', hii, hcc⟩ := hnum a i ha
    rw [hii] at hty
    rw [hcc]
    exact h.count a i' hi' hty

theorem update (h : s.Mirrors node type) (hnew : ∀ a i, s.inode? a = some i → i.iNo.toNat ≠ m)
    (hnode : ∀ k, k ≠ m → node' k = node k) (htype : ∀ k, k ≠ m → type' k = type k)
    : s.Mirrors node' type' where
  inode a i hi := by
    rw [hnode _ (hnew a i hi)]
    exact h.inode a i hi
  unique := h.unique
  root := h.root
  files g a i hg hi := by
    rw [htype _ (hnew a i hi)]
    exact h.files g a i hg hi
  count a i hi hty := by
    rw [htype _ (hnew a i hi)] at hty
    exact h.count a i hi hty

theorem not_open (h : s.Mirrors node type) (hm : node m = none)
    : ∀ a i, s.inode? a = some i → i.iNo.toNat ≠ m := by
  rintro a i hi rfl
  rw [h.inode a i hi] at hm
  contradiction

end Fs.Mirrors

structure Fs.Holds (part : Partition) (strict : Bool) (s : Fs) (T : Tree) : Prop where
  tree : TreeInv part strict none (s.vol.image part) T
  stored : (s.vol.image part).Stored T
  mirrors : s.Mirrors T.node T.type
  counted : ∃ extra, s.Counted extra

namespace Fs.Holds

theorem searchable (h : s.Holds part strict T) : s.Searchable := by
  obtain ⟨extra, hc⟩ := h.counted
  exact hc.searchable

theorem toNat_iNo (h : s.Holds part strict T) (hn : T.node n.toNat = some x) : x.iNo = n := by
  rw [(h.tree.lt _ x hn).2]
  exact UInt32.ofNat_toNat

theorem view_pure (h : s.Holds part strict T) (hn : T.node n.toNat = some x)
    : (s.view part n).pure = x := by
  obtain ⟨h1, h2⟩ := h.stored.slot _ x hn
  exact h.mirrors.view_pure h.searchable.addrs hn h1 h2

theorem owns_view (h : s.Holds part strict T) (hn : T.node n.toNat = some x)
    : (s.vol.image part).Owns part (s.view part n) := by
  have how := h.tree.owns hn
  rw [← h.view_pure hn] at how
  exact ⟨how.isBlock, how.used, how.inj⟩

theorem look_eq (h : s.Holds part strict T) (hn : T.node n.toNat = some x) {c : List UInt8}
    : s.look part n c = (s.vol.image part).lookup x c := by
  have hrun := @Fs.lookAt_eq part s c (some n) _ (searchDirEntry_run (h.owns_view hn).inBlocks)
  have hlook : (s.vol.image part).lookup (s.view part n) c = s.look part n c :=
    congrArg Prod.fst hrun
  rw [← hlook, ← h.view_pure hn]
  rfl

end Fs.Holds

section Finds

variable {a : Image} {d : Nat} {c : List UInt8} {e : DirEntry} {pend : Option Nat}

inductive Tree.Finds (T : Tree) (a : Image) (d : Nat) (x : Inode) (c : List UInt8) : DirEntry → Prop
  | dot (name : c = [46]) : Finds T a d x c (DirEntry.new [46] (UInt32.ofNat d) .directory)
  | dotdot (name : c = [46, 46])
      : Finds T a d x c (DirEntry.new [46, 46] (UInt32.ofNat (T.parent d)) .directory)
  | child {e : DirEntry} (proper : ProperName c)
      (slot : ∃ i < 140, ∃ k < 21, OtherSlot i k ∧ a.dirent x i k = some e)
      (entry : T.ChildEntry none d e)
    : Finds T a d x c e

theorem TreeInv.finds (h : TreeInv part strict none a T) (hd : T.node d = some x)
    (hty : T.type d = .directory) (hc : IsName c)
    (hl : a.lookup x c = some e) : T.Finds a d x c e := by
  have hok := h.dir d x hd hty
  obtain ⟨i, hi, k, hk, hent, hname⟩ := Image.lookup_eq_some (h.properEntries hok) hc.2 hl
  by_cases ho : OtherSlot i k
  . cases hok.child i hi k hk ho e hent with
    | inl hb =>
      rw [hb] at hname
      exact absurd hname (DirEntry.not_hasName_blank hc.2 hc.1)
    | inr hchild =>
      obtain ⟨name, hproper, heq⟩ := hchild.name
      rw [heq, DirEntry.new_hasName_iff hproper.short hproper.nulFree hc.2] at hname
      refine .child ?_ ⟨i, hi, k, hk, ho, hent⟩ hchild
      rw [hname]
      exact hproper
  . unfold OtherSlot at ho
    rw [not_not] at ho
    rw [ho.1] at hent
    have hk2 : k = 0 ∨ k = 1 := by omega
    cases hk2 with
    | inl hk0 =>
      rw [hk0, hok.dot, Option.some.injEq] at hent
      rw [← hent, DirEntry.new_hasName_iff (by decide) (by decide) hc.2] at hname
      rw [← hent]
      exact .dot hname
    | inr hk1 =>
      rw [hk1, hok.dotdot, Option.some.injEq] at hent
      rw [← hent, DirEntry.new_hasName_iff (by decide) (by decide) hc.2] at hname
      rw [← hent]
      exact .dotdot hname

theorem TreeInv.lookup_dots (h : TreeInv part strict none a T) (hd : T.node d = some x)
    (hty : T.type d = .directory) (hc : c = [46] ∨ c = [46, 46]) : a.lookup x c ≠ none := by
  have hok := h.dir d x hd hty
  have hnul : 0 ∉ c := by
    cases hc with
    | inl h => rw [h]; decide
    | inr h => rw [h]; decide
  intro hnone
  rw [Image.lookup_eq_none (h.properEntries hok) hnul] at hnone
  cases hc with
  | inl hdot =>
    apply hnone 0 (by omega) 0 (by omega)
    refine ⟨_, hok.dot, ?_⟩
    rw [hdot, DirEntry.new_hasName_iff (by decide) (by decide) (by decide)]
  | inr hdot =>
    apply hnone 0 (by omega) 1 (by omega)
    refine ⟨_, hok.dotdot, ?_⟩
    rw [hdot, DirEntry.new_hasName_iff (by decide) (by decide) (by decide)]

theorem TreeInv.finds_node (h : TreeInv part strict none a T) (hd : T.node d = some x)
    (hty : T.type d = .directory) (hf : T.Finds a d x c e)
    : (T.node e.iNo.toNat).isSome ∧ e.fType = (T.type e.iNo.toNat).code := by
  have hnat : ∀ m y, T.node m = some y → (UInt32.ofNat m).toNat = m := by
    intro m y hm
    have := (h.lt m y hm).1
    exact UInt32.toNat_ofNat_of_lt' (by rw [UInt32.size]; omega)
  cases hf with
  | dot name =>
    rw [DirEntry.new_iNo, DirEntry.new_fType, hnat d x hd, hd, hty]
    exact ⟨rfl, rfl⟩
  | dotdot name =>
    obtain ⟨hpar, hpty⟩ := h.parent d x hd
    obtain ⟨y, hy⟩ := Option.isSome_iff_exists.mp hpar
    rw [DirEntry.new_iNo, DirEntry.new_fType, hnat _ y hy, hpty]
    exact ⟨hpar, rfl⟩
  | child proper slot entry =>
    refine ⟨entry.node, ?_⟩
    obtain ⟨name, -, heq⟩ := entry.name
    have := congrArg DirEntry.fType heq
    rw [DirEntry.new_fType] at this
    exact this

end Finds

def Tree.IsDir (T : Tree) (n : UInt32)
    : Prop := (T.node n.toNat).isSome ∧ T.type n.toNat = .directory

theorem Fs.Holds.dirTree (h : s.Holds part strict T) : s.DirTree part T.IsDir := by
  have hnode : ∀ d, T.IsDir d → ∃ x, T.node d.toNat = some x ∧ T.type d.toNat = .directory := by
    intro d hd
    obtain ⟨x, hx⟩ := Option.isSome_iff_exists.mp hd.1
    exact ⟨x, hx, hd.2⟩
  have hroot : T.IsDir 0 := ⟨h.tree.root.1, h.tree.root.2.1⟩
  have h0 : (0 : UInt32).toNat = 0 := rfl
  constructor
  . exact hroot
  . obtain ⟨i, hi⟩ := h.searchable.root
    have hno := h.mirrors.root i hi
    have hfind := h.mirrors.find?_eq h.searchable.addrs hi
    rw [hno] at hfind
    rw [Fs.dirView, Fs.view, hi, hfind]
    rfl
  . intro c hc
    obtain ⟨x, hx, hty⟩ := hnode 0 hroot
    have hsome := h.tree.lookup_dots hx hty hc
    obtain ⟨e, he⟩ := Option.ne_none_iff_exists'.mp hsome
    refine ⟨e, by rw [h.look_eq hx]; exact he, ?_⟩
    have hname : IsName c := by
      cases hc with
      | inl hd => rw [hd]; exact ⟨by decide, by decide⟩
      | inr hd => rw [hd]; exact ⟨by decide, by decide⟩
    cases h.tree.finds hx hty hname he with
    | dot name => rfl
    | dotdot name =>
      rw [DirEntry.new_iNo, h0, h.tree.root.2.2]
      rfl
    | child proper slot entry =>
      cases hc with
      | inl hd => exact absurd hd proper.notDot
      | inr hd => exact absurd hd proper.notDotDot
  . intro d hd
    obtain ⟨x, hx, -⟩ := hnode d hd
    have hno := Inode.iNo_eq_of_pure (i := s.view part d) (j :=
        x) (by rw [h.view_pure hx, (h.stored.slot _ x hx).2])
    rw [hno]
    exact h.toNat_iNo hx
  . intro d hd
    obtain ⟨x, hx, -⟩ := hnode d hd
    have := (h.tree.lt _ x hx).1
    omega
  . intro d hd
    obtain ⟨x, hx, -⟩ := hnode d hd
    exact (h.owns_view hx).inBlocks
  . intro d c e hd hc he
    obtain ⟨x, hx, hty⟩ := hnode d hd
    rw [h.look_eq hx] at he
    obtain ⟨hsome, htype⟩ := h.tree.finds_node hx hty (h.tree.finds hx hty hc he)
    obtain ⟨y, hy⟩ := Option.isSome_iff_exists.mp hsome
    have hlt := (h.tree.lt _ y hy).1
    refine ⟨by omega, ?_⟩
    cases h.tree.type _ y hy with
    | inl hreg => exact .inl (by rw [htype, hreg])
    | inr hdir => exact .inr ⟨by rw [htype, hdir], hsome, hdir⟩

section AtDir

variable {dir : Option UInt32}

theorem Fs.Holds.openDir (h : s.Holds part strict T) (hD : T.IsDir n)
    : (s.opened part n).2.Holds part strict T := by
  obtain ⟨x, hx⟩ := Option.isSome_iff_exists.mp hD.1
  obtain ⟨extra, hc⟩ := h.counted
  obtain ⟨h1, h2⟩ := h.stored.slot _ x hx
  have hvol : (s.opened part n).2.vol = s.vol := Fs.opened_vol
  refine ⟨?_, ?_, ?_, _, hc.opened⟩
  . rw [hvol]
    exact h.tree
  . rw [hvol]
    exact h.stored
  . apply h.mirrors.opened hc hx h1 h2 (h.toNat_iNo hx)
    rw [hD.2]
    decide

theorem Fs.Holds.atDir (h : s.Holds part strict T) (hD : T.IsDir (dir.getD 0))
    : (s.atDir part dir).2.Holds part strict T := by
  cases dir with
  | none => exact h
  | some d => exact h.openDir hD

theorem Fs.Holds.parent (h : s.Holds part strict T) (hD : T.IsDir (dir.getD 0))
    (hp : (s.atDir part dir).2.inode? (s.dirAddr part dir) = some p)
    : p.iNo = dir.getD 0 ∧ T.node (dir.getD 0).toNat = some p.pure := by
  have hno : p.iNo = dir.getD 0 := by
    cases dir with
    | none => exact h.mirrors.root p hp
    | some d =>
      obtain ⟨k, hk⟩ := @Fs.AddrNodup.opened_inode? part s d h.searchable.addrs
      have heq := hp.symm.trans hk
      rw [Option.some.injEq] at heq
      rw [heq]
      exact h.dirTree.iNo d hD
  refine ⟨hno, ?_⟩
  rw [← hno]
  exact (h.atDir hD).mirrors.inode _ p hp

inductive Tree.Located (T : Tree) (a : Image) (names : List (List UInt8)) : Found → Prop
  | missing {dir : Option UInt32} {pre post : List (List UInt8)} {c : List UInt8}
      (split : names = pre ++ c :: post)
      (isDir : T.IsDir (dir.getD 0)) (proper : c.length < 16 → ProperName c)
    : Located T a names ⟨notFound, dir, pre ++ [c], .unknown⟩
  | regular {dir : Option UInt32} {pre post : List (List UInt8)} {c : List UInt8} {x : Inode}
      {e : DirEntry}
      (split : names = pre ++ c :: post) (isDir : T.IsDir (dir.getD 0))
      (node : T.node (dir.getD 0).toNat = some x)
      (finds : T.Finds a (dir.getD 0).toNat x c e) (type : T.type e.iNo.toNat = .regular)
    : Located T a names ⟨e.iNo, dir, pre ++ [c], .regular⟩
  | directory {d : UInt32} {pre : List (List UInt8)} {c : List UInt8} {x : Inode} {e : DirEntry}
      (split : names = pre ++ [c]) (isDir : T.IsDir d) (node : T.node d.toNat = some x)
      (finds : T.Finds a d.toNat x c e) (type : T.type e.iNo.toNat = .directory)
    : Located T a names ⟨e.iNo, some d, pre ++ [c], .directory⟩

theorem FileType.code_inj {t u : FileType} (h : t.code = u.code) : t = u := by
  cases t <;> cases u <;> first | rfl | exact absurd h (by decide)

theorem Fs.Holds.search {path : CStr} {junk : UInt32} (h : s.Holds part strict T)
    (hroot : ¬ IsRootPath path.chars) (hne : components path.chars ≠ [])
    : T.Located (s.vol.image part) (components path.chars) (s.search part junk path.chars) := by
  have hnames : ∀ c ∈ components path.chars, IsName c := fun c hc =>
    isName_of_mem_components path.nulFree hc
  have hfind : ∀ {d c e}, T.IsDir d → IsName c → s.look part d c = some e → ∃ x,
      T.node d.toNat = some x
      ∧ T.Finds (s.vol.image part) d.toNat x c e ∧ e.fType = (T.type e.iNo.toNat).code := by
    intro d c e hd hc he
    obtain ⟨x, hx⟩ := Option.isSome_iff_exists.mp hd.1
    rw [h.look_eq hx] at he
    have hf := h.tree.finds hx hd.2 hc he
    exact ⟨x, hx, hf, (h.tree.finds_node hx hd.2 hf).2⟩
  have hres : s.Resolved part _ (components path.chars) (s.search part junk path.chars) :=
    h.dirTree.search hroot hne path.nulFree
  generalize s.search part junk path.chars = f at hres
  cases hres with
  | missing split walks isDir look =>
    rename_i pre post c dir
    refine .missing split isDir ?_
    have hc := hnames c (by rw [split]; simp)
    obtain ⟨x, hx⟩ := Option.isSome_iff_exists.mp isDir.1
    rw [h.look_eq hx] at look
    intro hshort
    refine ⟨hshort, hc.2, ?_, ?_⟩
    . intro hdot
      exact h.tree.lookup_dots hx isDir.2 (.inl hdot) look
    . intro hdot
      exact h.tree.lookup_dots hx isDir.2 (.inr hdot) look
  | regular split walks isDir look type =>
    rename_i pre post c dir e
    obtain ⟨x, hx, hf, hty⟩ := hfind isDir (hnames c (by rw [split]; simp)) look
    exact .regular split isDir hx hf (FileType.code_inj (hty.symm.trans type))
  | directory split walks isDir look type =>
    rename_i pre c d e
    obtain ⟨x, hx, hf, hty⟩ := hfind isDir (hnames c (by rw [split]; simp)) look
    exact .directory split isDir hx hf (FileType.code_inj (hty.symm.trans type))

theorem Fs.search_of_no_name {path : List UInt8} {junk : UInt32} (hroot : ¬ IsRootPath path)
    (hne : components path = [])
    : s.search part junk path = ⟨junk, some 0, [], .directory⟩ := by
  unfold Fs.search
  rw [if_neg hroot, hne]
  rfl

end AtDir

end RogOS
