import RogOS.Fs.TreeSystem

/-!
What a check of the volume finds after any run of the system calls: the block bitmap and the inode
bitmap are those of the inodes that the entries lead to from the root directory, and the inodes in
memory are those on the disk.
-/

namespace RogOS

variable {part : Partition} {strict : Bool} {s s' : Fs} {T : Tree} {a : Image} {d n : Nat}
  {ty ty' : FileType} {x : Inode}

section Blocks

theorem TreeInv.used_iff (h : TreeInv part strict none a T) (hS : a.Stored T)
    : (n < 4096 ∧ a.inodeUsed n = true) ↔ (T.node n).isSome := by
  constructor
  . rintro ⟨hlt, hused⟩
    exact (hS.used n hlt).mp hused
  . intro hn
    obtain ⟨x, hx⟩ := Option.isSome_iff_exists.mp hn
    have hlt := (h.lt n x hx).1
    exact ⟨by omega, (hS.used n (by omega)).mpr hn⟩

end Blocks

section Names

/-- The inodes that entries lead to from the root directory, each with the type in its entry. -/
inductive Image.Reached (a : Image) : Nat → FileType → Prop
  | root : Reached a 0 .directory
  | entry {d i k : Nat} {e : DirEntry} {ty : FileType} (dir : Reached a d .directory)
      (block : i < 140) (slot : k < 21)
      (dirent : a.dirent (a.slot d) i k = some e) (known : ty ≠ .unknown) (type : e.fType = ty.code)
    : Reached a e.iNo.toNat ty

/--
Every entry names an inode in use, of the type that all entries for it have. The first entries of a
directory are those of the directory itself and of another one, to which `..` leads.
-/
structure Image.NamesSound (a : Image) : Prop where
  used : ∀ n ty, a.Reached n ty → n < 256 ∧ a.inodeUsed n = true ∧ (a.slot n).iNo = UInt32.ofNat n
  type : ∀ n ty ty', a.Reached n ty → a.Reached n ty' → ty = ty'
  known : ∀ d, a.Reached d .directory → ∀ i < 140, ∀ k < 21, ∀ e, a.dirent (a.slot d) i k = some e →
    e = DirEntry.blank ∨ e.fType = FileType.regular.code ∨ e.fType = FileType.directory.code
  dot : ∀ d, a.Reached d .directory →
    a.dirent (a.slot d) 0 0 = some (DirEntry.new [46] (UInt32.ofNat d) .directory)
  dotdot : ∀ d, a.Reached d .directory → ∃ p, a.Reached p .directory
    ∧ a.dirent (a.slot d) 0 1 = some (DirEntry.new [46, 46] (UInt32.ofNat p) .directory)

theorem blank_fType_ne (h : ty ≠ .unknown) : DirEntry.blank.fType ≠ ty.code := by
  cases ty with
  | unknown => contradiction
  | regular => decide
  | directory => decide

theorem TreeInv.toNat_ofNat (h : TreeInv part strict none a T) (hn : (T.node n).isSome)
    : (UInt32.ofNat n).toNat = n := by
  obtain ⟨x, hx⟩ := Option.isSome_iff_exists.mp hn
  have := (h.lt n x hx).1
  exact UInt32.toNat_ofNat_of_lt' (by rw [UInt32.size]; omega)

theorem Tree.ChildEntry.fType {pend : Option Nat} {e : DirEntry} (h : T.ChildEntry pend d e)
    : e.fType = (T.type e.iNo.toNat).code := by
  obtain ⟨name, -, heq⟩ := h.name
  have hty := congrArg DirEntry.fType heq
  rw [DirEntry.new_fType] at hty
  exact hty

theorem TreeInv.entry_node (h : TreeInv part strict none a T) (hx : T.node d = some x)
    (hdir : T.type d = .directory) {i k : Nat} (hi : i < 140) (hk : k < 21) {e : DirEntry}
    (he : a.dirent x i k = some e)
    : e = DirEntry.blank ∨ (T.node e.iNo.toNat).isSome ∧ e.fType = (T.type e.iNo.toNat).code := by
  have hok := h.dir d x hx hdir
  by_cases hother : OtherSlot i k
  . cases hok.child i hi k hk hother e he with
    | inl hblank => exact .inl hblank
    | inr hchild => exact .inr ⟨hchild.node, hchild.fType⟩
  . right
    obtain ⟨rfl, hk2⟩ : i = 0 ∧ k < 2 := by
      by_contra hne
      exact hother hne
    have hdn : (T.node d).isSome := by
      rw [hx]
      rfl
    obtain rfl | rfl : k = 0 ∨ k = 1 := by omega
    . rw [hok.dot, Option.some.injEq] at he
      rw [← he, DirEntry.new_iNo, DirEntry.new_fType, h.toNat_ofNat hdn, hdir]
      exact ⟨hdn, rfl⟩
    . obtain ⟨hpar, hpty⟩ := h.parent d x hx
      rw [hok.dotdot, Option.some.injEq] at he
      rw [← he, DirEntry.new_iNo, DirEntry.new_fType, h.toNat_ofNat hpar, hpty]
      exact ⟨hpar, rfl⟩

theorem TreeInv.reached (h : TreeInv part strict none a T) (hS : a.Stored T) (hr : a.Reached n ty)
    : (T.node n).isSome ∧ T.type n = ty := by
  induction hr with
  | root => exact ⟨h.root.1, h.root.2.1⟩
  | entry dir block slot dirent known type ih =>
    obtain ⟨x, hx⟩ := Option.isSome_iff_exists.mp ih.1
    rw [(hS.slot _ x hx).1] at dirent
    cases h.entry_node hx ih.2 block slot dirent with
    | inl hblank =>
      rw [hblank] at type
      exact absurd type (blank_fType_ne known)
    | inr hnode =>
      rw [type] at hnode
      exact ⟨hnode.1, (FileType.code_inj hnode.2).symm⟩

theorem TreeInv.reached_dir (h : TreeInv part strict none a T) (hS : a.Stored T)
    (hr : a.Reached d .directory)
    : T.node d = some (a.slot d) ∧ T.type d = .directory := by
  obtain ⟨hn, hty⟩ := h.reached hS hr
  obtain ⟨x, hx⟩ := Option.isSome_iff_exists.mp hn
  rw [(hS.slot _ x hx).1]
  exact ⟨hx, hty⟩

theorem TreeInv.reached_dotdot (h : TreeInv part strict none a T) (hS : a.Stored T)
    (hr : a.Reached d .directory)
    : a.Reached (T.parent d) .directory := by
  obtain ⟨hx, hdir⟩ := h.reached_dir hS hr
  have hup := (h.dir d _ hx hdir).dotdot
  have hknown : FileType.directory ≠ .unknown := by decide
  have hreach := Image.Reached.entry hr (by decide) (by decide) hup hknown rfl
  rw [DirEntry.new_iNo, h.toNat_ofNat (h.parent d _ hx).1] at hreach
  exact hreach

theorem TreeInv.namesSound (h : TreeInv part strict none a T) (hS : a.Stored T) : a.NamesSound where
  used n ty hr := by
    obtain ⟨hn, -⟩ := h.reached hS hr
    obtain ⟨x, hx⟩ := Option.isSome_iff_exists.mp hn
    obtain ⟨hlt, hno⟩ := h.lt n x hx
    rw [(hS.slot n x hx).1]
    exact ⟨hlt, ((h.used_iff hS).mpr hn).2, hno⟩
  type n ty ty' hr hr' := by
    rw [← (h.reached hS hr).2, (h.reached hS hr').2]
  known d hr i hi k hk e he := by
    obtain ⟨hx, hdir⟩ := h.reached_dir hS hr
    cases h.entry_node hx hdir hi hk he with
    | inl hblank => exact .inl hblank
    | inr hnode =>
      right
      obtain ⟨y, hy⟩ := Option.isSome_iff_exists.mp hnode.1
      rw [hnode.2]
      cases h.type _ y hy with
      | inl hreg =>
        rw [hreg]
        exact .inl rfl
      | inr hd =>
        rw [hd]
        exact .inr rfl
  dot d hr := by
    obtain ⟨hx, hdir⟩ := h.reached_dir hS hr
    exact (h.dir d _ hx hdir).dot
  dotdot d hr := by
    obtain ⟨hx, hdir⟩ := h.reached_dir hS hr
    exact ⟨T.parent d, h.reached_dotdot hS hr, (h.dir d _ hx hdir).dotdot⟩

end Names

section Shape

def Image.up (a : Image) (d : Nat)
    : Nat := ((a.dirent (a.slot d) 0 1).map fun e => e.iNo.toNat).getD 0

structure Image.Child (a : Image) (d i : Nat) (e : DirEntry) : Prop where
  dir : a.Reached d .directory
  slot : i < 140 ∧ ∃ k < 21, OtherSlot i k ∧ a.dirent (a.slot d) i k = some e
  live : e.fType ≠ 0

/--
The directories are a tree: every inode in use is reached from the root directory, in one directory
only, and `..` leads back to that directory and, in the end, to the root.
-/
structure Image.TreeShaped (a : Image) : Prop where
  all : ∀ n < 4096, a.inodeUsed n = true → ∃ ty, a.Reached n ty
  once : ∀ d d' i i' e e', a.Child d i e → a.Child d' i' e' → e.iNo = e'.iNo → d = d' ∧ i = i'
  back : ∀ d i e, a.Child d i e → e.iNo ≠ 0
    ∧ (e.fType = FileType.directory.code → a.up e.iNo.toNat = d)
  climb : ∀ d, a.Reached d .directory → ∃ k, a.up^[k] d = 0

theorem TreeInv.up_eq (h : TreeInv part strict none a T) (hS : a.Stored T)
    (hr : a.Reached d .directory)
    : a.up d = T.parent d := by
  obtain ⟨hx, hdir⟩ := h.reached_dir hS hr
  unfold Image.up
  rw [(h.dir d _ hx hdir).dotdot, Option.map_some, Option.getD_some, DirEntry.new_iNo]
  exact h.toNat_ofNat (h.parent d _ hx).1

theorem TreeInv.climb (h : TreeInv part strict none a T) (hS : a.Stored T) {k : Nat}
    (hr : a.Reached d .directory)
    : a.up^[k] d = T.parent^[k] d := by
  induction k generalizing d with
  | zero => rfl
  | succ k ih =>
    rw [Function.iterate_succ_apply, Function.iterate_succ_apply, h.up_eq hS hr]
    exact ih (h.reached_dotdot hS hr)

theorem TreeInv.reached_of_node (h : TreeInv part true none a T) (hS : a.Stored T) {k : Nat}
    (hn : (T.node n).isSome) (hk : T.parent^[k] n = 0) : a.Reached n (T.type n) := by
  induction k generalizing n with
  | zero =>
    have h0 : n = 0 := hk
    rw [h0, h.root.2.1]
    exact .root
  | succ k ih =>
    by_cases h0 : n = 0
    . rw [h0, h.root.2.1]
      exact .root
    . obtain ⟨y, hy⟩ := Option.isSome_iff_exists.mp hn
      obtain ⟨hpar, hpty⟩ := h.parent n y hy
      obtain ⟨p, hp⟩ := Option.isSome_iff_exists.mp hpar
      have hdir := ih hpar hk
      rw [hpty] at hdir
      obtain ⟨i, hi, l, hl, hother, e, he, hno⟩ := h.linked rfl n p hn h0 (by simp) hp
      rw [← (hS.slot _ p hp).1] at he
      have hen : e.iNo.toNat = n := by
        rw [hno]
        exact h.toNat_ofNat hn
      have hp' := h.reached_dir hS hdir
      cases h.entry_node hp'.1 hp'.2 hi hl he with
      | inl hblank =>
        rw [hblank] at hen
        exact absurd hen.symm h0
      | inr hnode =>
        rw [hen] at hnode
        have hknown : T.type n ≠ .unknown := by
          cases h.type n y hy with
          | inl hreg =>
            rw [hreg]
            decide
          | inr hd =>
            rw [hd]
            decide
        rw [← hen]
        rw [← hen] at hknown hnode
        exact .entry hdir hi hl he hknown hnode.2

theorem Image.Child.entry (hc : a.Child d n e) (h : TreeInv part strict none a T) (hS : a.Stored T)
    : T.ChildEntry none d e := by
  obtain ⟨hi, k, hk, hother, he⟩ := hc.slot
  obtain ⟨hx, hdir⟩ := h.reached_dir hS hc.dir
  cases (h.dir d _ hx hdir).child n hi k hk hother e he with
  | inl hblank =>
    have hlive := hc.live
    rw [hblank] at hlive
    exact absurd rfl hlive
  | inr hchild => exact hchild

theorem TreeInv.treeShaped (h : TreeInv part true none a T) (hS : a.Stored T) : a.TreeShaped where
  all n hlt hused := by
    have hn := (hS.used n hlt).mp hused
    obtain ⟨x, hx⟩ := Option.isSome_iff_exists.mp hn
    obtain ⟨k, hk⟩ := h.rooted n x hx
    exact ⟨_, h.reached_of_node hS hn hk⟩
  once d d' i i' e e' hc hc' heq := by
    have hchild := hc.entry h hS
    have hchild' := hc'.entry h hS
    have hd : d = d' := by
      rw [← hchild.parent, ← hchild'.parent, heq]
    refine ⟨hd, ?_⟩
    rw [← hd] at hc'
    obtain ⟨hx, hdir⟩ := h.reached_dir hS hc.dir
    obtain ⟨hi, k, hk, hother, he⟩ := hc.slot
    obtain ⟨hi', k', hk', hother', he'⟩ := hc'.slot
    exact (h.dir d _ hx hdir).once i hi k hk i' hi' k' hk' hother hother' e e' he he' hchild.nonzero
      heq
  back d i e hc := by
    have hchild := hc.entry h hS
    refine ⟨hchild.nonzero, ?_⟩
    intro hdir
    obtain ⟨hi, k, hk, -, he⟩ := hc.slot
    have hknown : FileType.directory ≠ .unknown := by decide
    have hreach := Image.Reached.entry hc.dir hi hk he hknown hdir
    rw [h.up_eq hS hreach, hchild.parent]
  climb d hr := by
    obtain ⟨hx, -⟩ := h.reached_dir hS hr
    obtain ⟨k, hk⟩ := h.rooted d _ hx
    exact ⟨k, by rw [h.climb hS hr, hk]⟩

end Shape

section Open

theorem Fs.HoldsTree.cwd_reached (h : s.HoldsTree part true) (task : Nat)
    : (s.vol.image part).Reached (s.tasks task).cwdInodeNr.toNat .directory := by
  obtain ⟨T, hT, hcwds⟩ := h
  obtain ⟨hn, hdir⟩ := hcwds task
  obtain ⟨x, hx⟩ := Option.isSome_iff_exists.mp hn
  obtain ⟨k, hk⟩ := hT.tree.rooted _ x hx
  rw [← hdir]
  exact hT.tree.reached_of_node hT.stored hn hk

end Open

section Empty

theorem TreeInv.size_pos_iff (h : TreeInv part strict none a T)
    : 0 < T.size d ↔ ∃ m, (T.node m).isSome ∧ m ≠ 0 ∧ T.parent m = d := by
  constructor
  . intro hpos
    obtain ⟨m, -, hm⟩ := Finset.exists_ne_zero_of_sum_ne_zero (Nat.pos_iff_ne_zero.mp hpos)
    unfold Tree.share at hm
    split at hm
    . next hchild => exact ⟨m, hchild⟩
    . exact absurd rfl hm
  . rintro ⟨m, hm, h0, hpar⟩
    obtain ⟨x, hx⟩ := Option.isSome_iff_exists.mp hm
    have hent := (h.entries m x hx).2 h0 (by simp)
    have hshare : T.share d m = T.entries m := if_pos ⟨hm, h0, hpar⟩
    have hle := T.share_le_size (d := d) (h.lt m x hx).1
    omega

theorem dirIsEmpty_iff_size : dirIsEmpty part x = true ↔ x.iSize.toNat = 48 := by
  rw [dirIsEmpty, Partition.dirEntrySize_eq, beq_iff_eq, ← UInt32.toNat_inj]
  rfl

theorem TreeInv.dirIsEmpty_iff (h : TreeInv part true none a T) (hS : a.Stored T)
    (hr : a.Reached d .directory)
    : dirIsEmpty part (a.slot d) = true ↔ ∀ i e, ¬ a.Child d i e := by
  obtain ⟨hx, hdir⟩ := h.reached_dir hS hr
  have hsize := (h.dir d _ hx hdir).size
  rw [dirIsEmpty_iff_size]
  constructor
  . intro h48 i e hc
    have hchild := hc.entry h hS
    have hpos : 0 < T.size d :=
      h.size_pos_iff.mpr ⟨_, hchild.node, fun h0 => hchild.nonzero (UInt32.toNat_inj.mp h0),
        hchild.parent⟩
    omega
  . intro hnone
    by_contra hne
    have hpos : 0 < T.size d := by omega
    obtain ⟨m, hm, h0, hpar⟩ := h.size_pos_iff.mp hpos
    rw [← hpar] at hx
    obtain ⟨i, hi, k, hk, hother, e, he, hno⟩ := h.linked rfl m _ hm h0 (by simp) hx
    rw [hpar] at he hx
    have hem : e.iNo.toNat = m := by
      rw [hno]
      exact h.toNat_ofNat hm
    refine hnone i e ⟨hr, ⟨hi, k, hk, hother, he⟩, ?_⟩
    cases (h.dir d _ hx hdir).child i hi k hk hother e he with
    | inl hblank =>
      rw [hblank] at hem
      exact absurd hem.symm h0
    | inr hchild =>
      obtain ⟨y, hy⟩ := Option.isSome_iff_exists.mp hchild.node
      rw [hchild.fType]
      cases h.type _ y hy with
      | inl hreg =>
        rw [hreg]
        decide
      | inr hd =>
        rw [hd]
        decide

theorem TreeInv.dirent_of_empty (h : TreeInv part strict none a T) (hx : T.node d = some x)
    (hdir : T.type d = .directory) (h48 : x.iSize.toNat = 48) {i : Nat} (hi : i < 140)
    (h0 : i ≠ 0) : a.dirent x i 0 = none := by
  have hok := h.dir d x hx hdir
  apply Option.eq_none_iff_forall_ne_some.mpr
  intro e he
  obtain ⟨k, hk, e', he', hlive⟩ := hok.blocks.entry i hi h0 e he
  have hother : OtherSlot i k := fun heq => h0 heq.1
  cases hok.child i hi k hk hother e' he' with
  | inl hblank =>
    rw [hblank] at hlive
    exact absurd rfl hlive
  | inr hchild =>
    have hpos : 0 < T.size d :=
      h.size_pos_iff.mpr ⟨_, hchild.node, fun h0 => hchild.nonzero (UInt32.toNat_inj.mp h0),
        hchild.parent⟩
    have := hok.size
    omega

theorem TreeInv.sector_of_empty (h : TreeInv part strict none a T) (hx : T.node d = some x)
    (hdir : T.type d = .directory) (h48 : x.iSize.toNat = 48) {i : Nat}
    (hi : i < 12) : x.sector (i + 1) = 0 := by
  by_contra hsec
  have hnone := h.dirent_of_empty hx hdir h48 (i := i + 1) (by omega) (by omega)
  by_cases h11 : i = 11
  . rw [h11] at hsec hnone
    exact (h.dir d x hx hdir).blocks.table hsec hnone
  . have hblock : a.block x (i + 1) ≠ 0 := by
      rw [Image.block_of_lt (by omega)]
      exact hsec
    rw [Image.dirent_of_ne_zero (by omega) hblock] at hnone
    contradiction

end Empty

section Runs

variable {startLba secCnt : UInt32} {h1 : 611 ≤ secCnt.toNat}
  {h2 : startLba.toNat + secCnt.toNat ≤ 163840} {v : Vol}

/-- Every entry names an inode in use, also in the runs that lose blocks of large directories. -/
theorem namesSound_of_reach (hlarge : 620 ≤ secCnt.toNat)
    (h : Formatted (.formatted startLba secCnt h1 h2) v s)
    (hr : Cmd.Reach (TreeCall.exec (.formatted startLba secCnt h1 h2))
      (Fs.Allows (.formatted startLba secCnt h1 h2) strict) s s')
    : (s'.vol.image (.formatted startLba secCnt h1 h2)).NamesSound := by
  obtain ⟨T, hT, -⟩ := holdsTree_of_reach hlarge h hr
  exact hT.tree.namesSound hT.stored

theorem namesSound_of_reach_treeFs : (treeFs.vol.image smallPartition).NamesSound := by
  rw [smallPartition_eq]
  exact namesSound_of_reach (by decide) formatted_smallFs reach_treeFs

/-- Every inode in use is reached, and the directories are a tree. -/
theorem treeShaped_of_reach (hlarge : 620 ≤ secCnt.toNat)
    (h : Formatted (.formatted startLba secCnt h1 h2) v s)
    (hr : Cmd.Reach (TreeCall.exec (.formatted startLba secCnt h1 h2))
      (Fs.Allows (.formatted startLba secCnt h1 h2) true) s s')
    : (s'.vol.image (.formatted startLba secCnt h1 h2)).TreeShaped := by
  obtain ⟨T, hT, -⟩ := holdsTree_of_reach hlarge h hr
  exact hT.tree.treeShaped hT.stored

theorem treeShaped_of_reach_treeFs : (treeFs.vol.image smallPartition).TreeShaped := by
  rw [smallPartition_eq]
  exact treeShaped_of_reach (by decide) formatted_smallFs reach_treeFs

/-- The working directory of every task is reached from the root directory. -/
theorem cwds_reached_of_reach (hlarge : 620 ≤ secCnt.toNat)
    (h : Formatted (.formatted startLba secCnt h1 h2) v s)
    (hr : Cmd.Reach (TreeCall.exec (.formatted startLba secCnt h1 h2))
      (Fs.Allows (.formatted startLba secCnt h1 h2) true) s s') (task : Nat)
    : (s'.vol.image (.formatted startLba secCnt h1 h2)).inodeUsed (s'.tasks task).cwdInodeNr.toNat
        = true
        ∧ (s'.vol.image (.formatted startLba secCnt h1 h2)).Reached (s'.tasks task).cwdInodeNr.toNat
            .directory := by
  have hreach := (holdsTree_of_reach hlarge h hr).cwd_reached task
  obtain ⟨T, hT, -⟩ := holdsTree_of_reach hlarge h hr
  obtain ⟨-, hused, -⟩ := (hT.tree.namesSound hT.stored).used _ _ hreach
  exact ⟨hused, hreach⟩

theorem cwds_reached_of_reach_treeFs
    : (treeFs.vol.image smallPartition).inodeUsed (treeFs.tasks 1).cwdInodeNr.toNat = true
        ∧ (treeFs.vol.image smallPartition).Reached (treeFs.tasks 1).cwdInodeNr.toNat
            .directory := by
  rw [smallPartition_eq]
  exact cwds_reached_of_reach (by decide) formatted_smallFs reach_treeFs 1

/--
`dir_is_empty` tells exactly the directories without children, whatever was made and removed in
them.
-/
theorem dirIsEmpty_of_reach (hlarge : 620 ≤ secCnt.toNat)
    (h : Formatted (.formatted startLba secCnt h1 h2) v s)
    (hr : Cmd.Reach (TreeCall.exec (.formatted startLba secCnt h1 h2))
      (Fs.Allows (.formatted startLba secCnt h1 h2) true) s s')
    (hd : (s'.vol.image (.formatted startLba secCnt h1 h2)).Reached d .directory)
    : dirIsEmpty (.formatted startLba secCnt h1 h2)
        ((s'.vol.image (.formatted startLba secCnt h1 h2)).slot d) = true
        ↔
      ∀ i e, ¬ (s'.vol.image (.formatted startLba secCnt h1 h2)).Child d i e := by
  obtain ⟨T, hT, -⟩ := holdsTree_of_reach hlarge h hr
  exact hT.tree.dirIsEmpty_iff hT.stored hd

theorem dirIsEmpty_of_reach_treeFs
    : dirIsEmpty smallPartition ((treeFs.vol.image smallPartition).slot 0) = true
        ↔
      ∀ i e, ¬ (treeFs.vol.image smallPartition).Child 0 i e := by
  rw [smallPartition_eq]
  exact dirIsEmpty_of_reach (by decide) formatted_smallFs reach_treeFs .root

/--
The assertion of `dir_remove` holds for every empty directory, also after the directory had been
larger: the blocks and the table of blocks that it needed then were given back.
-/
theorem dirRemove_assert_of_reach (hlarge : 620 ≤ secCnt.toNat)
    (h : Formatted (.formatted startLba secCnt h1 h2) v s)
    (hr : Cmd.Reach (TreeCall.exec (.formatted startLba secCnt h1 h2))
      (Fs.Allows (.formatted startLba secCnt h1 h2) strict) s s') {no : UInt32}
    (hd : (s'.vol.image (.formatted startLba secCnt h1 h2)).Reached no.toNat .directory)
    (hempty : dirIsEmpty (.formatted startLba secCnt h1 h2)
      (s'.view (.formatted startLba secCnt h1 h2) no) = true)
    : ((List.range 12).all fun i => (s'.view (.formatted startLba secCnt h1 h2) no).sector
        (i + 1) == 0) = true := by
  obtain ⟨T, hT, -⟩ := holdsTree_of_reach hlarge h hr
  obtain ⟨hx, hdir⟩ := hT.tree.reached_dir hT.stored hd
  have hview := hT.view_pure hx
  have h48 := dirIsEmpty_iff_size.mp hempty
  rw [← hview] at hx
  rw [List.all_eq_true]
  intro i hi
  rw [beq_iff_eq]
  exact hT.tree.sector_of_empty hx hdir h48 (List.mem_range.mp hi)

theorem dirRemove_assert_of_reach_treeFs
    : ((List.range 12).all fun i => (treeFs.view smallPartition 1).sector (i + 1) == 0) = true := by
  rw [smallPartition_eq]
  refine dirRemove_assert_of_reach (by decide) formatted_smallFs reach_treeFs ?_ (by decide +kernel)
  have hcwd := (holdsTree_of_reach (by decide) formatted_smallFs reach_treeFs).cwd_reached 1
  have hno : (treeFs.tasks 1).cwdInodeNr = 1 := by decide +kernel
  rw [hno] at hcwd
  exact hcwd

end Runs

end RogOS
