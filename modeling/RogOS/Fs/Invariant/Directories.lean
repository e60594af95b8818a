import RogOS.Fs.Invariant.Calls

/-!
Removing directories, opening them and making them the working directory keep the tree.
-/

namespace RogOS

variable {part : Partition} {strict : Bool} {s s' : Fs} {T : Tree} {addr task : Nat}
  {n junk : UInt32} {p c x : Inode}
  {path : CStr} {f : Found}

theorem Fs.opened_inode?_of_ne (h : addr ≠ (s.opened part n).1)
    : (s.opened part n).2.inode? addr = s.inode? addr := by
  unfold Fs.opened at h ⊢
  split at h
  . rw [Fs.inode?_updInode, if_neg h]
  . rw [Fs.inode?_pushInode, if_neg h]

theorem Fs.opened_iNo {i j : Inode} (hj : s.inode? addr = some j)
    (hi : (s.opened part n).2.inode? addr = some i)
    : i.iNo = j.iNo := by
  unfold Fs.opened at hi
  split at hi
  . rw [Fs.inode?_updInode, hj] at hi
    split at hi
    . rw [Option.map_some, Option.some.injEq] at hi
      rw [← hi]
    . rw [Option.some.injEq] at hi
      rw [hi]
  . rw [Fs.inode?_pushInode] at hi
    split at hi
    . next hnew =>
      rw [hnew, Fs.inode?_newAddr] at hj
      contradiction
    . rw [hj, Option.some.injEq] at hi
      rw [hi]

theorem Fs.opened_of_closed (hs : s.AddrNodup) (h : ∀ a i, s.inode? a = some i → i.iNo ≠ n)
    : s.opened part n = (s.newAddr, s.pushInode s.newAddr { (s.vol.image part).slot n.toNat with
        iOpenCnts := 1 }) := by
  unfold Fs.opened
  rw [Fs.find?_eq_none hs h]

section Rmdir

structure Fs.MayRemove (s : Fs) (path : List UInt8) (f : Found) : Prop where
  named : Named path
  notDot : f.fileType = .directory → (components path).getLast? ≠ some [46]
  closed : f.fileType = .directory → ∀ a i, s.inode? a = some i → i.iNo ≠ f.no

theorem TreeInv.child_of_empty {a : Image} {d : Nat} {name : List UInt8} {e : DirEntry}
    (h : TreeInv part strict none a T) (hd : T.node d = some x) (hdty : T.type d = .directory)
    (hf : T.Finds a d x name e) (hname : name ≠ [46])
    (h0 : e.iNo ≠ 0) (hc : T.node e.iNo.toNat = some c) (hempty : c.iSize.toNat = 48)
    : (∃ i < 140, ∃ k < 21, OtherSlot i k ∧ a.dirent x i k = some e) ∧ T.ChildEntry none d e := by
  cases hf with
  | dot hdot => contradiction
  | child proper slot entry => exact ⟨slot, entry⟩
  | dotdot hdot =>
    -- the parent of a directory is not empty
    exfalso
    obtain ⟨y, hy⟩ := Option.isSome_iff_exists.mp (h.parent d x hd).1
    have hlt := (h.lt _ y hy).1
    rw [DirEntry.new_iNo, UInt32.toNat_ofNat_of_lt' (by rw [UInt32.size]; omega)] at hc
    have hd0 : d ≠ 0 := by
      rintro rfl
      apply h0
      rw [DirEntry.new_iNo, h.root.2.2]
      rfl
    have hne : d ≠ T.parent d := by
      intro heq
      obtain ⟨k, hk⟩ := h.rooted d x hd
      rw [Function.iterate_fixed heq.symm] at hk
      exact hd0 hk
    exact h.leaf hc (.inr hempty) (.inl rfl) hd hd0 hne rfl

structure Fs.ChildOpen (s : Fs) (T : Tree) (d n : UInt32) (dirAddr addr : Nat) : Prop where
  apart : addr ≠ dirAddr
  parent : ∀ p, s.inode? dirAddr = some p → p.iNo = d ∧ T.node d.toNat = some p.pure
  once : ∀ c, s.inode? addr = some c → c.iOpenCnts = 1

theorem Fs.Holds.childOpen {d : UInt32} (h : s.Holds part strict T) (hD : T.IsDir d) (hdn : n ≠ d)
    (hclosed : ∀ a i, s.inode? a = some i → i.iNo ≠ n)
    : ((s.opened part d).2.opened part n).2.ChildOpen T d n (s.opened part d).1
        ((s.opened part d).2.opened part n).1 := by
  have hisDir : T.IsDir ((some d).getD 0) := hD
  have hat : (s.opened part d).2.Holds part strict T := h.openDir hD
  have hfresh : ∀ a i, (s.opened part d).2.inode? a = some i → i.iNo ≠ n := by
    intro a i hi
    by_cases ha : a = (s.opened part d).1
    . rw [ha] at hi
      rw [(h.parent hisDir hi).1]
      exact Ne.symm hdn
    . rw [Fs.opened_inode?_of_ne ha] at hi
      exact hclosed a i hi
  obtain ⟨k, hk⟩ := @Fs.AddrNodup.opened_inode? part s d h.searchable.addrs
  have hnew := @Fs.inode?_newAddr (s.opened part d).2
  have hapart : (s.opened part d).2.newAddr ≠ (s.opened part d).1 := by
    intro heq
    rw [heq, hk] at hnew
    contradiction
  rw [Fs.opened_of_closed hat.searchable.addrs hfresh]
  constructor
  . exact hapart
  . intro p hp
    rw [Fs.inode?_pushInode, if_neg (Ne.symm hapart)] at hp
    exact h.parent hisDir hp
  . intro c hc
    rw [Fs.inode?_pushInode, if_pos rfl, Option.some.injEq] at hc
    rw [← hc]

theorem Fs.closed_once (hone : c.iOpenCnts = 1) : s.closed addr c = s.dropInode addr := by
  unfold Fs.closed
  rw [hone]
  rfl

theorem Fs.Holds.forget {m : Nat} {extra : Nat → Nat}
    (hT : TreeInv part strict none (s.vol.image part) (T.setNode m none))
    (hS : (s.vol.image part).Stored (T.setNode m none)) (hmir : s.Mirrors T.node T.type)
    (hc : s.inode? addr = some c) (hone : c.iOpenCnts = 1) (hno : c.iNo.toNat = m)
    (hdir : T.type m ≠ .regular) (hcount : (s.closed addr c).Counted extra)
    : (s.closed addr c).Holds part strict (T.setNode m none) := by
  refine ⟨?_, ?_, ?_, extra, hcount⟩
  . rw [Fs.closed_vol]
    exact hT
  . rw [Fs.closed_vol]
    exact hS
  . have hfades : s.Fades T.type (s.closed addr c) := by
      apply Fs.Fades.closed
      intro i hi
      rw [hc, Option.some.injEq] at hi
      rw [← hi, hno]
      exact hdir
    apply (hmir.fades hfades).update (m := m)
    . intro a i hi heq
      rw [Fs.closed_once hone, Fs.inode?_dropInode] at hi
      split at hi
      . contradiction
      . next ha =>
        apply ha
        apply hmir.unique a addr i c hi hc
        exact UInt32.toNat_inj.mp (heq.trans hno.symm)
    . intro k hk
      exact Tree.setNode_of_ne hk
    . intro k hk
      rfl

theorem Tree.Removable.of_empty {a : Image} {d : Nat} {name : List UInt8} {e : DirEntry}
    (h : TreeInv part strict none a T) (hd : T.node d = some x) (hdty : T.type d = .directory)
    (hf : T.Finds a d x name e) (hname : name ≠ [46]) (h0 : e.iNo ≠ 0)
    (hc : T.node e.iNo.toNat = some c) (hempty : c.iSize.toNat = 48) (hx : x = p.pure)
    (hno : p.iNo.toNat = d) : T.Removable a p e.iNo := by
  obtain ⟨⟨i, hi, k, hk, ho, hent⟩, hentry⟩ :=
    h.child_of_empty hd hdty hf hname h0 hc hempty
  rw [hx] at hent
  rw [← hno] at hentry
  exact ⟨by rw [hno]; exact hdty, ⟨i, hi, k, hk, ho, e, hent, hentry, rfl⟩, c, hc, .inr hempty⟩

theorem Fs.ChildOpen.childSet_child {d n : UInt32} {names : List (List UInt8)} {t : FileType}
    {v : Vol}
    (h : ((s.opened part d).2.opened part n).2.ChildOpen T d n (s.opened part d).1
      ((s.opened part d).2.opened part n).1)
    (hc : ((s.opened part d).2.opened part n).2.inode? ((s.opened part d).2.opened part n).1
      = some c)
    : (s.childSet part ⟨n, some d, names, t⟩ p v).inode? ((s.opened part d).2.opened part n).1
      = some c := by
  unfold Fs.childSet
  rw [Fs.inode?_updInode]
  exact (if_neg h.apart).trans hc

theorem Fs.childSet_parent {d n : UInt32} {names : List (List UInt8)} {t : FileType} {p' : Inode}
    {v : Vol}
    (hp : ((s.opened part d).2.opened part n).2.inode? (s.opened part d).1 = some p)
    : (s.childSet part ⟨n, some d, names, t⟩ p' v).inode? (s.opened part d).1 = some p' := by
  have hold : Fs.inode? { ((s.opened part d).2.opened part n).2 with vol := v }
      (s.opened part d).1 = some p := hp
  unfold Fs.childSet
  rw [Fs.inode?_updInode]
  refine (if_pos rfl).trans ?_
  exact (congrArg (Option.map fun _ => p') hold).trans rfl

theorem DirRemoved.holds {r : Int × Fs} (hr : DirRemoved part s f r) (h : s.Holds part strict T)
    (hf : T.Searched (s.vol.image part) path.chars f) (hmay : s.MayRemove path.chars f)
    : r.2.HoldsNext part strict T (fun n => n = f.no) (T.files (s.vol.image part)) := by
  cases hr with
  | quit => exact h.next
  | done found nonzero dir child empty blocks parent delete release open_ close =>
    rename_i c p p' c' ok v v' s'
    cases hf with
    | root => contradiction
    | noName unnamed => exact absurd hmay.named unnamed
    | located hf =>
      cases hf with
      | missing split isDir proper => contradiction
      | regular split isDir node finds type => contradiction
      | directory split isDir node finds type =>
        rename_i d pre name x e
        have hname : name ≠ [46] := by
          rintro rfl
          apply hmay.notDot rfl
          rw [split, List.getLast?_concat]
        have hclosed := hmay.closed rfl
        dsimp only at nonzero child parent release open_ close hclosed
        have hE : T.IsDir e.iNo := ⟨(h.tree.finds_node node isDir.2 finds).1, type⟩
        have hat : (s.opened part d).2.Holds part strict T := h.openDir isDir
        have hX : ((s.opened part d).2.opened part e.iNo).2.Holds part strict T := hat.openDir hE
        -- the child is an empty directory, and not the one that it is in
        have hE' : T.IsDir ((some e.iNo).getD 0) := hE
        obtain ⟨hcno, hcnode⟩ : c.iNo = e.iNo ∧ T.node e.iNo.toNat = some c.pure :=
          hat.parent hE' child
        have h48 : c.iSize.toNat = 48 := by
          rw [dirIsEmpty, Partition.dirEntrySize_eq, beq_iff_eq] at empty
          rw [empty]
          rfl
        have hentry := (h.tree.child_of_empty node isDir.2 finds hname nonzero hcnode h48).2
        have hdn : e.iNo.toNat ≠ d.toNat := by
          apply h.tree.ne_of_leaf hcnode _ (.inr h48) isDir.2 hentry.parent
          exact fun h0 => nonzero (UInt32.toNat_inj.mp h0)
        have hopen := h.childOpen isDir (fun heq => hdn (congrArg UInt32.toNat heq)) hclosed
        obtain ⟨hpno, hpnode⟩ := hopen.parent p parent
        have hx : x = p.pure := by
          rw [node, Option.some.injEq] at hpnode
          exact hpnode
        have hR : T.Removable (((s.opened part d).2.opened part e.iNo).2.vol.image part) p
            e.iNo := by
          rw [Fs.opened_vol, Fs.opened_vol]
          exact .of_empty h.tree node isDir.2 finds hname nonzero hcnode h48 hx
            (congrArg UInt32.toNat hpno)
        have hdel : (deleteDirEntry part p e.iNo).run ((s.opened part d).2.opened part e.iNo).2.vol
            = .ok ((ok, p'), v) := by
          rw [Fs.opened_vol, Fs.opened_vol, ← hcno]
          exact delete
        rw [hcno] at release
        have hsame := deleteDirEntry_sameOpen _ _ delete
        obtain ⟨hT, hS, hfiles⟩ := hX.removed parent hR hdel release
        have hnone : T.files (s.vol.image part) e.iNo.toNat = none := Tree.files_of_dir type
        rw [Fs.opened_vol, Fs.opened_vol, ← hnone, Function.update_eq_self] at hfiles
        have hvol := dirClosed_vol close
        rw [Fs.closed_vol] at hvol
        have hmir : (s.childSet part ⟨e.iNo, some d, pre ++ [name], .directory⟩ p' v').Mirrors
            (T.change p.iNo.toNat p'.pure e.iNo.toNat 0).node T.type :=
              hX.mirrors_delete parent hsame
        rw [hpno] at hT hS hmir hfiles
        -- closing the child takes it out of memory
        have hchild : (s.childSet part ⟨e.iNo, some d, pre ++ [name], .directory⟩ p' v').inode?
            ((s.opened part d).2.opened part e.iNo).1 = some c :=
          hopen.childSet_child child
        have hsec : c' = c := by
          have heq := open_.symm.trans hchild
          rw [Option.some.injEq] at heq
          exact heq
        rw [hsec] at close
        obtain ⟨extra, hcount⟩ := h.counted
        have hset := (hcount.childSet (v := v') parent hsame).closed hchild
        have hone := hopen.once c child
        have hheld := Fs.Holds.forget hT hS hmir hchild hone (congrArg UInt32.toNat hcno)
          (by show T.type e.iNo.toNat ≠ .regular; rw [hE.2]; decide) hset
        refine ⟨_, hheld.dirClosed hset close ?_, ?_, by rw [hvol]; exact hfiles⟩
        . intro i hi
          have hback : (Fs.closed (s.childSet part ⟨e.iNo, some d, pre ++ [name], .directory⟩ p' v')
              ((s.opened part d).2.opened part e.iNo).1 c).inode? (s.opened part d).1
                = some p' := by
            rw [Fs.closed_once hone, Fs.inode?_dropInode, if_neg (Ne.symm hopen.apart)]
            exact Fs.childSet_parent parent
          have heq := hi.symm.trans hback
          rw [Option.some.injEq] at heq
          rw [heq, ← hsame.1, hpno]
          show T.type d.toNat ≠ .regular
          rw [isDir.2]
          decide
        . intro k hk hkn
          apply Tree.removed_isDir node hk
          intro heq
          exact hkn (UInt32.toNat_inj.mp heq)

end Rmdir

section Opendir

theorem Fs.Holds.dirAddr_inode? (h : s.Holds part strict T) (dir : Option UInt32)
    : ∃ p, (s.atDir part dir).2.inode? (s.dirAddr part dir) = some p := by
  cases dir with
  | none => exact h.searchable.root
  | some d =>
    obtain ⟨k, hk⟩ := @Fs.AddrNodup.opened_inode? part s d h.searchable.addrs
    exact ⟨_, hk⟩

theorem Fs.Holds.found_isDir {a : Image} (h : s.Holds part strict T)
    (hf : T.Searched a path.chars f) (hnamed : Named path.chars) (ha : s.vol.image part = a)
    (hdir : f.fileType = .directory)
    : T.IsDir f.no ∧ T.IsDir (f.dir.getD 0) := by
  have hroot : T.IsDir 0 := h.dirTree.root
  rw [← ha] at hf
  cases hf with
  | root => exact ⟨hroot, hroot⟩
  | noName unnamed => exact absurd hnamed unnamed
  | located hf =>
    cases hf with
    | missing split isDir proper => contradiction
    | regular split isDir node finds type => contradiction
    | directory split isDir node finds type =>
      exact ⟨⟨(h.tree.finds_node node isDir.2 finds).1, type⟩, isDir⟩

theorem Fs.Holds.pushDir {pos : UInt32} {extra : Nat → Nat} (h : s.Holds part strict T)
    (hc : s.Counted (pin extra addr))
    : Fs.Holds part strict { s with dirs := (s.newDirId, ⟨addr, pos⟩) :: s.dirs } T :=
  ⟨h.tree, h.stored, h.mirrors.setDirs, extra, hc.pushDir⟩

theorem DirOpened.holds {r : Option DirPtr × Fs} (hr : DirOpened part s f r)
    (h : s.Holds part strict T) (hf : T.Searched (s.vol.image part) path.chars f)
    (hnamed : Named path.chars)
    : r.2.Holds part strict T := by
  cases hr with
  | quit => exact h
  | done found dir close =>
    rename_i s'
    obtain ⟨hE, hD⟩ := h.found_isDir hf hnamed rfl dir
    have hX : (s.atChild part f).2.Holds part strict T := (h.atDir hD).openDir hE
    obtain ⟨extra, hcount⟩ := h.counted
    have hpinned :
        (s.atChild part f).2.Counted (s.pinDir part (pin extra (s.atChild part f).1) f.dir) := by
      rw [Fs.pinDir_pin]
      exact hcount.atDir.opened
    have hs' : s'.Holds part strict T := by
      apply hX.dirClosed hpinned close
      intro i hi
      obtain ⟨p, hp⟩ := h.dirAddr_inode? f.dir
      rw [Fs.opened_iNo hp hi, (h.parent hD hp).1, hD.2]
      decide
    exact hs'.pushDir (hpinned.dirClosed close)

end Opendir

section Chdir

theorem sysChdir_holds {r : Int × Fs} (hr : (sysChdir part task junk path).run s = .ok r)
    (h : s.Holds part strict T) (hnamed : Named path.chars)
    : r.2.Holds part strict T
        ∧ ∀ k, T.IsDir (s.tasks k).cwdInodeNr → T.IsDir (r.2.tasks k).cwdInodeNr := by
  cases sysChdir_run h.searchable hr with
  | inl heq =>
    rw [heq]
    exact ⟨h, fun _ hk => hk⟩
  | inr hex =>
    obtain ⟨no, ⟨hno, -, hdir⟩, rfl⟩ := hex
    refine ⟨h.setTasks, ?_⟩
    intro k hk
    dsimp only
    rw [Function.update_apply]
    split
    . rw [hno]
      exact (h.found_isDir h.searched hnamed rfl hdir).1
    . exact hk

end Chdir

end RogOS
