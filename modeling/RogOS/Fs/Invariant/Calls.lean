import RogOS.Fs.Invariant.Contents
import RogOS.Fs.Invariant.State

/-!
The system calls keep the tree: where a call starts with a tree, it ends with one.
-/

namespace RogOS

variable {part : Partition} {strict : Bool} {s s' t : Fs} {T T' : Tree} {addr task m : Nat}
  {n junk : UInt32} {p p' x : Inode}
  {dir : Option UInt32} {path : CStr} {f : Found} {flag : UInt8} {v v' : Vol}

def Fs.HoldsNext (part : Partition) (strict : Bool) (s : Fs) (T : Tree) (gone : UInt32 → Prop)
    (F : Nat → Option (List UInt8)) : Prop :=
  ∃ T', s.Holds part strict T' ∧ (∀ n, T.IsDir n → ¬ gone n → T'.IsDir n)
    ∧ T'.files (s.vol.image part) = F

theorem Fs.Holds.next {gone : UInt32 → Prop} (h : s.Holds part strict T)
    : s.HoldsNext part strict T gone (T.files (s.vol.image part)) := ⟨T, h, fun _ hn _ => hn, rfl⟩

section Effects

variable {F : Nat → Option (List UInt8)}

inductive FileMade (F : Nat → Option (List UInt8)) (f : Found) (flags : UInt8)
    : Int → (Nat → Option (List UInt8)) → Prop
  | refused : FileMade F f flags (-1) F
  | existing {r : Int} (found : f.no ≠ notFound) : FileMade F f flags r F
  | made {r : Int} {k : Nat} (missing : f.no = notFound) (creat : flags &&& oCreat ≠ 0)
      (fresh : F k = none)
    : FileMade F f flags r (Function.update F k (some []))

inductive FileWritten (F : Nat → Option (List UInt8)) (k : Nat) (buf : Mem) (count : UInt32)
    : Int → (Nat → Option (List UInt8)) → Prop
  | refused : FileWritten F k buf count (-1) F
  | appended {data : List UInt8} (old : F k = some data)
    : FileWritten F k buf count count.toNat
        (Function.update F k (some (data ++ bytesOf (buf, count))))

inductive Fs.FdWritten (s : Fs) (task : Nat) (F : Nat → Option (List UInt8)) (fd : Int) (buf : Mem)
    (count : UInt32)
    : Int → (Nat → Option (List UInt8)) → Prop
  | stay {r : Int} (reason : r = -1 ∨ fd = 1) : FdWritten s task F fd buf count r F
  | file {i : Fin 8} {g : Fin 32} {addr : Nat} {ino : Inode} {r : Int}
      {F' : Nat → Option (List UInt8)} (index : fd = i.val)
      (entry : (s.tasks task).fdTable i = g.val) (slot : (s.fileTable g).fdInode = some addr)
      (inode : s.inode? addr = some ino) (written : FileWritten F ino.iNo.toNat buf count r F')
    : FdWritten s task F fd buf count r F'

inductive FileUnlinked (F : Nat → Option (List UInt8)) (k : Nat)
    : Int → (Nat → Option (List UInt8)) → Prop
  | refused : FileUnlinked F k (-1) F
  | done {data : List UInt8} (old : F k = some data) : FileUnlinked F k 0 (Function.update F k none)

end Effects

def Named (path : List UInt8) : Prop := IsRootPath path ∨ components path ≠ []

instance {path : List UInt8} : Decidable (Named path) := inferInstanceAs (Decidable (_ ∨ _))

inductive Tree.Searched (T : Tree) (a : Image) (path : List UInt8) : Found → Prop
  | root : Searched T a path ⟨0, none, [], .directory⟩
  | noName {junk : UInt32} (unnamed : ¬ Named path)
      : Searched T a path ⟨junk, some 0, [], .directory⟩
  | located {f : Found} (located : T.Located a (components path) f) : Searched T a path f

theorem Fs.Holds.searched (h : s.Holds part strict T)
    : T.Searched (s.vol.image part) path.chars (s.search part junk path.chars) := by
  by_cases hroot : IsRootPath path.chars
  . have hres : s.search part junk path.chars = ⟨0, none, [], .directory⟩ := by
      unfold Fs.search
      rw [if_pos hroot]
    rw [hres]
    exact .root
  . by_cases hne : components path.chars = []
    . rw [Fs.search_of_no_name hroot hne]
      apply Tree.Searched.noName
      rintro (h1 | h1)
      . exact hroot h1
      . exact h1 hne
    . exact .located (h.search hroot hne)

section Closing

variable {extra : Nat → Nat}

theorem Fs.Holds.dirClosed (h : t.Holds part strict T)
    (hcount : t.Counted (s.pinDir part extra dir))
    (hc : s.DirClosed part dir t s') (hdir : ∀ ino, t.inode? (s.dirAddr part dir) = some ino →
      T.type ino.iNo.toNat ≠ .regular) : s'.Holds part strict T := by
  refine ⟨?_, ?_, ?_, _, hcount.dirClosed hc⟩
  . rw [dirClosed_vol hc]
    exact h.tree
  . rw [dirClosed_vol hc]
    exact h.stored
  . obtain ⟨-, rfl⟩ | ⟨d, ino, rfl, -, rfl⟩ := hc.cases
    . exact h.mirrors
    . exact h.mirrors.fades (.closed hdir)

theorem Fs.Holds.setTasks {tasks : Nat → Task} (h : s.Holds part strict T)
    : Fs.Holds part strict { s with tasks := tasks } T := by
  obtain ⟨extra, hcount⟩ := h.counted
  exact ⟨h.tree, h.stored, h.mirrors.setTasks, extra, hcount.setTasks⟩

theorem Fs.installed_vol {g : Fin 32} : (s.installed task g).2.vol = s.vol := by
  obtain ⟨-, heq⟩ | ⟨fd, -, heq⟩ := @Fs.installed_cases s task g
  . rw [heq]
  . rw [heq]
    rfl

theorem Fs.Holds.installed {g : Fin 32} (h : s.Holds part strict T)
    : (s.installed task g).2.Holds part strict T := by
  obtain ⟨-, heq⟩ | ⟨fd, -, heq⟩ := @Fs.installed_cases s task g
  . rw [heq]
    exact h
  . rw [heq]
    exact h.setTasks

end Closing

section Enter

variable {d k : Nat} {w : Nat} {ty : FileType}

theorem Tree.added_isDir (hnew : T.node k = none) (hd : T.node d = some p) (hn : T.IsDir n)
    : Tree.IsDir ((T.add d k ty x).change d p' k w) n := by
  have hne : n.toNat ≠ k := by
    rintro rfl
    have hsome := hn.1
    rw [hnew] at hsome
    contradiction
  have hdk : d ≠ k := by
    rintro rfl
    rw [hd] at hnew
    contradiction
  have hd' : (T.add d k ty x).node d = some p := by
    simp only [Tree.add, Function.update_of_ne hdk]
    exact hd
  constructor
  . rw [Tree.change_isSome hd']
    simp only [Tree.add, Function.update_of_ne hne]
    exact hn.1
  . have hty : ((T.add d k ty x).change d p' k w).type n.toNat = T.type n.toNat := by
      simp only [Tree.add, Tree.change, Function.update_of_ne hne]
    rw [hty]
    exact hn.2

theorem Fs.Holds.entered (h : s.Holds part strict T) (hD : T.IsDir (dir.getD 0))
    (hp : (s.atDir part dir).2.inode? (s.dirAddr part dir) = some p) (hsame : p.SameOpen p')
    (hnew : T.node k = none) (hT : TreeInv part strict none (v.image part)
      ((T.add (dir.getD 0).toNat k ty x).change (dir.getD 0).toNat p'.pure k w))
    (hS : (v.image part).Stored
      ((T.add (dir.getD 0).toNat k ty x).change (dir.getD 0).toNat p'.pure k w))
    : (s.dirSet part dir p' v).Holds part strict
        ((T.add (dir.getD 0).toNat k ty x).change (dir.getD 0).toNat p'.pure k w) := by
  obtain ⟨hno, hnode⟩ := h.parent hD hp
  have hdk : (dir.getD 0).toNat ≠ k := by
    intro heq
    rw [heq, hnew] at hnode
    contradiction
  obtain ⟨extra, hcount⟩ := h.counted
  refine ⟨hT, hS, ?_, _, hcount.dirSet hp hsame⟩
  have hmir : (s.dirSet part dir p' v).Mirrors (Function.update T.node (dir.getD 0).toNat
      (some p'.pure)) T.type := by
    apply (Fs.Mirrors.setVol (v := v) (h.atDir hD).mirrors).updInode hp hsame.1.symm hsame.2.1.symm
    . rw [hno, Function.update_self]
    . intro j hj
      rw [hno] at hj
      rw [Function.update_of_ne hj]
  apply hmir.update (m := k)
  . apply hmir.not_open
    rw [Function.update_of_ne (Ne.symm hdk)]
    exact hnew
  . intro j hj
    by_cases hjd : j = (dir.getD 0).toNat
    . rw [hjd, Tree.change_node_self, Function.update_self]
    . rw [Tree.change_node_of_ne hjd, Function.update_of_ne hjd]
      simp only [Tree.add, Function.update_of_ne hj]
  . intro j hj
    simp only [Tree.change, Tree.add, Function.update_of_ne hj]

end Enter

section Names

theorem last_of_split {names pre post : List (List UInt8)} {c : List UInt8}
    (hsplit : names = pre ++ c :: post)
    : c ∈ names := by
  rw [hsplit]
  simp

theorem lastName_searched {pre : List (List UInt8)} {c filename : List UInt8} (hc : 47 ∉ c)
    (h : ∃ t : Fs, (lastName (joinPath (pre ++ [c]))).run t = .ok (filename, t))
    : filename = c := by
  obtain ⟨t, h⟩ := h
  have hjoin : joinPath (pre ++ [c]) = joinPath pre ++ 47 :: c := by
    unfold joinPath
    rw [List.flatMap_append, List.flatMap_singleton]
  rw [hjoin, lastName_append hc, Prod.mk.injEq] at h
  exact h.1

end Names

section Mkdir

/-- There is room for an inode whose number is not taken for another one, and for its entry. -/
structure Fs.Room (part : Partition) (strict : Bool) (s : Fs) (d : UInt32) : Prop where
  number : ∃ m < 256, (s.vol.image part).inodeUsed m = false
  table : strict = true → ¬ ((s.vol.image part).FullBelow (s.view part d) 12
    ∧ (s.view part d).sector 12 ≠ 0)

theorem Image.FreeInode.lt_of_free {a : Image} (h : a.FreeInode m)
    (hfree : ∃ j < 256, a.inodeUsed j = false) : m < 256 := by
  obtain ⟨j, hj, hclear⟩ := hfree
  by_contra hge
  have := h.first j (by omega)
  rw [hclear] at this
  contradiction

theorem Image.InBlocks.direct {a : Image} (h : a.InBlocks part p.pure)
    : ∀ j < 12, p.sector j ≠ 0 → part.IsBlock (p.sector j) := by
  intro j hj h0
  have hblock : a.block p.pure j = p.sector j := Image.block_of_lt hj
  rw [← hblock]
  apply h.block j (by omega)
  rw [hblock]
  exact h0

theorem Fs.Holds.table (h : s.Holds part strict T) (hD : T.IsDir (dir.getD 0))
    (hroom : s.Room part strict (dir.getD 0))
    (hp : (s.atDir part dir).2.inode? (s.dirAddr part dir) = some p) (hs : strict = true)
    : ¬ ((s.vol.image part).FullBelow p 12 ∧ p.sector 12 ≠ 0) := by
  have hview := h.view_pure (h.parent hD hp).2
  have hsec : ∀ j, (s.view part (dir.getD 0)).sector j = p.sector j := fun j =>
    congrArg (fun i => i.sector j) hview
  rintro ⟨hfull, h12⟩
  apply hroom.table hs
  rw [hsec]
  refine ⟨?_, h12⟩
  intro j hj
  rw [hsec]
  exact hfull j hj

theorem DirMade.holds {r : Int × Fs} (hm : DirMade part s f r) (h : s.Holds part strict T)
    (hf : T.Searched (s.vol.image part) path.chars f)
    (hroom : f.no = notFound → s.Room part strict (f.dir.getD 0))
    : r.2.HoldsNext part strict T (fun _ => False) (T.files (s.vol.image part)) := by
  cases hm with
  | quit => exact h.next
  | done missing short name parent make close =>
    rename_i p p' ok v s' dirname
    replace hroom := hroom missing
    cases hf with
    | root => contradiction
    | noName unnamed =>
      obtain ⟨t, ht⟩ := name
      simp only [lastName, Cmd.bind_run, Cmd.assert_run] at ht
      obtain ⟨_, _, ⟨hslash, -⟩, -⟩ := ht
      exact absurd hslash List.not_mem_nil
    | located hf =>
      cases hf with
      | regular split isDir node finds type =>
        exfalso
        obtain ⟨y, hy⟩ := Option.isSome_iff_exists.mp (h.tree.finds_node node isDir.2 finds).1
        have hlt := (h.tree.lt _ y hy).1
        dsimp only at missing
        rw [missing] at hlt
        exact absurd hlt (by decide)
      | directory split isDir node finds type =>
        exfalso
        obtain ⟨y, hy⟩ := Option.isSome_iff_exists.mp (h.tree.finds_node node isDir.2 finds).1
        have hlt := (h.tree.lt _ y hy).1
        dsimp only at missing
        rw [missing] at hlt
        exact absurd hlt (by decide)
      | missing split isDir proper =>
        rename_i dir pre post c
        dsimp only at name short parent make close hroom
        have hc : 47 ∉ c := (mem_components (last_of_split split)).2.1
        have hname := lastName_searched hc name
        have hproper := proper (short c (by simp))
        obtain ⟨hno, hnode⟩ := h.parent isDir parent
        have hown := (h.tree.owns hnode).inBlocks
        have hsame := makeDir_sameOpen _ _ make
        obtain ⟨-, k, b, hadd⟩ := makeDir_image hown.direct h.tree.tail make
        rw [hname] at hadd
        have hlt := hadd.inode.lt_of_free hroom.number
        obtain ⟨w, hT', hS'⟩ :=
          hadd.treeInv h.tree h.stored hnode isDir.2 hlt hproper (h.table isDir hroom parent)
        have hnew := hadd.inode.node_none h.stored
        have hset := h.entered isDir parent hsame hnew hT' hS'
        obtain ⟨extra, hcount⟩ := h.counted
        have hvol := dirClosed_vol close
        refine ⟨_, hset.dirClosed (hcount.dirSet parent hsame) close ?_, fun n hn _ =>
          Tree.added_isDir hnew hnode hn,
          by rw [hvol]; exact hadd.files h.tree h.stored hnode isDir.2 hlt⟩
        intro ino hino
        have hp' : (s.dirSet part dir p' v).inode? (s.dirAddr part dir) = some p' := by
          unfold Fs.dirSet
          rw [Fs.inode?_updInode, if_pos rfl]
          exact congrArg (Option.map fun _ => p') parent
        rw [hp', Option.some.injEq] at hino
        have hd :
            Tree.IsDir ((T.add _ k .directory (dirInit k (part.blockLba b))).change _ p'.pure k w)
            (dir.getD 0) :=
          Tree.added_isDir hnew hnode isDir
        rw [← hino, ← hsame.1, hno, hd.2]
        decide

end Mkdir

section Create

variable {extra : Nat → Nat} {fdIdx : Fin 32}

theorem inodeBit_undone {o : Option UInt32} (halloc : (inodeBitmapAlloc part).run v = .ok (o, v'))
    (ho : o = some n) {v₁ : Vol} (h : (setBit part .inode n.toNat false).run v' = .ok ((), v₁))
    : v₁.image part = v.image part := by
  obtain ⟨k, hk, hn, hv'⟩ := inodeBitmapAlloc_image halloc
  have hlt := hk.lt
  rw [ho, Option.some.injEq] at hn
  rw [hn] at h
  have hv₁ := (setBit_inode h).2
  rw [UInt32.toNat_ofNat_of_lt' (by rw [UInt32.size]; omega)] at hv₁
  dsimp only at hv' hv₁
  rw [hv₁, hv']
  simp only [Image.setInodeUsed, Function.update_idem]
  rw [← hk.clear, Function.update_eq_self]

theorem Fs.dirSet_inode? (hp : (s.atDir part dir).2.inode? (s.dirAddr part dir) = some p)
    : (s.dirSet part dir p' v).inode? (s.dirAddr part dir) = some p' := by
  unfold Fs.dirSet
  rw [Fs.inode?_updInode, if_pos rfl]
  exact congrArg (Option.map fun _ => p') hp

theorem FileEntered.sameOpen {filename : List UInt8} (h : FileEntered part p filename n v p' v')
    : p.SameOpen p' := by
  obtain ⟨v1, v2, v3, hsync, -⟩ := h.runs
  exact syncDirEntryWith_sameOpen _ _ hsync

theorem Fs.Holds.inodeUndone {v₁ : Vol} (h : (s.atDir part dir).2.Holds part strict T)
    (alloc : (inodeBitmapAlloc part).run (s.atDir part dir).2.vol = .ok (some n, v))
    (undo : (setBit part .inode n.toNat false).run v = .ok ((), v₁))
    : ∃ F, ({ (s.atDir part dir).2 with vol := v₁ } : Fs).HoldsNext part strict T (fun _ => False) F
        ∧ F = T.files (s.vol.image part) := by
  obtain ⟨extra, hcount⟩ := h.counted
  have himg := inodeBit_undone alloc rfl undo
  have hsame : v₁.image part = s.vol.image part := by
    rw [himg, Fs.atDir_vol]
  refine ⟨_, Fs.Holds.next ⟨?_, ?_, h.mirrors.setVol, extra, hcount.setVol⟩, ?_⟩
  . dsimp only
    rw [himg]
    exact h.tree
  . dsimp only
    rw [himg]
    exact h.stored
  . dsimp only
    rw [hsame]

theorem Fs.atDir_created
    : (s.atDir part dir).2.created (s.atDir part dir).1 fdIdx flag n p' v
        =
      ((s.dirSet part dir p' v).pushInode (s.dirSet part dir p' v).newAddr
        { inodeInit n with iOpenCnts := 1 }).setFile fdIdx
          ⟨0, flag, some (s.dirSet part dir p' v).newAddr⟩ := by
  have haddr : (s.dirSet part dir p' v).newAddr = (s.atDir part dir).2.newAddr :=
    Fs.newAddr_updInode
  rw [Fs.created_eq, haddr]
  rfl

theorem Fs.Holds.dirSet_open {a : Nat} {i : Inode} (h : s.Holds part strict T)
    (hD : T.IsDir (dir.getD 0)) (hp : (s.atDir part dir).2.inode? (s.dirAddr part dir) = some p)
    (hsame : p.SameOpen p') (hi : (s.dirSet part dir p' v).inode? a = some i)
    : i.iNo = dir.getD 0 ∨ (s.atDir part dir).2.inode? a = some i := by
  unfold Fs.dirSet at hi
  rw [Fs.inode?_updInode] at hi
  split at hi
  . next ha =>
    left
    have hold : Fs.inode? { (s.atDir part dir).2 with vol := v } a = some p := by
      rw [ha]
      exact hp
    rw [hold, Option.map_some, Option.some.injEq] at hi
    rw [← hi, ← hsame.1]
    exact (h.parent hD hp).1
  . exact .inr hi

theorem Fs.Holds.dirSet_not_open {k a : Nat} {i : Inode} (h : s.Holds part strict T)
    (hD : T.IsDir (dir.getD 0)) (hp : (s.atDir part dir).2.inode? (s.dirAddr part dir) = some p)
    (hsame : p.SameOpen p') (hnew : T.node k = none)
    (hi : (s.dirSet part dir p' v).inode? a = some i) : i.iNo.toNat ≠ k := by
  intro hiNo
  cases h.dirSet_open hD hp hsame hi with
  | inl hdir =>
    have hnode := (h.parent hD hp).2
    rw [← hdir, hiNo, hnew] at hnode
    contradiction
  | inr hopen => exact (h.atDir hD).mirrors.not_open hnew a i hopen hiNo

theorem Fs.Holds.created {k w : Nat} (h : s.Holds part strict T) (hD : T.IsDir (dir.getD 0))
    (hp : (s.atDir part dir).2.inode? (s.dirAddr part dir) = some p) (hsame : p.SameOpen p')
    (hnew : T.node k = none) (hk : k < 256)
    (slot : getFreeSlotInGlobal (s.atDir part dir).2 = some fdIdx)
    (hT : TreeInv part strict none (v.image part)
      ((T.add (dir.getD 0).toNat k .regular (inodeInit (UInt32.ofNat k))).change
        (dir.getD 0).toNat p'.pure k w))
    (hS : (v.image part).Stored
      ((T.add (dir.getD 0).toNat k .regular (inodeInit (UInt32.ofNat k))).change
        (dir.getD 0).toNat p'.pure k w))
    : ((s.atDir part dir).2.created (s.atDir part dir).1 fdIdx flag (UInt32.ofNat k) p' v).Holds
        part strict ((T.add (dir.getD 0).toNat k .regular (inodeInit (UInt32.ofNat k))).change
          (dir.getD 0).toNat p'.pure k w) := by
  have hset := h.entered hD hp hsame hnew hT hS
  obtain ⟨extra, hcount⟩ := hset.counted
  have hfree := (getFreeSlotInGlobal_eq_some slot).2
  have hiNo : ({ inodeInit (UInt32.ofNat k) with iOpenCnts := 1 } : Inode).iNo.toNat = k :=
    UInt32.toNat_ofNat_of_lt' (by rw [UInt32.size]; omega)
  have hdk : (dir.getD 0).toNat ≠ k := by
    intro heq
    have hnode := (h.parent hD hp).2
    rw [heq, hnew] at hnode
    contradiction
  rw [Fs.atDir_created]
  refine ⟨hT, hS, ?_, extra, (hcount.pushInode rfl).takeSlot hfree rfl⟩
  apply hset.mirrors.pushFile hcount _ _ rfl _ hfree rfl
  . rw [hiNo, Tree.change_node_of_ne (Ne.symm hdk)]
    simp [Tree.add, Inode.pure, inodeInit]
  . intro a i hi heq
    exact h.dirSet_not_open hD hp hsame hnew hi ((congrArg UInt32.toNat heq).trans hiNo)
  . rw [hiNo]
    simp [Tree.change, Tree.add]

theorem Fs.installed_inode? {addr : Nat}
    : (s.installed task fdIdx).2.inode? addr = s.inode? addr := by
  obtain ⟨-, heq⟩ | ⟨fd, -, heq⟩ := @Fs.installed_cases s task fdIdx
  . rw [heq]
  . rw [heq]
    rfl

theorem Fs.created_dir {ino : Inode}
    (hp : (s.atDir part dir).2.inode? (s.dirAddr part dir) = some p)
    (h : ((s.atDir part dir).2.created (s.atDir part dir).1 fdIdx flag n p' v).inode?
      (s.dirAddr part dir) = some ino) : ino = p' := by
  rw [Fs.atDir_created] at h
  have hpush : ((s.dirSet part dir p' v).pushInode (s.dirSet part dir p' v).newAddr
      { inodeInit n with iOpenCnts := 1 }).inode? (s.dirAddr part dir) = some ino := h
  have hold : s.dirAddr part dir ≠ (s.dirSet part dir p' v).newAddr := by
    intro heq
    have hnone := @Fs.inode?_newAddr (s.dirSet part dir p' v)
    rw [← heq, Fs.dirSet_inode? hp] at hnone
    contradiction
  rw [Fs.inode?_pushInode, if_neg hold, Fs.dirSet_inode? hp, Option.some.injEq] at hpush
  exact hpush.symm

theorem FileCreated.holds {filename : List UInt8} {r : Int × Fs}
    (hm : FileCreated part task (s.atDir part dir).1 filename flag (s.atDir part dir).2 r)
    (h : s.Holds part strict T) (hD : T.IsDir (dir.getD 0)) (hname : ProperName filename)
    (hroom : s.Room part strict (dir.getD 0))
    : (∃ F, r.2.HoldsNext part strict T (fun _ => False) F
        ∧ (r.1 = -1 ∧ F = T.files (s.vol.image part)
        ∨ ∃ k, T.files (s.vol.image part) k = none
            ∧ F = Function.update (T.files (s.vol.image part)) k (some [])))
        ∧ ∀ ino, r.2.inode? (s.dirAddr part dir) = some ino → ino.iNo = dir.getD 0 := by
  have hat := h.atDir hD
  cases hm with
  | noInode alloc =>
    obtain ⟨k, -, ho, -⟩ := inodeBitmapAlloc_image alloc
    contradiction
  | noSlot alloc slot undo =>
    obtain ⟨F, hnext, hF⟩ := hat.inodeUndone alloc undo
    exact ⟨⟨F, hnext, .inl ⟨rfl, hF⟩⟩, fun ino hino => (h.parent hD hino).1⟩
  | noEntry alloc slot parent entry undo =>
    exfalso
    rename_i n v v1 v' p p' fdIdx
    obtain ⟨k, -, -, himg⟩ := inodeBitmapAlloc_image alloc
    have hown := (h.tree.owns (h.parent hD parent).2).inBlocks
    have htail : (v.image part).TailUsed part := by
      dsimp only at himg
      rw [himg, Fs.atDir_vol]
      exact h.tree.tail
    obtain ⟨hok, -, -⟩ :=
      syncDirEntry_run hown.direct htail (by rw [DirEntry.new_fType]; decide) entry
    contradiction
  | made alloc slot parent length entered =>
    rename_i n v v' p p' fdIdx
    obtain ⟨hno, hnode⟩ := h.parent hD parent
    have hown := (h.tree.owns hnode).inBlocks
    rw [Fs.atDir_vol] at alloc
    obtain ⟨k, rfl, hadd⟩ := entered.image hown.direct h.tree.tail alloc
    have hlt := hadd.inode.lt_of_free hroom.number
    have hnew := hadd.inode.node_none h.stored
    obtain ⟨w, hT', hS'⟩ :=
      hadd.treeInv h.tree h.stored hnode hD.2 hlt hname (h.table hD hroom parent)
    constructor
    . refine ⟨_, ⟨_, (h.created hD parent entered.sameOpen hnew hlt slot hT' hS').installed,
        fun n hn _ => Tree.added_isDir hnew hnode hn, rfl⟩,
        .inr ⟨k, Tree.files_of_none hnew, ?_⟩⟩
      rw [Fs.installed_vol, Fs.atDir_created]
      exact hadd.files h.tree h.stored hnode hD.2 hlt
    . intro ino hino
      rw [Fs.installed_inode?] at hino
      rw [Fs.created_dir parent hino, ← entered.sameOpen.1, hno]

end Create

section OpenFile

variable {extra : Nat → Nat} {g : Fin 32}

theorem Fs.Holds.taken (h : s.Holds part strict T) (hslot : getFreeSlotInGlobal s = some g)
    (hn : T.node n.toNat = some x) (hty : T.type n.toNat = .regular)
    : (s.taken part n g flag).Holds part strict T := by
  obtain ⟨extra, hcount⟩ := h.counted
  have hfree := (getFreeSlotInGlobal_eq_some hslot).2
  have hvol : (s.taken part n g flag).vol = s.vol := Fs.opened_vol
  refine ⟨?_, ?_, ?_, extra, hcount.taken hslot⟩
  . rw [hvol]
    exact h.tree
  . rw [hvol]
    exact h.stored
  . unfold Fs.taken Fs.opened
    cases hf : s.find? n with
    | some q =>
      obtain ⟨hq, hqn⟩ := hcount.addrs.find?_eq_some hf
      apply h.mirrors.bumpFile hq _ hfree rfl
      rw [hqn]
      exact hty
    | none =>
      obtain ⟨h1, h2⟩ := h.stored.slot _ x hn
      have hno := h.toNat_iNo hn
      dsimp only
      rw [h1]
      apply h.mirrors.pushFile hcount _ _ rfl _ hfree rfl
      . show T.node x.iNo.toNat = some x.pure
        rw [hno, h2]
        exact hn
      . intro a i hi
        show i.iNo ≠ x.iNo
        rw [hno]
        exact Fs.ne_of_find?_eq_none hf hi
      . show T.type x.iNo.toNat = .regular
        rw [hno]
        exact hty

theorem FileOpened.vol {r : Int × Fs} (ho : FileOpened part task n flag s r) : r.2.vol = s.vol := by
  have htaken : ∀ g, (s.taken part n g flag).vol = s.vol := fun _ => Fs.opened_vol
  cases ho with
  | noSlot slot => rfl
  | denied slot inode write deny => exact htaken _
  | write slot inode write allow =>
    rename_i fdIdx ino
    rw [Fs.installed_vol]
    exact htaken fdIdx
  | read slot read =>
    rename_i fdIdx
    rw [Fs.installed_vol]
    exact htaken fdIdx

theorem FileOpened.holds {r : Int × Fs} (ho : FileOpened part task n flag s r)
    (h : s.Holds part strict T) (hn : T.node n.toNat = some x)
    (hty : T.type n.toNat = .regular) : r.2.Holds part strict T := by
  cases ho with
  | noSlot slot => exact h
  | denied slot inode write deny => exact h.taken slot hn hty
  | write slot inode write allow =>
    apply Fs.Holds.installed
    have htaken : (s.taken part n _ flag).Holds part strict T := h.taken slot hn hty
    obtain ⟨extra, hcount⟩ := htaken.counted
    refine ⟨htaken.tree, htaken.stored, ?_, extra, hcount.updInode fun _ _ => rfl⟩
    exact htaken.mirrors.fades (.updInode fun i _ => ⟨rfl, fun _ => rfl⟩)
  | read slot read => exact (h.taken slot hn hty).installed

end OpenFile

section SysOpen

theorem SysOpened.holds {r : Int × Fs} (ho : SysOpened part task path flag s f r)
    (h : s.Holds part strict T) (hf : T.Searched (s.vol.image part) path.chars f)
    (hroom : f.no = notFound → flag &&& oCreat ≠ 0 → s.Room part strict (f.dir.getD 0))
    : ∃ F, FileMade (T.files (s.vol.image part)) f flag r.1 F
        ∧ r.2.HoldsNext part strict T (fun _ => False) F := by
  cases ho with
  | quit => exact ⟨_, .refused, h.next⟩
  | create missing short type creat slash all name make close =>
    replace hroom := hroom missing creat
    cases hf with
    | root => contradiction
    | noName unnamed => contradiction
    | located hf =>
      cases hf with
      | regular split isDir node finds type =>
        exfalso
        obtain ⟨y, hy⟩ := Option.isSome_iff_exists.mp (h.tree.finds_node node isDir.2 finds).1
        have hlt := (h.tree.lt _ y hy).1
        dsimp only at missing
        rw [missing] at hlt
        exact absurd hlt (by decide)
      | directory split isDir node finds type => contradiction
      | missing split isDir proper =>
        rename_i filename fd t s' dir pre post c
        dsimp only at name short all make close hroom
        obtain ⟨t0, hname⟩ := name
        obtain ⟨cs, hcs⟩ := lastName_run slash hname
        rw [← all] at hcs
        dsimp only at hcs
        have hlast : c = filename := (List.append_inj' hcs rfl).2 |> List.cons.inj |>.1
        have hproper := proper (short c (by simp))
        rw [hlast] at hproper
        obtain ⟨⟨F, ⟨T', hT', hdirs, hfiles⟩, heffect⟩, hstay⟩ := make.holds h isDir hproper hroom
        obtain ⟨extra, hcount⟩ := h.counted
        have hvol := dirClosed_vol close
        have hmade : FileMade (T.files (s.vol.image part)) ⟨notFound, dir, pre ++ [c],
            .unknown⟩ flag fd F := by
          obtain ⟨hfd, rfl⟩ | ⟨k, hk, rfl⟩ := heffect
          . dsimp only at hfd
            rw [hfd]
            exact .refused
          . exact .made rfl creat hk
        refine ⟨F, hmade, T', hT'.dirClosed (make.counted hcount.atDir) close ?_, hdirs, by
          rw [hvol]; exact hfiles⟩
        intro ino hino
        rw [hstay ino hino, (hdirs _ isDir (fun h => h)).2]
        decide
  | existing found file creat all open_ =>
    cases hf with
    | root => contradiction
    | noName unnamed => contradiction
    | located hf =>
      cases hf with
      | missing split isDir proper => contradiction
      | directory split isDir node finds type => contradiction
      | regular split isDir node finds type =>
        obtain ⟨y, hy⟩ := Option.isSome_iff_exists.mp (h.tree.finds_node node isDir.2 finds).1
        have hvol := open_.vol
        rw [Fs.atDir_vol] at hvol
        have hnext := @Fs.Holds.next _ _ _ _ (fun _ => False) (open_.holds (h.atDir isDir) hy type)
        rw [hvol] at hnext
        exact ⟨_, .existing found, hnext⟩

end SysOpen

section Close

theorem sysClose_holds {fd : Int} {r : Int × Fs} (hr : (sysClose task fd).run s = .ok r)
    (h : s.Holds part strict T)
    : r.2.Holds part strict T := by
  obtain ⟨extra, hcount⟩ := h.counted
  have hafter := sysClose_counted hr hcount
  obtain heq | ⟨i, fdIdx, addr, ino, -, -, hfd, hino, heq⟩ := sysClose_run hr
  . rw [heq]
    exact h
  . rw [heq] at hafter ⊢
    have hvol : ((s.fileClosed fdIdx addr ino).setFd task i (-1)).vol = s.vol := by
      unfold Fs.fileClosed
      exact Fs.closed_vol
    refine ⟨?_, ?_, (h.mirrors.fileClosed hino hfd).setTasks, extra, hafter⟩
    . rw [hvol]
      exact h.tree
    . rw [hvol]
      exact h.stored

theorem sysClosedir_holds {ptr : Option DirPtr} {r : Int × Fs}
    (hr : (sysClosedir ptr).run s = .ok r)
    (h : s.Holds part strict T) : r.2.Holds part strict T := by
  obtain ⟨extra, hcount⟩ := h.counted
  have hafter := sysClosedir_counted hr hcount
  cases sysClosedir_run hr with
  | inl heq =>
    rw [heq]
    exact h
  | inr hex =>
    obtain ⟨id, d, ino, -, hd, hino, rfl⟩ := hex
    have hdir : T.type ino.iNo.toNat ≠ .regular := by
      -- the count of a file is that of its entries in the file table
      intro hreg
      have hslot := h.mirrors.count _ ino hino hreg
      have href := hcount.count d.inode
      rw [Fs.Counted.openCnt_of_some hino, hslot] at href
      have hpos : 0 < s.dirCount d.inode := by
        apply List.countP_pos_iff.mpr
        exact ⟨_, Assoc.mem_of_lookup hd, by simp⟩
      unfold Fs.refCount at href
      omega
    refine ⟨?_, ?_, ?_, extra, hafter⟩
    . dsimp only
      rw [Fs.closed_vol]
      exact h.tree
    . dsimp only
      rw [Fs.closed_vol]
      exact h.stored
    . apply Fs.Mirrors.setDirs
      apply h.mirrors.fades
      apply Fs.Fades.closed
      intro i hi
      rw [hino, Option.some.injEq] at hi
      rw [← hi]
      exact hdir

end Close

section Write

theorem writeFile_holds {g : Fin 32} {buf : Mem} {count : UInt32} {r : Int × Fs}
    (hr : (writeFile part g buf count).run s = .ok r) (h : s.Holds part strict T)
    : ∃ addr ino F, (s.fileTable g).fdInode = some addr ∧ s.inode? addr = some ino
        ∧ FileWritten (T.files (s.vol.image part)) ino.iNo.toNat buf count r.1 F
        ∧ r.2.HoldsNext part strict T (fun _ => False) F := by
  simp only [writeFile, Cmd.bind_run, Cmd.get_run] at hr
  obtain ⟨_, _, h1, h2⟩ := hr
  cases h1
  cases hfd : (s.fileTable g).fdInode with
  | none =>
    rw [hfd] at h2
    exact absurd h2 Cmd.throw_run
  | some addr =>
    rw [hfd] at h2
    simp only [Cmd.bind_run, onInode_run, Cmd.modify_run, Cmd.pure_run] at h2
    obtain ⟨q, s1, ⟨ino, ino', v, hino, ⟨w, v1, hw, heq⟩, hs1⟩, _, _, h3, h4⟩ := h2
    cases h3
    rw [Prod.mk.injEq, Prod.mk.injEq] at heq
    obtain ⟨⟨hq, hino'⟩, hv⟩ := heq
    obtain ⟨extra, hcount⟩ := h.counted
    have hreg := h.mirrors.files g addr ino hfd hino
    have hnode := h.mirrors.inode addr ino hino
    have hcnt : ino'.iOpenCnts = ino.iOpenCnts ∧ ino'.iNo = ino.iNo ∧ ∃ T',
        TreeInv part strict none (v.image part) T'
        ∧ (v.image part).Stored T' ∧ T'.node ino.iNo.toNat = some ino'.pure
        ∧ (∀ k, k ≠ ino.iNo.toNat → T'.node k = T.node k) ∧ T'.type = T.type
        ∧ FileWritten (T.files (s.vol.image part)) ino.iNo.toNat buf count w.1
            (T'.files (v.image part)) := by
      have hrun := fileWrite_run (h.tree.fileShape hnode hreg) h.tree.tail.freeBelow hw
      dsimp only at hrun
      rw [← hino', ← hv] at hrun
      obtain ⟨hneg, hsame, hvol⟩ | ⟨hpos, a', hW, ha'⟩ := hrun
      . rw [hsame, hvol, hneg]
        exact ⟨rfl, rfl, T, h.tree, h.stored, hnode, fun _ _ => rfl, rfl, .refused⟩
      . obtain ⟨hT, hS⟩ := h.tree.wrote h.stored hnode hreg hW ha'
        have hfiles :=
          @TreeInv.files_wrote _ _ _ _ _ _ (T.entries ino.iNo.toNat) _ _ _ _ _ h.tree hnode hreg hW
          (show (v.image part).sec = a'.sec by rw [ha']; rfl)
        refine ⟨hW.same.2.1, hW.same.1, _, hT, hS, Tree.change_node_self, fun k hk =>
          Tree.change_node_of_ne hk, rfl, ?_⟩
        have hold : T.files (s.vol.image part) ino.iNo.toNat
            = some ((s.vol.image part).content ino.pure) :=
          Tree.files_of_node hnode hreg
        rw [hfiles, hpos]
        exact .appended hold
    obtain ⟨hcnt, hno, T', hT, hS, hself, hother, htype, hwritten⟩ := hcnt
    refine ⟨addr, ino, _, rfl, hino, by rw [h4, hq]; exact hwritten, ?_⟩
    rw [h4, hs1]
    dsimp only
    refine ⟨T', ⟨hT, hS, ?_, extra, ?_⟩, ?_, rfl⟩
    . refine Fs.Mirrors.setFile ?_ rfl
      rw [htype]
      exact (Fs.Mirrors.setVol (v := v) h.mirrors).updInode hino hno hcnt hself hother
    . refine Fs.Counted.setFile ?_ rfl
      apply Fs.Counted.updInode hcount.setVol
      intro i hi
      have hi' : s.inode? addr = some i := hi
      rw [hino, Option.some.injEq] at hi'
      rw [← hi', hcnt]
    . intro n hn _
      refine ⟨?_, by rw [htype]; exact hn.2⟩
      by_cases heq : n.toNat = ino.iNo.toNat
      . rw [heq, hself]
        rfl
      . rw [hother _ heq]
        exact hn.1

theorem sysWrite_holds {fd : Int} {buf : Mem} {count : UInt32} {r : Int × Fs}
    (hr : (sysWrite part task fd buf count).run s = .ok r) (h : s.Holds part strict T)
    : ∃ F, s.FdWritten task (T.files (s.vol.image part)) fd buf count r.1 F
        ∧ r.2.HoldsNext part strict T (fun _ => False) F := by
  cases sysWrite_run hr with
  | inl heq =>
    rw [heq.1]
    exact ⟨_, .stay heq.2, h.next⟩
  | inr hw =>
    obtain ⟨i, g, hfd, hg, hw⟩ := hw
    obtain ⟨addr, ino, F, hslot, hino, hwritten, hnext⟩ := writeFile_holds hw h
    exact ⟨F, .file hfd hg hslot hino hwritten, hnext⟩

end Write

section Remove

theorem Fs.find?_eq_none (hs : s.AddrNodup) (h : ∀ a i, s.inode? a = some i → i.iNo ≠ n)
    : s.find? n = none := by
  cases hf : s.find? n with
  | none => rfl
  | some q =>
    obtain ⟨hq, hno⟩ := hs.find?_eq_some hf
    exact absurd hno (h q.1 q.2 hq)

structure Tree.Removable (T : Tree) (a : Image) (p : Inode) (n : UInt32) : Prop where
  parent : T.type p.iNo.toNat = .directory
  entry : ∃ i < 140, ∃ k < 21, OtherSlot i k ∧ ∃ e, a.dirent p i k = some e
    ∧ T.ChildEntry none p.iNo.toNat e ∧ e.iNo = n
  leaf : ∃ x, T.node n.toNat = some x ∧ T.Leaf n.toNat x

theorem Fs.Holds.removable_ne (h : s.Holds part strict T) (hR : T.Removable (s.vol.image part) p n)
    : n.toNat ≠ p.iNo.toNat := by
  obtain ⟨x, hx, hleaf⟩ := hR.leaf
  obtain ⟨i, -, k, -, -, e, -, hchild, heq⟩ := hR.entry
  rw [← heq] at hx hleaf ⊢
  exact h.tree.ne_of_leaf hx (fun h0 => hchild.nonzero (UInt32.toNat_inj.mp h0)) hleaf hR.parent
    hchild.parent

theorem Fs.Holds.mirrors_delete (h : s.Holds part strict T) (hp : s.inode? addr = some p)
    (hsame : p.SameOpen p')
    : (Fs.updInode { s with vol := v } addr fun _ =>
        p').Mirrors (T.change p.iNo.toNat p'.pure m 0).node T.type := by
  apply (Fs.Mirrors.setVol (v := v) h.mirrors).updInode hp hsame.1.symm hsame.2.1.symm
  . exact Tree.change_node_self
  . intro k hk
    exact Tree.change_node_of_ne hk

theorem Fs.Holds.view_delete {ok : Bool} (h : s.Holds part strict T) (hp : s.inode? addr = some p)
    (hR : T.Removable (s.vol.image part) p n) (hsame : p.SameOpen p') (hx : T.node n.toNat = some x)
    (hdel : (s.vol.image part).Deleted part p n (v.image part) (ok, p'))
    : (Fs.view part (Fs.updInode { s with vol := v } addr fun _ => p') n).pure = x := by
  have hne := h.removable_ne hR
  have hnode := h.mirrors.inode addr p hp
  obtain ⟨hslot, hpure⟩ := h.stored.slot _ x hx
  have hslot' : (v.image part).slot n.toNat = x := by
    obtain ⟨hok, -⟩ := h.tree.erased hnode (h.tree.dir _ _ hnode hR.parent) hR.entry hdel.pure
    rw [hok] at hdel
    have hlt := (h.tree.lt _ _ hnode).1
    rw [hdel.slot_eq.1, Function.update_of_ne (by omega)]
    exact hslot
  have hx1 : (T.change p.iNo.toNat p'.pure n.toNat 0).node n.toNat = some x := by
    rw [Tree.change_node_of_ne hne]
    exact hx
  have hmir : (Fs.updInode { s with vol := v } addr fun _ => p').Mirrors
      (T.change p.iNo.toNat p'.pure n.toNat 0).node T.type := h.mirrors_delete hp hsame
  exact hmir.view_pure h.searchable.setVol.addrs.updInode hx1 hslot' hpure

theorem Fs.Holds.removed {ok : Bool} (h : s.Holds part strict T) (hp : s.inode? addr = some p)
    (hR : T.Removable (s.vol.image part) p n)
    (hdel : (deleteDirEntry part p n).run s.vol = .ok ((ok, p'), v))
    (hrel : (releaseInode part (Fs.view part (Fs.updInode { s with vol := v } addr fun _ => p') n)
      n).run v = .ok ((), v'))
    : TreeInv part strict none (v'.image part)
        ((T.change p.iNo.toNat p'.pure n.toNat 0).setNode n.toNat none)
        ∧ (v'.image part).Stored ((T.change p.iNo.toNat p'.pure n.toNat 0).setNode n.toNat none)
        ∧ ((T.change p.iNo.toNat p'.pure n.toNat 0).setNode n.toNat none).files (v'.image part)
          = Function.update (T.files (s.vol.image part)) n.toNat none := by
  have hnode := h.mirrors.inode addr p hp
  have hown := (h.tree.owns hnode).inBlocks
  have hblocks : (s.vol.image part).InBlocks part p := ⟨hown.table, hown.block⟩
  have hdeleted := deleteDirEntry_run (r := ((ok, p'), v)) hblocks hdel
  dsimp only at hdeleted
  obtain ⟨x, hx, hleaf⟩ := hR.leaf
  have hview := h.view_delete hp hR (deleteDirEntry_sameOpen _ _ hdel) hx hdeleted
  have hofNat : UInt32.ofNat n.toNat = n := UInt32.ofNat_toNat
  have hent := hR.entry
  rw [← hofNat] at hdeleted hent
  generalize Fs.view part (Fs.updInode { s with vol := v } addr fun _ => p') n = y at hrel hview
  have hreleased := fun hin => (releaseInode_run (r := ((), v')) hin hrel).2
  have hy : T.node n.toNat = some y.pure := by
    rw [hview]
    exact hx
  have hleaf' : T.Leaf n.toNat y := by
    cases hleaf with
    | inl hreg => exact .inl hreg
    | inr h48 =>
      right
      rw [← hview] at h48
      exact h48
  have hlive := h.tree.delete_live hnode hR.parent hR.entry hdel
  obtain ⟨hT, hS, hrel⟩ :=
    h.tree.remove (m := n.toNat) h.stored hnode hR.parent hy hleaf' hent hdeleted hlive hreleased
  exact ⟨hT, hS, h.tree.files_remove hnode hR.parent hent hdeleted hrel⟩

theorem Tree.removed_isDir {d k : Nat} (hd : T.node d = some p) (hn : T.IsDir n) (hne : n.toNat ≠ k)
    : Tree.IsDir ((T.change d p' k 0).setNode k none) n := by
  constructor
  . rw [Tree.setNode_of_ne hne, Tree.change_isSome hd]
    exact hn.1
  . exact hn.2

theorem Tree.Removable.of_finds {a : Image} {d : Nat} {name : List UInt8} {e : DirEntry}
    (h : TreeInv part strict none a T) (hd : T.node d = some x) (hdty : T.type d = .directory)
    (hf : T.Finds a d x name e) (hty : T.type e.iNo.toNat = .regular) (hx : x = p.pure)
    (hno : p.iNo.toNat = d) : T.Removable a p e.iNo := by
  obtain ⟨y, hy⟩ := Option.isSome_iff_exists.mp (h.finds_node hd hdty hf).1
  refine ⟨by rw [hno]; exact hdty, ?_, y, hy, .inl hty⟩
  cases hf with
  | dot name =>
    have hlt := (h.lt _ x hd).1
    rw [DirEntry.new_iNo, UInt32.toNat_ofNat_of_lt' (by rw [UInt32.size]; omega), hdty] at hty
    contradiction
  | dotdot name =>
    obtain ⟨hsome, hpar⟩ := h.parent _ _ hd
    obtain ⟨z, hz⟩ := Option.isSome_iff_exists.mp hsome
    have hlt := (h.lt _ z hz).1
    rw [DirEntry.new_iNo, UInt32.toNat_ofNat_of_lt' (by rw [UInt32.size]; omega), hpar] at hty
    contradiction
  | child proper slot entry =>
    obtain ⟨i, hi, k, hk, ho, hent⟩ := slot
    rw [hx] at hent
    rw [hno]
    exact ⟨i, hi, k, hk, ho, e, hent, entry, rfl⟩

/-- A regular file that no entry of the file table has is not open. -/
theorem Fs.Holds.file_closed {a : Nat} {i : Inode} (h : s.Holds part strict T)
    (hty : T.type n.toNat = .regular)
    (unused : ∀ g a, (s.fileTable g).fdInode = some a → ∃ ino, s.inode? a = some ino ∧ ino.iNo ≠ n)
    (hi : s.inode? a = some i) : i.iNo.toNat ≠ n.toNat := by
  intro heq
  have hcnt := h.mirrors.count a i hi (by rw [heq]; exact hty)
  have hpos := h.searchable.pos a i hi
  have hslot : 0 < s.slotCount a := by omega
  obtain ⟨g, hg⟩ := Finset.card_pos.mp hslot
  obtain ⟨i', hi', hne⟩ := unused g a (Finset.mem_filter.mp hg).2
  rw [hi, Option.some.injEq] at hi'
  rw [← hi'] at hne
  exact hne (UInt32.toNat_inj.mp heq)

theorem Unlinked.holds {r : Int × Fs} (hu : Unlinked part s f r) (h : s.Holds part strict T)
    (hf : T.Searched (s.vol.image part) path.chars f)
    : ∃ F, FileUnlinked (T.files (s.vol.image part)) f.no.toNat r.1 F
        ∧ r.2.HoldsNext part strict T (fun _ => False) F := by
  cases hu with
  | quit => exact ⟨_, .refused, h.next⟩
  | done found nonzero file unused parent delete release close =>
    rename_i p p' ok v v' s'
    cases hf with
    | root => contradiction
    | noName unnamed => contradiction
    | located hf =>
      cases hf with
      | missing split isDir proper => contradiction
      | directory split isDir node finds type => contradiction
      | regular split isDir node finds type =>
        rename_i dir pre post c x e
        dsimp only at unused parent delete release close
        have hat := h.atDir isDir
        have hvol : (s.atDir part dir).2.vol = s.vol := Fs.atDir_vol
        obtain ⟨hno, hnode⟩ := h.parent isDir parent
        have hx : x = p.pure := by
          rw [node, Option.some.injEq] at hnode
          exact hnode
        have hR : T.Removable ((s.atDir part dir).2.vol.image part) p e.iNo := by
          rw [hvol]
          exact .of_finds h.tree node isDir.2 finds type hx (congrArg UInt32.toNat hno)
        have hdel : (deleteDirEntry part p e.iNo).run (s.atDir part dir).2.vol
            = .ok ((ok, p'), v) := by
          rw [hvol]
          exact delete
        have hne := hat.removable_ne hR
        obtain ⟨hT, hS, hfiles⟩ := hat.removed parent hR hdel release
        rw [hvol] at hfiles
        have hsame := deleteDirEntry_sameOpen _ _ delete
        have hmir : (s.dirSet part dir p' v').Mirrors
            (T.change p.iNo.toNat p'.pure e.iNo.toNat 0).node T.type :=
          hat.mirrors_delete parent hsame
        rw [hno] at hT hS hmir hne hfiles
        obtain ⟨y, hy⟩ := Option.isSome_iff_exists.mp (h.tree.finds_node node isDir.2 finds).1
        obtain ⟨extra, hcount⟩ := h.counted
        have hset := hcount.dirSet (v := v') parent hsame
        have hvol' := dirClosed_vol close
        refine ⟨_, .done (Tree.files_of_node hy type), _,
          Fs.Holds.dirClosed ⟨hT, hS, ?_, _, hset⟩ hset close ?_, ?_,
          by rw [hvol']; exact hfiles⟩
        . apply hmir.update (m := e.iNo.toNat)
          . intro a i hi
            cases h.dirSet_open isDir parent hsame hi with
            | inl hdir =>
              rw [hdir]
              exact Ne.symm hne
            | inr hopen => exact hat.file_closed type unused hopen
          . intro k hk
            exact Tree.setNode_of_ne hk
          . intro k hk
            rfl
        . intro ino hino
          rw [Fs.dirSet_inode? parent, Option.some.injEq] at hino
          rw [← hino, ← hsame.1, hno]
          have hdir : T.type (dir.getD 0).toNat ≠ .regular := by
            rw [isDir.2]
            decide
          exact hdir
        . intro n hn _
          apply Tree.removed_isDir node hn
          intro heq
          have hdir := hn.2
          rw [heq, type] at hdir
          contradiction

end Remove

end RogOS
