import RogOS.Fs.Invariant.Count

/-!
The entries of the file table that write to an inode. `write_deny` keeps them apart in the runs in
which it is set by every writer, tested before the entry is taken and cleared by the writer only.
-/

namespace RogOS

variable {part : Partition} {s s' t : Fs} {task addr : Nat} {junk : UInt32} {path : CStr}
  {flags : UInt8}
  {f : Found} {g : Fin 32} {extra : Nat → Nat}

def Fs.Writer (s : Fs) (g : Fin 32) (addr : Nat) : Prop :=
  (s.fileTable g).fdInode = some addr ∧ writes (s.fileTable g).fdFlag = true

def Fs.SingleWriter (s : Fs) : Prop := ∀ addr g g', s.Writer g addr → s.Writer g' addr → g = g'

def Call.OpensOrCloses : Call → Prop
  | .open_ _ _ _ _ => True
  | .close _ _ => True
  | _ => False

/--
The calls that leave `write_deny` to the writer: a file is opened for writing only if none of its
entries has set `write_deny` or was made by `file_create` for writing, and an entry that does not
write is closed only while `write_deny` is clear.
-/
def Fs.RespectsDeny (part : Partition) (s : Fs) : Call → Prop
  | .open_ _ junk path flags =>
    (s.search part junk path.chars).Reaches path flags → flags &&& oCreat = 0 → writes flags = true
      →
      ∀ g addr ino, (s.fileTable g).fdInode = some addr →
      s.inode? addr = some ino → ino.iNo = (s.search part junk path.chars).no
        → ino.writeDeny = false
        ∧ ¬ ((s.fileTable g).fdFlag &&& oCreat ≠ 0 ∧ writes (s.fileTable g).fdFlag = true)
  | .close task fd =>
    ∀ (i : Fin 8) (g : Fin 32) addr ino, fd = i.val → (s.tasks task).fdTable i = g.val →
      (s.fileTable g).fdInode = some addr → s.inode? addr = some ino →
        writes (s.fileTable g).fdFlag = false → ino.writeDeny = false
  | _ => True

structure Fs.WriteInv (s : Fs) : Prop where
  single : s.SingleWriter
  denied : ∀ g addr ino, s.Writer g addr → (s.fileTable g).fdFlag &&& oCreat = 0 →
    s.inode? addr = some ino → ino.writeDeny = true

section SameDeny

def Fs.SameDeny (s s' : Fs) : Prop :=
  ∀ a ino ino', s.inode? a = some ino → s'.inode? a = some ino' →
    ino'.iNo = ino.iNo ∧ ino'.writeDeny = ino.writeDeny

theorem Fs.WriteInv.of_sameDeny (h : s.WriteInv) (hs : s.Counted extra)
    (hfiles : s'.fileTable = s.fileTable) (hsame : s.SameDeny s') : s'.WriteInv := by
  constructor
  . intro addr g g'
    unfold Fs.Writer
    rw [hfiles]
    exact h.single addr g g'
  . intro g addr ino'
    unfold Fs.Writer
    rw [hfiles]
    intro hw hcreat hino'
    obtain ⟨ino, hino⟩ := hs.inode_of_slot hw.1
    rw [(hsame addr ino ino' hino hino').2]
    exact h.denied g addr ino hw hcreat hino

theorem Fs.SameDeny.refl : s.SameDeny s := by
  intro a ino ino' h1 h2
  rw [h1, Option.some.injEq] at h2
  rw [h2]
  exact ⟨rfl, rfl⟩

theorem Fs.SameDeny.updInode {u : Inode → Inode}
    (hu : ∀ ino, s.inode? addr = some ino → (u ino).iNo = ino.iNo ∧ (u ino).writeDeny
      = ino.writeDeny)
    : s.SameDeny (s.updInode addr u) := by
  intro a ino ino' h1 h2
  rw [Fs.inode?_updInode, h1] at h2
  split at h2
  . next ha =>
    rw [Option.map_some, Option.some.injEq] at h2
    rw [ha] at h1
    rw [← h2]
    exact hu ino h1
  . rw [Option.some.injEq] at h2
    rw [h2]
    exact ⟨rfl, rfl⟩

theorem Fs.SameDeny.pushInode {ino : Inode} (h : s.SameDeny t)
    : s.SameDeny (t.pushInode s.newAddr ino) := by
  intro a i i' h1 h2
  rw [Fs.inode?_pushInode] at h2
  split at h2
  . next ha =>
    rw [ha, Fs.inode?_newAddr] at h1
    contradiction
  . exact h a i i' h1 h2

theorem Fs.SameDeny.opened {n : UInt32} : s.SameDeny (s.opened part n).2 := by
  unfold Fs.opened
  split
  . exact Fs.SameDeny.updInode fun _ _ => ⟨rfl, rfl⟩
  . exact Fs.SameDeny.refl.pushInode

theorem Fs.SameDeny.closed {ino : Inode} : s.SameDeny (s.closed addr ino) := by
  unfold Fs.closed
  split
  . intro a i i' h1 h2
    rw [Fs.inode?_dropInode] at h2
    split at h2
    . contradiction
    . rw [h1, Option.some.injEq] at h2
      rw [h2]
      exact ⟨rfl, rfl⟩
  . exact Fs.SameDeny.updInode fun _ _ => ⟨rfl, rfl⟩

theorem Fs.SameDeny.atDir {dir : Option UInt32} : s.SameDeny (s.atDir part dir).2 := by
  cases dir with
  | none => exact Fs.SameDeny.refl
  | some d => exact Fs.SameDeny.opened

theorem Fs.SameDeny.dirClosed {dir : Option UInt32} {x : Fs} (hc : x.DirClosed part dir s s')
    : s.SameDeny s' := by
  obtain ⟨-, rfl⟩ | ⟨d, ino, -, -, rfl⟩ := hc.cases
  . exact Fs.SameDeny.refl
  . exact Fs.SameDeny.closed

theorem Fs.sameDeny_dirSet {p p' : Inode} {v : Vol} (hp : s.inode? addr = some p)
    (hsame : p.SameOpen p')
    : s.SameDeny (Fs.updInode { s with vol := v } addr fun _ => p') := by
  have hupd : Fs.SameDeny { s with vol := v } (Fs.updInode { s with vol := v } addr fun _ =>
      p') := by
    apply Fs.SameDeny.updInode
    intro ino hino
    have heq := hino.symm.trans hp
    rw [Option.some.injEq] at heq
    rw [heq]
    exact ⟨hsame.1.symm, hsame.2.2.symm⟩
  exact hupd

end SameDeny

section Calls

theorem Fs.WriteInv.takeSlot {x : File} (h : s.WriteInv) (hx : x.fdInode = some addr)
    (hnone : writes x.fdFlag = true → ∀ g', ¬ s.Writer g' addr)
    (hdeny : writes x.fdFlag = true → x.fdFlag &&& oCreat = 0 → ∀ ino, s.inode? addr = some ino
      → ino.writeDeny = true)
    : (s.setFile g x).WriteInv := by
  have hfiles : ∀ g', (s.setFile g x).fileTable g' = if g' = g then x else s.fileTable g' :=
    fun g' => Function.update_apply _ _ _ _
  have hcases : ∀ g' a, (s.setFile g x).Writer g' a → g' = g ∧ writes x.fdFlag = true ∧ a = addr
      ∨ g' ≠ g ∧ s.Writer g' a := by
    intro g' a hw
    unfold Fs.Writer at hw
    rw [hfiles] at hw
    split at hw
    . next heq =>
      rw [hx, Option.some.injEq] at hw
      exact .inl ⟨heq, hw.2, hw.1.symm⟩
    . next hne => exact .inr ⟨hne, hw⟩
  constructor
  . intro a g1 g2 h1 h2
    obtain ⟨heq1, hw, ha⟩ | ⟨-, hold1⟩ := hcases g1 a h1
    . obtain ⟨heq2, -, -⟩ | ⟨-, hold2⟩ := hcases g2 a h2
      . rw [heq1, heq2]
      . rw [ha] at hold2
        exact absurd hold2 (hnone hw g2)
    . obtain ⟨-, hw, ha⟩ | ⟨-, hold2⟩ := hcases g2 a h2
      . rw [ha] at hold1
        exact absurd hold1 (hnone hw g1)
      . exact h.single a g1 g2 hold1 hold2
  . intro g' a ino hw hcreat hino
    rw [hfiles] at hcreat
    obtain ⟨heq, hwrites, ha⟩ | ⟨hne, hold⟩ := hcases g' a hw
    . rw [if_pos heq] at hcreat
      rw [ha] at hino
      exact hdeny hwrites hcreat ino hino
    . rw [if_neg hne] at hcreat
      exact h.denied g' a ino hold hcreat hino

theorem Fs.WriteInv.leaveSlot {x : File} (h : s.WriteInv) (hx : x.fdInode = none)
    : (s.setFile g x).WriteInv := by
  have hfiles : ∀ g', (s.setFile g x).fileTable g' = if g' = g then x else s.fileTable g' :=
    fun g' => Function.update_apply _ _ _ _
  have hold : ∀ g' a, (s.setFile g x).Writer g' a → g' ≠ g ∧ s.Writer g' a := by
    intro g' a hw
    unfold Fs.Writer at hw
    rw [hfiles] at hw
    split at hw
    . rw [hx] at hw
      exact absurd hw.1 (by simp)
    . next hne => exact ⟨hne, hw⟩
  constructor
  . intro a g1 g2 h1 h2
    exact h.single a g1 g2 (hold g1 a h1).2 (hold g2 a h2).2
  . intro g' a ino hw hcreat hino
    rw [hfiles, if_neg (hold g' a hw).1] at hcreat
    exact h.denied g' a ino (hold g' a hw).2 hcreat hino

theorem Fs.WriteInv.installed (h : s.WriteInv) : (s.installed task g).2.WriteInv := by
  obtain ⟨-, heq⟩ | ⟨fd, -, heq⟩ := @Fs.installed_cases s task g
  . rw [heq]
    exact h
  . rw [heq]
    exact ⟨h.single, h.denied⟩

theorem FileCreated.writeInv {parentDir : DirRef} {filename : List UInt8} {r : Int × Fs}
    (h : FileCreated part task parentDir filename flags s r) (hs : s.Counted extra)
    (hw : s.WriteInv) (hcreat : flags &&& oCreat ≠ 0) : r.2.WriteInv := by
  cases h with
  | noInode alloc => exact ⟨hw.single, hw.denied⟩
  | noSlot alloc slot undo => exact ⟨hw.single, hw.denied⟩
  | noEntry alloc slot parent entry undo =>
    rename_i n v v1 v' p p' fdIdx
    have hsame := syncDirEntryWith_sameOpen _ _ entry
    have hleave := hw.leaveSlot (g := fdIdx) (x := ⟨0, 0, none⟩) rfl
    have hcount :=
      hs.setFile (i := fdIdx) (f := ⟨0, 0, none⟩) (getFreeSlotInGlobal_eq_some slot).2.symm
    have hfiles :
        (Fs.updInode { s.setFile fdIdx ⟨0, 0, none⟩ with vol := v' } (s.dirInode parentDir)
        fun _ => p').fileTable = (s.setFile fdIdx ⟨0, 0, none⟩).fileTable := rfl
    apply hleave.of_sameDeny hcount hfiles
    exact Fs.sameDeny_dirSet parent hsame
  | made alloc slot parent length entered =>
    rename_i n v v' p p' fdIdx
    obtain ⟨v1, v2, v3, hsync, -⟩ := entered.runs
    have hsame := syncDirEntryWith_sameOpen _ _ hsync
    apply Fs.WriteInv.installed
    rw [Fs.created_eq]
    have hupd : s.SameDeny (Fs.updInode { s with vol := v' } (s.dirInode parentDir) fun _ => p') :=
      Fs.sameDeny_dirSet parent hsame
    have hpush : (Fs.pushInode (Fs.updInode { s with vol := v' } (s.dirInode parentDir) fun _ => p')
        s.newAddr { inodeInit n with iOpenCnts := 1 }).WriteInv :=
      hw.of_sameDeny hs rfl hupd.pushInode
    apply hpush.takeSlot rfl
    . intro _ g' hwriter
      obtain ⟨ino, hino⟩ :=
        hs.inode_of_slot (show (s.fileTable g').fdInode = some s.newAddr from hwriter.1)
      rw [Fs.inode?_newAddr] at hino
      contradiction
    . intro _ hzero
      exact absurd hzero hcreat

theorem Fs.AddrNodup.iNo_of_opened {n : UInt32} {ino : Inode} (hs : s.AddrNodup)
    (h : s.inode? (s.opened part n).1 = some ino) : ino.iNo = n := by
  unfold Fs.opened at h
  cases hfind : s.find? n with
  | none =>
    rw [hfind] at h
    dsimp only at h
    rw [Fs.inode?_newAddr] at h
    contradiction
  | some p =>
    rw [hfind] at h
    obtain ⟨hp, hno⟩ := hs.find?_eq_some hfind
    dsimp only at h
    rw [hp, Option.some.injEq] at h
    rw [← h]
    exact hno

theorem Fs.WriteInv.setDeny (h : s.WriteInv) (addr : Nat)
    : (s.updInode addr fun i => { i with writeDeny := true }).WriteInv := by
  refine ⟨h.single, ?_⟩
  intro g a ino hw hcreat hino
  rw [Fs.inode?_updInode] at hino
  split at hino
  . rw [Option.map_eq_some_iff] at hino
    obtain ⟨_, -, heq⟩ := hino
    rw [← heq]
  . exact h.denied g a ino hw hcreat hino

theorem FileOpened.writeInv {n : UInt32} {r : Int × Fs} (h : FileOpened part task n flags s r)
    (hs : s.Counted extra) (hw : s.WriteInv)
    (hsafe : writes flags = true → ∀ g addr ino, (s.fileTable g).fdInode = some addr
      → s.inode? addr = some ino →
      ino.iNo = n → ino.writeDeny = false
        ∧ ¬ ((s.fileTable g).fdFlag &&& oCreat ≠ 0 ∧ writes (s.fileTable g).fdFlag = true))
    : r.2.WriteInv := by
  have hfiles : (s.opened part n).2.fileTable = s.fileTable := by
    unfold Fs.opened
    split <;> rfl
  have hopen : (s.opened part n).2.WriteInv := hw.of_sameDeny hs hfiles Fs.SameDeny.opened
  -- no entry writes to the inode that was opened
  have hnone : writes flags = true → ∀ g, ¬ (s.opened part n).2.Writer g (s.opened part n).1 := by
    intro hwrites g hwriter
    have hwriter' : s.Writer g (s.opened part n).1 := by
      unfold Fs.Writer at hwriter ⊢
      rw [hfiles] at hwriter
      exact hwriter
    obtain ⟨ino, hino⟩ := hs.inode_of_slot hwriter'.1
    have hno := hs.addrs.iNo_of_opened hino
    obtain ⟨hclear, hcreat⟩ := hsafe hwrites g _ ino hwriter'.1 hino hno
    by_cases hflag : (s.fileTable g).fdFlag &&& oCreat = 0
    . rw [hw.denied g _ ino hwriter' hflag hino] at hclear
      contradiction
    . exact hcreat ⟨hflag, hwriter'.2⟩
  cases h with
  | noSlot slot => exact hw
  | denied slot inode write deny =>
    apply hopen.takeSlot rfl hnone
    intro _ _ ino hino
    rw [inode, Option.some.injEq] at hino
    rw [← hino]
    exact deny
  | write slot inode write allow =>
    apply Fs.WriteInv.installed
    have hdeny := hopen.setDeny (s.opened part n).1
    apply hdeny.takeSlot (x := ⟨0, flags, some (s.opened part n).1⟩) rfl hnone
    intro _ _ ino' hino'
    rw [Fs.inode?_updInode, if_pos rfl, Option.map_eq_some_iff] at hino'
    obtain ⟨_, -, heq⟩ := hino'
    rw [← heq]
  | read slot read =>
    apply Fs.WriteInv.installed
    apply hopen.takeSlot rfl hnone
    intro hwrites
    rw [show writes flags = true from hwrites] at read
    contradiction

theorem Fs.WriteInv.fileClosed {ino : Inode} (h : s.WriteInv) (hs : s.Counted extra)
    (hfd : (s.fileTable g).fdInode = some addr) (hino : s.inode? addr = some ino)
    (hsafe : writes (s.fileTable g).fdFlag = false → ino.writeDeny = false)
    : (s.fileClosed g addr ino).WriteInv := by
  have hswap : s.fileClosed g addr ino
      = Fs.closed ((s.setFile g { s.fileTable g with fdInode := none }).updInode addr
          fun i => { i with writeDeny := false }) addr { ino with writeDeny := false } := by
    unfold Fs.fileClosed Fs.closed
    split <;> rfl
  have hleave := h.leaveSlot (g := g) (x := { s.fileTable g with fdInode := none }) rfl
  -- no other entry that relies on `write_deny` is left
  have hupd : ((s.setFile g { s.fileTable g with fdInode := none }).updInode addr
      fun i => { i with writeDeny := false }).WriteInv := by
    refine ⟨hleave.single, ?_⟩
    intro g' a ino' hw hcreat hino'
    rw [Fs.inode?_updInode] at hino'
    split at hino'
    . next ha =>
      exfalso
      rw [ha] at hw
      have hne : g' ≠ g := by
        rintro rfl
        have := hw.1
        simp [Fs.updInode, Fs.setFile] at this
      have hfiles : ((s.setFile g { s.fileTable g with fdInode := none }).updInode addr
          fun i => { i with writeDeny := false }).fileTable g' = s.fileTable g' :=
            Function.update_of_ne hne _ _
      unfold Fs.Writer at hw
      rw [hfiles] at hw hcreat
      cases hwrites : writes (s.fileTable g).fdFlag with
      | true => exact hne (h.single addr g' g hw ⟨hfd, hwrites⟩)
      | false =>
        have hset := h.denied g' addr ino hw hcreat hino
        rw [hsafe hwrites] at hset
        contradiction
    . exact hleave.denied g' a ino' hw hcreat hino'
  have hcount := (hs.leaveSlot (f := { s.fileTable g with fdInode := none }) hfd rfl).updInode
    (f := fun i => { i with writeDeny := false }) fun i (_ : Fs.inode? _ addr = some i) => rfl
  rw [hswap]
  exact hupd.of_sameDeny hcount Fs.closed_fileTable Fs.SameDeny.closed

end Calls

section Runs

theorem SysOpened.writeInv {r : Int × Fs} (h : SysOpened part task path flags s f r)
    (hs : s.Counted extra) (hw : s.WriteInv)
    (hsafe : f.Reaches path flags → flags &&& oCreat = 0 → writes flags = true → ∀ g addr ino,
      (s.fileTable g).fdInode = some addr → s.inode? addr = some ino → ino.iNo = f.no
        → ino.writeDeny = false
        ∧ ¬ ((s.fileTable g).fdFlag &&& oCreat ≠ 0 ∧ writes (s.fileTable g).fdFlag = true))
    : r.2.WriteInv := by
  have hfiles : (s.atDir part f.dir).2.fileTable = s.fileTable := by
    cases f.dir with
    | none => rfl
    | some d =>
      simp only [Fs.atDir, Fs.opened]
      split <;> rfl
  have hat : (s.atDir part f.dir).2.WriteInv := hw.of_sameDeny hs hfiles Fs.SameDeny.atDir
  cases h with
  | quit => exact hw
  | create missing short type creat slash all name make close =>
    rename_i filename fd t s'
    have ht : t.WriteInv := make.writeInv hs.atDir hat creat
    exact ht.of_sameDeny (make.counted hs.atDir) close.fileTable (Fs.SameDeny.dirClosed close)
  | existing found type creat all open_ =>
    apply open_.writeInv hs.atDir hat
    intro hwrites g addr ino hg hino hno
    rw [hfiles] at hg ⊢
    obtain ⟨ino0, hino0⟩ := hs.inode_of_slot hg
    have hsame := Fs.SameDeny.atDir addr ino0 ino hino0 hino
    have hreach : f.Reaches path flags :=
      ⟨type, all, fun h => absurd h found, fun h => absurd creat h⟩
    rw [hsame.2]
    exact hsafe hreach creat hwrites g addr ino0 hg hino0 (hsame.1.symm.trans hno)

theorem sysClose_writeInv {fd : Int} {r : Int × Fs} (h : (sysClose task fd).run s = .ok r)
    (hs : s.Counted extra) (hw : s.WriteInv)
    (hsafe : s.RespectsDeny part (.close task fd)) : r.2.WriteInv := by
  obtain heq | ⟨i, fdIdx, addr, ino, hi, hfd, hslot, hino, heq⟩ := sysClose_run h
  . rw [heq]
    exact hw
  . rw [heq]
    have hclosed : (s.fileClosed fdIdx addr ino).WriteInv := by
      apply hw.fileClosed hs hslot hino
      exact hsafe i fdIdx addr ino hi.1 hfd hslot hino
    exact ⟨hclosed.single, hclosed.denied⟩

/--
In every run of opens and closes that leave `write_deny` to the writer, no inode has two writers.
-/
theorem singleWriter_of_reach {v : Vol} (hs : Mounted part v s)
    (hr : Cmd.Reach (Call.exec part) (fun s call => call.OpensOrCloses
      ∧ s.RespectsDeny part call) s s')
    : s'.SingleWriter := by
  have hinv : s'.WriteInv ∧ ∃ extra, s'.Counted extra := by
    apply Cmd.Reach.invariant (P := fun s => s.WriteInv ∧ ∃ extra, s.Counted extra) _ _ hr
    . intro s call x s' hp hcall hrun
      obtain ⟨hw, extra, hc⟩ := hp
      cases call with
      | open_ task junk path flags =>
        rw [Call.exec, Cmd.map_run] at hrun
        obtain ⟨fd, hrun, -⟩ := hrun
        have hopened := sysOpen_run hc.searchable hrun
        refine ⟨hopened.writeInv hc hw hcall.2, ?_⟩
        cases hopened.counted hc with
        | inl hcounted => exact ⟨_, hcounted⟩
        | inr hcounted => exact ⟨_, hcounted.2⟩
      | close task fd =>
        rw [Call.exec, Cmd.map_run] at hrun
        obtain ⟨_, hrun, -⟩ := hrun
        exact ⟨sysClose_writeInv hrun hc hw hcall.2, extra, sysClose_counted hrun hc⟩
      | _ => exact absurd hcall.1 id
    . refine ⟨⟨?_, ?_⟩, _, hs.counted⟩
      . intro addr g g' hw
        rw [hs.eq] at hw
        exact absurd hw.1 (by simp [Fs.init, Fs.pushInode])
      . intro g addr ino hw
        rw [hs.eq] at hw
        exact absurd hw.1 (by simp [Fs.init, Fs.pushInode])
  exact hinv.1.single

instance {g : Fin 32} : Decidable (s.Writer g addr) := inferInstanceAs (Decidable (_ ∧ _))

def Fs.filesAll (s : Fs) (p : Fin 32 → Inode → Bool) : Bool :=
  (List.finRange 32).all fun g =>
    match (s.fileTable g).fdInode.bind s.inode? with
    | none => true
    | some ino => p g ino

theorem Fs.filesAll_apply {p : Fin 32 → Inode → Bool} {ino : Inode} (h : s.filesAll p = true)
    (haddr : (s.fileTable g).fdInode = some addr) (hino : s.inode? addr = some ino)
    : p g ino = true := by
  have hg := List.all_eq_true.mp h g (List.mem_finRange g)
  rw [haddr, Option.bind_some, hino] at hg
  exact hg

def Fs.respectsDeny (s : Fs) : Call → Bool
  | .open_ _ _ _ flags => flags &&& oCreat ≠ 0 || !writes flags || s.filesAll fun g ino =>
    !ino.writeDeny && ((s.fileTable g).fdFlag &&& oCreat = 0 || !writes (s.fileTable g).fdFlag)
  | .close task fd => (List.finRange 8).all fun i => fd ≠ i.val || s.filesAll fun g ino =>
    (s.tasks task).fdTable i ≠ g.val || writes (s.fileTable g).fdFlag || !ino.writeDeny
  | _ => false

theorem Fs.respectsDeny_apply {call : Call} (h : s.respectsDeny call = true)
    : call.OpensOrCloses ∧ s.RespectsDeny part call := by
  cases call with
  | open_ task junk path flags =>
    refine ⟨trivial, ?_⟩
    intro _ hcreat hwrites g addr ino haddr hino _
    simp only [Fs.respectsDeny, hcreat, hwrites] at h
    have hp := Fs.filesAll_apply (by simpa using h) haddr hino
    simp only [Bool.and_eq_true, Bool.not_eq_true', Bool.or_eq_true, decide_eq_true_eq] at hp
    refine ⟨hp.1, ?_⟩
    rintro ⟨hflag, hw⟩
    obtain hflag' | hw' := hp.2
    . exact hflag hflag'
    . rw [hw] at hw'
      contradiction
  | close task fd =>
    refine ⟨trivial, ?_⟩
    intro i g addr ino hfd hslot haddr hino hno
    have hi := List.all_eq_true.mp h i (List.mem_finRange i)
    simp only [hfd, ne_eq, not_true_eq_false, decide_false, Bool.false_or] at hi
    have hp := Fs.filesAll_apply hi haddr hino
    simpa [hslot, hno] using hp
  | _ => contradiction

def laterWriter : List Call :=
  [.open_ 0 0 pathF 4, .open_ 1 0 pathF 0, .close 1 3, .open_ 1 0 pathF 1, .close 1 3,
    .open_ 2 0 pathF 2]

theorem singleWriter_of_reach_laterWriter
    : (Cmd.afterAll (Call.exec smallPartition) laterWriter smallFs).SingleWriter
      ∧ (Cmd.afterAll (Call.exec smallPartition) laterWriter smallFs).Writer 4 1 := by
  constructor
  . apply singleWriter_of_reach mounted_smallFs
    apply Cmd.reach_of_returnsWhile (k := Fs.respectsDeny)
    . intro s call _ hok
      exact Fs.respectsDeny_apply hok
    . decide +kernel
  . decide +kernel

/-- A file that was created for writing can be opened for writing again. -/
theorem not_singleWriter
    : ¬ ∀ (part : Partition) (v : Vol) (s s' : Fs), Mounted part v s →
        Cmd.Reach (Call.exec part) (fun _ call => call.OpensOrCloses) s s' → s'.SingleWriter := by
  intro h
  have hr : Cmd.Reach (Call.exec smallPartition) (fun _ call => call.OpensOrCloses) smallFs
      (Cmd.afterAll (Call.exec smallPartition) [.open_ 0 0 pathF 5,
        .open_ 1 0 pathF 1] smallFs) := by
    apply Cmd.reach_of_returnsAll
    . intro call hcall s
      simp only [List.mem_cons, List.not_mem_nil, or_false] at hcall
      obtain rfl | rfl := hcall <;> exact trivial
    . decide +kernel
  have htwo := h smallPartition _ smallFs _ mounted_smallFs hr 1 3 4 (by decide +kernel)
    (by decide +kernel)
  exact absurd htwo (by decide)

end Runs

end RogOS
