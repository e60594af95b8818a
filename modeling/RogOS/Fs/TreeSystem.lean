import RogOS.Fs.Descriptors
import RogOS.Fs.Invariant.Directories
import RogOS.Fs.Invariant.Formatted
import RogOS.Fs.Lemmas.FileRead

/-!
Runs of the system calls on a partition that was just formatted: the volume holds a tree of files
and directories, and the working directories of all tasks are in it.
-/

namespace RogOS

variable {part : Partition} {strict : Bool} {s s' t : Fs} {T : Tree} {task : Nat} {n junk : UInt32}
  {f : Found}
  {path : CStr} {flags : UInt8}

inductive TreeCall where
  | call (c : Call)
  | read (task : Nat) (kbd : Mem) (fd : Int) (buf : Mem) (count : UInt32)
  | lseek (task : Nat) (fd : Int) (offset : Int32) (whence : Nat)
  | fork (pages : Bool) (parent child : Nat)

def TreeCall.exec (part : Partition) : TreeCall → FsM Value
  | .call c => c.exec part
  | .read task kbd fd buf count => do
    let r ← sysRead task kbd fd buf count
    pure (.int r.1)
  | .lseek task fd offset whence => do pure (.int (← sysLseek task fd offset whence))
  | .fork pages parent child => do
    let ok ← forkFiles pages parent child
    pure (.int (if ok then child else -1))

/--
The calls that keep the tree. A file or a directory is made while there is room for it, a directory
is removed while no task has it open or works in it, and a directory is looked for by a path with a
name. A task forks while it has no file open.
-/
def Fs.Allows (part : Partition) (strict : Bool) (s : Fs) : TreeCall → Prop
  | .call (.open_ _ junk path flags) => (s.search part junk path.chars).no = notFound
      → flags &&& oCreat ≠ 0 →
    s.Room part strict ((s.search part junk path.chars).dir.getD 0)
  | .call (.mkdir junk path) => (s.search part junk path.chars).no = notFound →
    s.Room part strict ((s.search part junk path.chars).dir.getD 0)
  | .call (.rmdir junk path) => s.MayRemove path.chars (s.search part junk path.chars)
    ∧ ∀ k, (s.tasks k).cwdInodeNr ≠ (s.search part junk path.chars).no
  | .call (.opendir _ path) => Named path.chars
  | .call (.chdir _ _ path) => Named path.chars
  | .fork _ parent _ => ∀ fd : Fin 8, 3 ≤ fd.val → (s.tasks parent).fdTable fd = -1
  | _ => True

section Cwds

def Fs.SameCwds (s s' : Fs) : Prop := ∀ k, (s'.tasks k).cwdInodeNr = (s.tasks k).cwdInodeNr

theorem Fs.SameCwds.of_tasks (h : s'.tasks = s.tasks) : s.SameCwds s' := by
  intro k
  rw [h]

theorem Fs.SameCwds.setFd {fd : Fin 8} {g : Int} (h : s'.tasks = (s.setFd task fd g).tasks)
    : s.SameCwds s' := by
  intro k
  rw [h]
  simp only [Fs.setFd, Function.update_apply]
  split
  . next heq => rw [heq]
  . rfl

theorem Fs.DirClosed.tasks {dir : Option UInt32} (h : s.DirClosed part dir t s')
    : s'.tasks = t.tasks := by
  obtain ⟨-, rfl⟩ | ⟨d, ino, -, -, rfl⟩ := h.cases
  . rfl
  . exact Fs.closed_tasks

theorem FdGiven.sameCwds {r : Int × Fs} (h : FdGiven task s r) : s.SameCwds r.2 := by
  cases h with
  | refused tasks => exact .of_tasks tasks
  | given above free slot used tasks => exact .setFd tasks

theorem Unlinked.tasks {r : Int × Fs} (h : Unlinked part s f r) : r.2.tasks = s.tasks := by
  cases h with
  | quit => rfl
  | done found nonzero file unused parent delete release close =>
    rw [close.tasks]
    exact Fs.atDir_tasks

theorem DirMade.tasks {r : Int × Fs} (h : DirMade part s f r) : r.2.tasks = s.tasks := by
  cases h with
  | quit => rfl
  | done missing short name parent make close =>
    rw [close.tasks]
    exact Fs.atDir_tasks

theorem Fs.atChild_tasks : (s.atChild part f).2.tasks = s.tasks := by
  have hat : (s.atDir part f.dir).2.tasks = s.tasks := Fs.atDir_tasks
  rw [← hat]
  exact Fs.opened_tasks

theorem DirRemoved.tasks {r : Int × Fs} (h : DirRemoved part s f r) : r.2.tasks = s.tasks := by
  cases h with
  | quit => rfl
  | done found nonzero dir child empty blocks parent delete release open_ close =>
    rw [close.tasks, Fs.closed_tasks]
    exact Fs.atChild_tasks

theorem DirOpened.tasks {r : Option DirPtr × Fs} (h : DirOpened part s f r)
    : r.2.tasks = s.tasks := by
  cases h with
  | quit => rfl
  | done found dir close =>
    have hclose := close.tasks
    exact hclose.trans Fs.atChild_tasks

theorem sysClosedir_tasks {ptr : Option DirPtr} {r : Int × Fs} (h : (sysClosedir ptr).run s = .ok r)
    : r.2.tasks = s.tasks := by
  cases sysClosedir_run h with
  | inl heq => rw [heq]
  | inr hex =>
    obtain ⟨id, d, ino, -, -, -, rfl⟩ := hex
    exact Fs.closed_tasks

theorem sysClose_sameCwds {fd : Int} {r : Int × Fs} (h : (sysClose task fd).run s = .ok r)
    : s.SameCwds r.2 := by
  obtain heq | ⟨i, g, addr, ino, -, -, -, -, heq⟩ := sysClose_run h
  . rw [heq]
    exact .of_tasks rfl
  . rw [heq]
    have htasks : (s.fileClosed g addr ino).tasks = s.tasks := by
      unfold Fs.fileClosed
      exact Fs.closed_tasks
    apply @Fs.SameCwds.setFd s _ task i (-1)
    simp only [Fs.setFd, htasks]

theorem writeFile_tasks {g : Fin 32} {buf : Mem} {count : UInt32} {r : Int × Fs}
    (h : (writeFile part g buf count).run s = .ok r) : r.2.tasks = s.tasks := by
  simp only [writeFile, Cmd.bind_run, Cmd.get_run] at h
  obtain ⟨_, _, h1, h2⟩ := h
  cases h1
  split at h2
  . exact absurd h2 Cmd.throw_run
  . simp only [Cmd.bind_run, onInode_run, Cmd.modify_run, Cmd.pure_run] at h2
    obtain ⟨q, s1, ⟨ino, ino', v, -, -, hs1⟩, _, _, h3, h4⟩ := h2
    cases h3
    rw [h4, hs1]
    rfl

end Cwds

section Positions

variable {buf : Mem} {count : UInt32} {fd : Int}

inductive Fs.Moved (s : Fs) : Fs → Prop
  | stay : Moved s s
  | read {g : Fin 32} {addr : Nat} {ino : Inode} {buf : Mem} {count : UInt32}
      {r : Int × Mem × UInt32} {v : Vol}
      (slot : (s.fileTable g).fdInode = some addr) (inode : s.inode? addr = some ino)
      (read : (fileRead (s.fileTable g).fdPos ino buf count).run s.vol = .ok (r, v))
    : Moved s (s.setFile g { s.fileTable g with fdPos := r.2.2 })
  | seek {g : Fin 32} {addr : Nat} {ino : Inode} {newPos : Int32}
      (slot : (s.fileTable g).fdInode = some addr)
      (inode : s.inode? addr = some ino) (range : ¬ (newPos < 0 ∨ ino.iSize.toInt32 - 1 < newPos))
    : Moved s (s.setFile g { s.fileTable g with fdPos := newPos.toUInt32 })

theorem Fs.Moved.setFile_cases (h : s.Moved s')
    : s' = s ∨ ∃ g pos, s' = s.setFile g { s.fileTable g with fdPos := pos } := by
  cases h with
  | stay => exact .inl rfl
  | read slot inode read => exact .inr ⟨_, _, rfl⟩
  | seek slot inode range => exact .inr ⟨_, _, rfl⟩

theorem Fs.Moved.holds (h : s.Moved s') (hs : s.Holds part strict T) : s'.Holds part strict T := by
  obtain rfl | ⟨g, pos, rfl⟩ := h.setFile_cases
  . exact hs
  . obtain ⟨extra, hcount⟩ := hs.counted
    exact ⟨hs.tree, hs.stored, hs.mirrors.setFile rfl, extra, hcount.setFile rfl⟩

theorem Fs.Moved.tasks (h : s.Moved s') : s'.tasks = s.tasks := by
  obtain rfl | ⟨g, pos, rfl⟩ := h.setFile_cases
  . rfl
  . rfl

theorem fdLocal2Global_state {n : Nat} {r : Fin 32 × Fs} (h : (fdLocal2Global task n).run s = .ok r)
    : r.2 = s := by
  simp only [fdLocal2Global, Cmd.bind_run, Cmd.get_run] at h
  obtain ⟨_, _, h1, h2⟩ := h
  cases h1
  split at h2
  . split at h2
    . rw [Cmd.pure_run] at h2
      rw [h2]
    . exact absurd h2 Cmd.throw_run
  . exact absurd h2 Cmd.throw_run

theorem readFile_moved {g : Fin 32} {r : (Int × Mem) × Fs}
    (h : (readFile g buf count).run s = .ok r) : s.Moved r.2 := by
  simp only [readFile, Cmd.bind_run, Cmd.get_run] at h
  obtain ⟨_, _, h1, h2⟩ := h
  cases h1
  split at h2
  . exact absurd h2 Cmd.throw_run
  . next addr haddr =>
    simp only [Cmd.bind_run, derefInode_run, onVol_run, Cmd.modify_run, Cmd.pure_run] at h2
    obtain ⟨ino, _, ⟨_, hino, h3⟩, q, s1, ⟨v, hread, hs1⟩, _, _, h4, h5⟩ := h2
    cases h3
    cases h4
    have hv : v = s.vol := fileRead_keeps _ _ hread
    have hs : s1 = s := by
      rw [hs1, hv]
    rw [h5, hs]
    exact .read haddr hino hread

theorem sysRead_moved {kbd : Mem} {r : (Int × Mem) × Fs}
    (h : (sysRead task kbd fd buf count).run s = .ok r)
    : s.Moved r.2 := by
  unfold sysRead at h
  split at h
  . rw [Cmd.pure_run] at h
    rw [h]
    exact .stay
  . split at h
    . rw [Cmd.pure_run] at h
      rw [h]
      exact .stay
    . rw [Cmd.bind_run] at h
      obtain ⟨g, s1, h1, h2⟩ := h
      have hs1 : s1 = s := fdLocal2Global_state h1
      rw [hs1] at h2
      exact readFile_moved h2

theorem sysLseek_moved {offset : Int32} {whence : Nat} {r : Int × Fs}
    (h : (sysLseek task fd offset whence).run s = .ok r) : s.Moved r.2 := by
  unfold sysLseek at h
  split at h
  . rw [Cmd.pure_run] at h
    rw [h]
    exact .stay
  . simp only [Cmd.bind_run, Cmd.assert_run, Cmd.get_run] at h
    obtain ⟨_, _, ⟨-, h1⟩, g, s1, h2, _, _, h3, h4⟩ := h
    cases h1
    cases h3
    have hs1 : s1 = s := fdLocal2Global_state h2
    rw [hs1] at h4
    split at h4
    . exact absurd h4 Cmd.throw_run
    . next addr haddr =>
      simp only [Cmd.bind_run, derefInode_run] at h4
      obtain ⟨ino, _, ⟨_, hino, h5⟩, h6⟩ := h4
      cases h5
      generalize (if whence = seekSet then offset
        else if whence = seekCur then (s.fileTable g).fdPos.toInt32 + offset
        else ino.iSize.toInt32 + offset) = newPos at h6
      split at h6
      . rw [Cmd.pure_run] at h6
        rw [h6]
        exact .stay
      . next hrange =>
        simp only [Cmd.bind_run, Cmd.modify_run, Cmd.pure_run] at h6
        obtain ⟨_, _, h7, h8⟩ := h6
        cases h7
        rw [h8]
        exact .seek haddr hino hrange

end Positions

section Fork

theorem updateInodeOpenCnts_go_of_closed {l : List (Fin 8)}
    (hfds : ∀ fd ∈ l, (s.tasks task).fdTable fd = -1) {r : Unit × Fs}
    (h : (updateInodeOpenCnts.go task l).run s = .ok r) : r.2 = s := by
  induction l with
  | nil =>
    rw [updateInodeOpenCnts.go, Cmd.pure_run] at h
    rw [h]
  | cons fd rest ih =>
    simp only [updateInodeOpenCnts.go, Cmd.bind_run, Cmd.get_run, Cmd.assert_run] at h
    obtain ⟨_, _, h1, _, _, ⟨-, h2⟩, h3⟩ := h
    cases h1
    cases h2
    rw [if_neg (by simp [hfds fd List.mem_cons_self])] at h3
    exact ih (fun fd' hfd' => hfds fd' (List.mem_cons_of_mem _ hfd')) h3

theorem forkFiles_of_closed {pages : Bool} {parent child : Nat}
    (hfds : ∀ fd : Fin 8, 3 ≤ fd.val → (s.tasks parent).fdTable fd = -1)
    {r : Bool × Fs} (h : (forkFiles pages parent child).run s = .ok r)
    : r.2 = s ∨ r.2 = { s with tasks := Function.update s.tasks child (s.tasks parent) } := by
  unfold forkFiles at h
  split at h
  . simp only [Cmd.bind_run, Cmd.modify_run, Cmd.pure_run] at h
    obtain ⟨_, _, h1, _, s2, h2, h3⟩ := h
    cases h1
    right
    rw [h3]
    refine updateInodeOpenCnts_go_of_closed ?_ h2
    intro fd hfd
    simp only [Function.update_self]
    apply hfds
    simp only [List.mem_cons, List.not_mem_nil, or_false] at hfd
    obtain rfl | rfl | rfl | rfl | rfl := hfd <;> decide
  . rw [Cmd.pure_run] at h
    rw [h]
    exact .inl rfl

end Fork

section Runs

def Fs.HoldsTree (part : Partition) (strict : Bool) (s : Fs) : Prop :=
  ∃ T, s.Holds part strict T ∧ ∀ k, T.IsDir (s.tasks k).cwdInodeNr

theorem Fs.HoldsNext.holdsTree {gone : UInt32 → Prop} {F : Nat → Option (List UInt8)}
    (h : s'.HoldsNext part strict T gone F) (hsame : s.SameCwds s')
    (hcwds : ∀ k, T.IsDir (s.tasks k).cwdInodeNr) (hgone : ∀ k, ¬ gone (s.tasks k).cwdInodeNr)
    : s'.HoldsTree part strict := by
  obtain ⟨T', hT', hdirs, -⟩ := h
  refine ⟨T', hT', ?_⟩
  intro k
  rw [hsame k]
  exact hdirs _ (hcwds k) (hgone k)

theorem Fs.Holds.holdsTree (h : s'.Holds part strict T) (hsame : s.SameCwds s')
    (hcwds : ∀ k, T.IsDir (s.tasks k).cwdInodeNr)
    : s'.HoldsTree part strict := by
  have hnext : s'.HoldsNext part strict T (fun _ => False) _ := h.next
  exact hnext.holdsTree hsame hcwds fun _ hfalse => hfalse

theorem Call.holdsTree {c : Call} {x : Value} (h : s.HoldsTree part strict)
    (hallow : s.Allows part strict (.call c))
    (hrun : (c.exec part).run s = .ok (x, s')) : s'.HoldsTree part strict := by
  obtain ⟨T, hT, hcwds⟩ := h
  have hs := hT.searchable
  cases c with
  | open_ task junk path flags =>
    rw [Call.exec, Cmd.map_run] at hrun
    obtain ⟨fd, hrun, -⟩ := hrun
    have hopened := sysOpen_run hs hrun
    obtain ⟨_, -, hnext⟩ := hopened.holds hT hT.searched hallow
    exact hnext.holdsTree hopened.fdGiven.sameCwds hcwds fun _ hfalse => hfalse
  | close task fd =>
    rw [Call.exec, Cmd.map_run] at hrun
    obtain ⟨_, hrun, -⟩ := hrun
    exact (sysClose_holds hrun hT).holdsTree (sysClose_sameCwds hrun) hcwds
  | write task fd buf count =>
    rw [Call.exec, Cmd.map_run] at hrun
    obtain ⟨_, hrun, -⟩ := hrun
    have htasks : s'.tasks = s.tasks := by
      cases sysWrite_run hrun with
      | inl heq =>
        have hsame := heq.1
        dsimp only at hsame
        rw [hsame]
      | inr hw =>
        obtain ⟨-, g, -, -, hw⟩ := hw
        exact writeFile_tasks hw
    obtain ⟨_, -, hnext⟩ := sysWrite_holds hrun hT
    exact hnext.holdsTree (.of_tasks htasks) hcwds fun _ hfalse => hfalse
  | unlink junk path =>
    rw [Call.exec, Cmd.map_run] at hrun
    obtain ⟨_, hrun, -⟩ := hrun
    have hunlinked := sysUnlink_run hs hrun
    obtain ⟨_, -, hnext⟩ := hunlinked.holds hT hT.searched
    exact hnext.holdsTree (.of_tasks hunlinked.tasks) hcwds fun _ hfalse => hfalse
  | mkdir junk path =>
    rw [Call.exec, Cmd.map_run] at hrun
    obtain ⟨_, hrun, -⟩ := hrun
    have hmade := sysMkdir_run hs hrun
    exact (hmade.holds hT hT.searched hallow).holdsTree (.of_tasks hmade.tasks) hcwds
      fun _ hfalse => hfalse
  | rmdir junk path =>
    rw [Call.exec, Cmd.map_run] at hrun
    obtain ⟨i, hrun, -⟩ := hrun
    have hremoved := sysRmdir_run hs hrun
    exact (hremoved.holds hT hT.searched hallow.1).holdsTree (.of_tasks hremoved.tasks) hcwds
      hallow.2
  | opendir junk path =>
    rw [Call.exec, Cmd.map_run] at hrun
    obtain ⟨_, hrun, -⟩ := hrun
    cases sysOpendir_run hs hrun with
    | inl hroot =>
      have heq : s' = s := congrArg Prod.snd hroot.2
      rw [heq]
      exact ⟨T, hT, hcwds⟩
    | inr hopened =>
      exact (hopened.2.holds hT hT.searched hallow).holdsTree (.of_tasks hopened.2.tasks) hcwds
  | closedir dir =>
    rw [Call.exec, Cmd.map_run] at hrun
    obtain ⟨_, hrun, -⟩ := hrun
    exact (sysClosedir_holds hrun hT).holdsTree (.of_tasks (sysClosedir_tasks hrun)) hcwds
  | chdir task junk path =>
    rw [Call.exec, Cmd.map_run] at hrun
    obtain ⟨_, hrun, -⟩ := hrun
    obtain ⟨hT', hkeep⟩ := sysChdir_holds hrun hT hallow
    exact ⟨T, hT', fun k => hkeep k (hcwds k)⟩
  | stat junk path =>
    rw [Call.exec, Cmd.map_run] at hrun
    obtain ⟨_, hrun, -⟩ := hrun
    have heq := (sysStat_run hs hrun).1
    dsimp only at heq
    rw [heq]
    exact ⟨T, hT, hcwds⟩

theorem TreeCall.holdsTree {c : TreeCall} {x : Value} (h : s.HoldsTree part strict)
    (hallow : s.Allows part strict c)
    (hrun : (c.exec part).run s = .ok (x, s')) : s'.HoldsTree part strict := by
  cases c with
  | call c => exact c.holdsTree h hallow hrun
  | read task kbd fd buf count =>
    simp only [TreeCall.exec, Cmd.bind_run, Cmd.pure_run] at hrun
    obtain ⟨r, s1, hrun, heq⟩ := hrun
    obtain ⟨T, hT, hcwds⟩ := h
    have hmoved := sysRead_moved hrun
    rw [Prod.mk.injEq] at heq
    rw [heq.2]
    exact (hmoved.holds hT).holdsTree (.of_tasks hmoved.tasks) hcwds
  | lseek task fd offset whence =>
    rw [TreeCall.exec, Cmd.map_run] at hrun
    obtain ⟨_, hrun, -⟩ := hrun
    obtain ⟨T, hT, hcwds⟩ := h
    have hmoved := sysLseek_moved hrun
    exact (hmoved.holds hT).holdsTree (.of_tasks hmoved.tasks) hcwds
  | fork pages parent child =>
    simp only [TreeCall.exec, Cmd.bind_run, Cmd.pure_run] at hrun
    obtain ⟨ok, s1, hrun, heq⟩ := hrun
    obtain ⟨T, hT, hcwds⟩ := h
    rw [Prod.mk.injEq] at heq
    rw [heq.2]
    obtain rfl | rfl := forkFiles_of_closed hallow hrun
    . exact ⟨T, hT, hcwds⟩
    . refine ⟨T, hT.setTasks, ?_⟩
      intro k
      dsimp only
      rw [Function.update_apply]
      split
      . exact hcwds parent
      . exact hcwds k

theorem TreeInv.weaken {a : Image} {pend : Option Nat} (h : TreeInv part true pend a T)
    : TreeInv part strict pend a T where
  tail := h.tail
  lt := h.lt
  root := h.root
  type := h.type
  parent := h.parent
  rooted := h.rooted
  entries := h.entries
  own := h.own
  noLeak _ := h.noLeak rfl
  file := h.file
  dir := h.dir
  linked _ := h.linked rfl

variable {startLba secCnt : UInt32} {h1 : 611 ≤ secCnt.toNat}
  {h2 : startLba.toNat + secCnt.toNat ≤ 163840} {v : Vol}

theorem Formatted.holdsTree (hlarge : 620 ≤ secCnt.toNat)
    (h : Formatted (.formatted startLba secCnt h1 h2) v s)
    : s.HoldsTree (.formatted startLba secCnt h1 h2) strict := by
  have hT := h.holds hlarge
  refine ⟨_, ⟨hT.tree.weaken, hT.stored, hT.mirrors, hT.counted⟩, ?_⟩
  intro k
  have hcwd : (s.tasks k).cwdInodeNr = 0 := by
    rw [h.mounted.eq]
    rfl
  rw [hcwd]
  exact ⟨rfl, rfl⟩

theorem holdsTree_of_reach (hlarge : 620 ≤ secCnt.toNat)
    (h : Formatted (.formatted startLba secCnt h1 h2) v s)
    (hr : Cmd.Reach (TreeCall.exec (.formatted startLba secCnt h1 h2))
      (Fs.Allows (.formatted startLba secCnt h1 h2) strict) s s')
    : s'.HoldsTree (.formatted startLba secCnt h1 h2) strict := by
  apply Cmd.Reach.invariant (P := fun s => s.HoldsTree (.formatted startLba secCnt h1 h2) strict)
    _ (h.holdsTree hlarge) hr
  intro s c x s' hs hallow hrun
  exact TreeCall.holdsTree hs hallow hrun

def Fs.hasRoom (part : Partition) (s : Fs) (f : Found) : Bool :=
  (List.range 256).any (fun m => !(s.vol.image part).inodeUsed m)
    && (s.view part (f.dir.getD 0)).sector 12 == 0

theorem Fs.room_of_hasRoom (h : s.hasRoom part f = true) : s.Room part strict (f.dir.getD 0) := by
  rw [Fs.hasRoom, Bool.and_eq_true, List.any_eq_true, beq_iff_eq] at h
  obtain ⟨⟨m, hm, hfree⟩, h12⟩ := h
  rw [Bool.not_eq_true'] at hfree
  exact ⟨⟨m, List.mem_range.mp hm, hfree⟩, fun _ hfull => hfull.2 h12⟩

def smallCalls : List TreeCall :=
  [.call (.mkdir 0 pathA), .call (.open_ 0 0 pathF 5), .call (.chdir 1 0 pathA)]

def smallCalls.check (s : Fs) : TreeCall → Bool
  | .call (.mkdir junk path) => s.hasRoom smallPartition (s.search smallPartition junk path.chars)
  | .call (.open_ _ junk path _) =>
    s.hasRoom smallPartition (s.search smallPartition junk path.chars)
  | _ => true

def treeFs : Fs := Cmd.afterAll (TreeCall.exec smallPartition) smallCalls smallFs

theorem smallPartition_secCnt : 611 ≤ (5000 : UInt32).toNat := by
  decide

theorem smallPartition_onDisk : (63 : UInt32).toNat + (5000 : UInt32).toNat ≤ 163840 := by
  decide

theorem formatted_smallFs
    : Formatted (.formatted 63 5000 smallPartition_secCnt smallPartition_onDisk) ⟨Mem.zero,
        Mem.zero, Mem.zero⟩ smallFs :=
  filesysInit_smallFs

theorem reach_treeFs
    : Cmd.Reach (TreeCall.exec (.formatted 63 5000 smallPartition_secCnt smallPartition_onDisk))
        (Fs.Allows (.formatted 63 5000 smallPartition_secCnt smallPartition_onDisk) true) smallFs
          treeFs := by
  have hsmall : Cmd.Reach (TreeCall.exec smallPartition) (Fs.Allows smallPartition true) smallFs
      treeFs := by
    apply Cmd.reach_of_returnsWhile (k := smallCalls.check)
    . intro s c hc hcheck
      simp only [smallCalls, List.mem_cons, List.not_mem_nil, or_false] at hc
      obtain rfl | rfl | rfl := hc
      . exact fun _ => Fs.room_of_hasRoom hcheck
      . exact fun _ _ => Fs.room_of_hasRoom hcheck
      . exact .inr (by decide)
    . decide +kernel
  exact hsmall

end Runs

end RogOS
