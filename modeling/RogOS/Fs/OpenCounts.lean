import RogOS.Fs.Invariant.Count

/-!
The open counts of the inodes of one process: every count is the number of the descriptors and of
the open directories that refer to the inode, as long as no call leaves something behind.
-/

namespace RogOS

variable {part : Partition} {s s' t : Fs} {task addr : Nat} {junk : UInt32} {path : CStr}
  {flags : UInt8}
  {f : Found}

/--
A process: the file system, and the number of times that `sys_opendir` returned `&root_dir` and the
process did not close it.
-/
structure Session where
  fs : Fs
  rootDirs : Nat

def Call.rootDirs (call : Call) (x : Value) (n : Nat) : Nat :=
  match call, x with
  | .opendir _ _, .dir (some .root) => n + 1
  | .closedir (some .root), _ => n - 1
  | _, _ => n

def Call.session (part : Partition) (call : Call) : Cmd Fault Session Value := do
  let x ← Cmd.zoom Session.fs (fun p s => { p with fs := s }) (call.exec part)
  modify fun p => { p with rootDirs := call.rootDirs x p.rootDirs }
  pure x

def Fs.fdCount (s : Fs) (task addr : Nat) : Nat :=
  (Finset.univ.filter fun fd : Fin 8 => ∃ g : Fin 32,
    (s.tasks task).fdTable fd = g.val ∧ (s.fileTable g).fdInode = some addr).card

def Session.CountsExact (task : Nat) (p : Session) : Prop :=
  ∀ q ∈ p.fs.openInodes, q.2.iOpenCnts
    = p.fs.fdCount task q.1 + p.fs.dirCount q.1 + if q.1 = p.fs.rootDir then p.rootDirs + 1 else 0

instance {p : Session} : Decidable (p.CountsExact task) :=
  inferInstanceAs (Decidable (∀ q ∈ p.fs.openInodes, _))

def Call.ByProcess (task : Nat) : Call → Prop
  | .open_ task' _ _ _ => task' = task
  | .close task' _ => task' = task
  | .chdir task' _ _ => task' = task
  | .write _ _ _ _ => False
  | _ => True

def Fs.Tidy (part : Partition) (s : Fs) : Call → Prop
  | .open_ task junk path flags =>
    (s.search part junk path.chars).Reaches path flags →
      s.freeFd task ≠ none
        ∧ (flags &&& oCreat = 0 → (s.search part junk path.chars).dir = none
          ∧ (writes flags = true → (s.view part (s.search part junk path.chars).no).writeDeny
              = false))
  | .opendir _ name => name.chars ≠ [47]
  | _ => True

section SameFds

structure Fs.SameFds (s s' : Fs) : Prop where
  files : ∀ g, (s'.fileTable g).fdInode = (s.fileTable g).fdInode
  fds : ∀ task, (s'.tasks task).fdTable = (s.tasks task).fdTable

namespace Fs.SameFds

theorem refl : s.SameFds s := ⟨fun _ => rfl, fun _ => rfl⟩

theorem trans (h1 : s.SameFds t) (h2 : t.SameFds s') : s.SameFds s' :=
  ⟨fun g => (h2.files g).trans (h1.files g), fun task => (h2.fds task).trans (h1.fds task)⟩

theorem opened {n : UInt32} (h : s.SameFds t) : s.SameFds (t.opened part n).2 := by
  apply h.trans
  unfold Fs.opened
  split <;> exact ⟨fun _ => rfl, fun _ => rfl⟩

theorem closed {ino : Inode} (h : s.SameFds t) : s.SameFds (t.closed addr ino) := by
  apply h.trans
  unfold Fs.closed
  split <;> exact ⟨fun _ => rfl, fun _ => rfl⟩

theorem atDir {dir : Option UInt32} (h : s.SameFds t) : s.SameFds (t.atDir part dir).2 := by
  cases dir with
  | none => exact h
  | some d => exact h.opened

theorem dirClosed {dir : Option UInt32} (h : s.SameFds t) {x : Fs} (hc : x.DirClosed part dir t s')
    : s.SameFds s' := by
  obtain ⟨-, rfl⟩ | ⟨d, ino, -, -, rfl⟩ := hc.cases
  . exact h
  . exact h.closed

end Fs.SameFds

theorem Unlinked.sameFds {r : Int × Fs} (h : Unlinked part s f r) : s.SameFds r.2 := by
  cases h with
  | quit => exact .refl
  | done found nonzero file unused parent delete release close =>
    apply Fs.SameFds.dirClosed _ close
    have hat : s.SameFds (s.atDir part f.dir).2 := Fs.SameFds.refl.atDir
    exact ⟨hat.files, hat.fds⟩

theorem DirMade.sameFds {r : Int × Fs} (h : DirMade part s f r) : s.SameFds r.2 := by
  cases h with
  | quit => exact .refl
  | done missing short name parent make close =>
    apply Fs.SameFds.dirClosed _ close
    have hat : s.SameFds (s.atDir part f.dir).2 := Fs.SameFds.refl.atDir
    exact ⟨hat.files, hat.fds⟩

theorem DirRemoved.sameFds {r : Int × Fs} (h : DirRemoved part s f r) : s.SameFds r.2 := by
  cases h with
  | quit => exact .refl
  | done found nonzero dir child empty blocks parent delete release open_ close =>
    apply Fs.SameFds.dirClosed _ close
    apply Fs.SameFds.closed
    have hat : s.SameFds (s.atChild part f).2 := Fs.SameFds.refl.atDir.opened
    exact ⟨hat.files, hat.fds⟩

theorem DirOpened.sameFds {r : Option DirPtr × Fs} (h : DirOpened part s f r) : s.SameFds r.2 := by
  cases h with
  | quit => exact .refl
  | done found dir close =>
    have hat : s.SameFds (s.atChild part f).2 := Fs.SameFds.refl.atDir.opened
    have hclosed := hat.dirClosed close
    exact ⟨hclosed.files, hclosed.fds⟩

theorem sysClosedir_sameFds {ptr : Option DirPtr} {r : Int × Fs}
    (h : (sysClosedir ptr).run s = .ok r)
    : s.SameFds r.2 := by
  cases sysClosedir_run h with
  | inl heq =>
    rw [heq]
    exact .refl
  | inr hex =>
    obtain ⟨id, d, ino, -, -, -, rfl⟩ := hex
    have hclosed : s.SameFds (s.closed d.inode ino) := Fs.SameFds.refl.closed
    exact ⟨hclosed.files, hclosed.fds⟩

theorem sysChdir_sameFds (hs : s.Searchable) {r : Int × Fs}
    (h : (sysChdir part task junk path).run s = .ok r)
    : s.SameFds r.2 := by
  cases sysChdir_run hs h with
  | inl heq =>
    rw [heq]
    exact .refl
  | inr hex =>
    obtain ⟨no, -, rfl⟩ := hex
    refine ⟨fun _ => rfl, ?_⟩
    intro task'
    dsimp only
    rw [Function.update_apply]
    split
    . next heq => rw [heq]
    . rfl

end SameFds

section Fds

structure Fs.FdsMatch (s : Fs) (task : Nat) : Prop where
  owner : ∀ g : Fin 32, (s.fileTable g).fdInode ≠ none → ∃ fd, (s.tasks task).fdTable fd = g.val
  unique : ∀ (g : Fin 32) fd fd', (s.fileTable g).fdInode ≠ none → (s.tasks task).fdTable fd = g.val
    →
    (s.tasks task).fdTable fd' = g.val → fd = fd'
  live : ∀ (g : Fin 32) fd, 3 ≤ g.val → (s.tasks task).fdTable fd = g.val → (s.fileTable g).fdInode
    ≠ none

namespace Fs.FdsMatch

theorem sameFds (h : s.FdsMatch task) (hsame : s.SameFds s') : s'.FdsMatch task where
  owner g := by
    rw [hsame.files, hsame.fds]
    exact h.owner g
  unique g fd fd' := by
    rw [hsame.files, hsame.fds]
    exact h.unique g fd fd'
  live g fd := by
    rw [hsame.files, hsame.fds]
    exact h.live g fd

theorem fdCount_eq (h : s.FdsMatch task) : s.fdCount task addr = s.slotCount addr := by
  unfold Fs.fdCount Fs.slotCount
  symm
  -- every entry in use goes to the descriptor that was installed for it
  choose! owner howner using h.owner
  have hlive : ∀ g : Fin 32, (s.fileTable g).fdInode = some addr → (s.fileTable g).fdInode
      ≠ none := by
    intro g hg
    rw [hg]
    simp
  apply Finset.card_bij (fun g _ => owner g)
  . intro g hg
    rw [Finset.mem_filter] at hg ⊢
    exact ⟨Finset.mem_univ _, g, howner g (hlive g hg.2), hg.2⟩
  . intro g hg g' hg' heq
    rw [Finset.mem_filter] at hg hg'
    have h1 := howner g (hlive g hg.2)
    have h2 := howner g' (hlive g' hg'.2)
    rw [heq, h2] at h1
    exact Fin.ext (by omega)
  . intro fd hfd
    rw [Finset.mem_filter] at hfd
    obtain ⟨-, g, h1, h2⟩ := hfd
    refine ⟨g, Finset.mem_filter.mpr ⟨Finset.mem_univ _, h2⟩, ?_⟩
    exact h.unique g _ _ (hlive g h2) (howner g (hlive g h2)) h1

theorem install {g : Fin 32} {fd : Fin 8} {x : File} (h : s.FdsMatch task)
    (hfree : 3 ≤ g.val ∧ (s.fileTable g).fdInode = none) (hx : x.fdInode ≠ none)
    (hfd : s.freeFd task = some fd)
    (hfiles : ∀ g', (s'.fileTable g').fdInode = (Function.update s.fileTable g x g').fdInode)
    (hfds : (s'.tasks task).fdTable = Function.update (s.tasks task).fdTable fd g.val)
    : s'.FdsMatch task := by
  have hold : (s.tasks task).fdTable fd = -1 := by
    have := List.find?_some hfd
    simp only [Bool.and_eq_true, beq_iff_eq] at this
    exact this.2
  -- no descriptor was installed for the entry before
  have hnone : ∀ fd', (s.tasks task).fdTable fd' ≠ g.val := by
    intro fd' heq
    exact h.live g fd' hfree.1 heq hfree.2
  constructor
  . intro g' hg'
    rw [hfiles, Function.update_apply] at hg'
    rw [hfds]
    split at hg'
    . next heq => exact ⟨fd, by rw [heq, Function.update_self]⟩
    . obtain ⟨fd', hfd'⟩ := h.owner g' hg'
      refine ⟨fd', ?_⟩
      rw [Function.update_of_ne]
      . exact hfd'
      . rintro rfl
        omega
  . intro g' fd1 fd2 hg' h1 h2
    rw [hfds, Function.update_apply] at h1 h2
    split at h1
    . next heq1 =>
      split at h2
      . next heq2 => rw [heq1, heq2]
      . exact absurd (h2.trans h1.symm) (hnone fd2)
    . split at h2
      . exact absurd (h1.trans h2.symm) (hnone fd1)
      . have hne : g' ≠ g := by
          rintro rfl
          exact hnone fd1 h1
        rw [hfiles, Function.update_of_ne hne] at hg'
        exact h.unique g' fd1 fd2 hg' h1 h2
  . intro g' fd1 hge h1
    rw [hfds, Function.update_apply] at h1
    rw [hfiles, Function.update_apply]
    split
    . exact hx
    . next hne =>
      split at h1
      . exact absurd (Fin.ext (by omega)) hne
      . exact h.live g' fd1 hge h1

theorem remove {g : Fin 32} {fd : Fin 8} {x : File} (h : s.FdsMatch task) (hx : x.fdInode = none)
    (hused : (s.fileTable g).fdInode ≠ none) (hfd : (s.tasks task).fdTable fd = g.val)
    (hfiles : ∀ g', (s'.fileTable g').fdInode = (Function.update s.fileTable g x g').fdInode)
    (hfds : (s'.tasks task).fdTable = Function.update (s.tasks task).fdTable fd (-1))
    : s'.FdsMatch task := by
  constructor
  . intro g' hg'
    rw [hfiles, Function.update_apply] at hg'
    rw [hfds]
    split at hg'
    . exact absurd hx hg'
    . next hne =>
      obtain ⟨fd', hfd'⟩ := h.owner g' hg'
      refine ⟨fd', ?_⟩
      rw [Function.update_of_ne]
      . exact hfd'
      . rintro rfl
        exact hne (Fin.ext (by omega))
  . intro g' fd1 fd2 hg' h1 h2
    rw [hfiles, Function.update_apply] at hg'
    rw [hfds, Function.update_apply] at h1 h2
    split at hg'
    . exact absurd hx hg'
    . split at h1
      . omega
      . split at h2
        . omega
        . exact h.unique g' fd1 fd2 hg' h1 h2
  . intro g' fd1 hge h1
    rw [hfds, Function.update_apply] at h1
    split at h1
    . omega
    . next hne =>
      rw [hfiles, Function.update_of_ne]
      . exact h.live g' fd1 hge h1
      . rintro rfl
        exact hne (h.unique g' fd1 fd hused h1 hfd)

end Fs.FdsMatch

theorem Fs.SameFds.freeFd (h : s.SameFds s') : s'.freeFd task = s.freeFd task := by
  unfold Fs.freeFd
  rw [h.fds]

theorem Fs.FdsMatch.installed {g : Fin 32} {x : File} (h : s.FdsMatch task)
    (hslot : getFreeSlotInGlobal s = some g) (hx : x.fdInode ≠ none) (hfd : s.freeFd task ≠ none)
    (hfiles : ∀ g', (t.fileTable g').fdInode = (Function.update s.fileTable g x g').fdInode)
    (hfds : (t.tasks task).fdTable = (s.tasks task).fdTable)
    : (t.installed task g).2.FdsMatch task := by
  obtain ⟨fd, hsome⟩ := Option.ne_none_iff_exists'.mp hfd
  have hfree : t.freeFd task = some fd := by
    rw [← hsome]
    unfold Fs.freeFd
    rw [hfds]
  obtain ⟨hnone, -⟩ | ⟨fd', hfd', heq⟩ := @Fs.installed_cases t task g
  . rw [hfree] at hnone
    contradiction
  . rw [hfree, Option.some.injEq] at hfd'
    rw [heq, ← hfd']
    have hfiles' : ∀ g', ((t.setFd task fd g.val).fileTable g').fdInode
        = (Function.update s.fileTable g x g').fdInode := hfiles
    apply h.install (getFreeSlotInGlobal_eq_some hslot) hx hsome hfiles'
    simp only [Fs.setFd, Function.update_self]
    rw [hfds]

theorem FileCreated.fdsMatch {parentDir : DirRef} {filename : List UInt8} {r : Int × Fs}
    (h : FileCreated part task parentDir filename flags s r) (hm : s.FdsMatch task)
    (hfd : s.freeFd task ≠ none)
    : r.2.FdsMatch task := by
  cases h with
  | noInode alloc => exact hm.sameFds ⟨fun _ => rfl, fun _ => rfl⟩
  | noSlot alloc slot undo => exact hm.sameFds ⟨fun _ => rfl, fun _ => rfl⟩
  | noEntry alloc slot parent entry undo =>
    rename_i n v v1 v' p p' fdIdx
    apply hm.sameFds
    refine ⟨?_, fun _ => rfl⟩
    intro g
    have hfiles :
        (Fs.updInode { s.setFile fdIdx ⟨0, 0, none⟩ with vol := v' } (s.dirInode parentDir)
        fun _ => p').fileTable g = Function.update s.fileTable fdIdx ⟨0, 0, none⟩ g := rfl
    dsimp only
    rw [hfiles, Function.update_apply]
    split
    . next heq => rw [heq, (getFreeSlotInGlobal_eq_some slot).2]
    . rfl
  | made alloc slot parent length entered =>
    exact hm.installed slot (Option.some_ne_none _) hfd (fun _ => rfl) rfl

theorem FileOpened.fdsMatch {n : UInt32} {r : Int × Fs} (h : FileOpened part task n flags s r)
    (hs : s.Searchable) (hm : s.FdsMatch task) (hfd : s.freeFd task ≠ none)
    (hdeny : writes flags = true → (s.view part n).writeDeny = false) : r.2.FdsMatch task := by
  have hopen : s.SameFds (s.opened part n).2 := Fs.SameFds.refl.opened
  have hfiles : ∀ (g g' : Fin 32) (x : File),
      (Function.update (s.opened part n).2.fileTable g x g').fdInode
      = (Function.update s.fileTable g x g').fdInode := by
    intro g g' x
    rw [Function.update_apply, Function.update_apply]
    split
    . rfl
    . exact hopen.files g'
  cases h with
  | noSlot slot => exact hm
  | denied slot inode write deny =>
    exfalso
    obtain ⟨k, hk⟩ := @Fs.AddrNodup.opened_inode? part s n hs.addrs
    rw [inode, Option.some.injEq] at hk
    rw [hk, hdeny write] at deny
    contradiction
  | write slot inode write allow =>
    exact hm.installed slot (Option.some_ne_none _) hfd (fun g' => hfiles _ g' _) (hopen.fds task)
  | read slot read =>
    exact hm.installed slot (Option.some_ne_none _) hfd (fun g' => hfiles _ g' _) (hopen.fds task)

theorem SysOpened.tidy {r : Int × Fs} {extra : Nat → Nat} (h : SysOpened part task path flags s f r)
    (hs : s.Counted extra) (hm : s.FdsMatch task)
    (htidy : f.Reaches path flags → s.freeFd task ≠ none
      ∧ (flags &&& oCreat = 0 → f.dir = none
          ∧ (writes flags = true → (s.view part f.no).writeDeny = false)))
    : r.2.Counted extra ∧ r.2.FdsMatch task := by
  cases h with
  | quit => exact ⟨hs, hm⟩
  | create missing short type creat slash all name make close =>
    have hfd := (htidy ⟨type, all, fun _ => creat, fun _ => missing⟩).1
    have hat : s.SameFds (s.atDir part f.dir).2 := Fs.SameFds.refl.atDir
    constructor
    . exact Fs.Counted.dirClosed (make.counted hs.atDir) close
    . apply (make.fdsMatch (hm.sameFds hat) _).sameFds
      . exact Fs.SameFds.refl.dirClosed close
      . rw [hat.freeFd]
        exact hfd
  | existing found type creat all open_ =>
    obtain ⟨hfd, hsafe⟩ := htidy ⟨type, all, fun h => absurd h found, fun h => absurd creat h⟩
    obtain ⟨hdir, hdeny⟩ := hsafe creat
    rw [hdir] at open_
    exact ⟨open_.counted hs, open_.fdsMatch hs.searchable hm hfd hdeny⟩

theorem sysClose_fdsMatch {fd : Int} {r : Int × Fs} (h : (sysClose task fd).run s = .ok r)
    (hm : s.FdsMatch task)
    : r.2.FdsMatch task := by
  obtain heq | ⟨i, fdIdx, addr, ino, -, hfd, hino, -, heq⟩ := sysClose_run h
  . rw [heq]
    exact hm
  . rw [heq]
    have hclosed : s.SameFds ((s.updInode addr fun i => { i with writeDeny := false }).closed addr
        { ino with writeDeny := false }) := by
      apply Fs.SameFds.closed
      exact ⟨fun _ => rfl, fun _ => rfl⟩
    have hused : (s.fileTable fdIdx).fdInode ≠ none := by
      rw [hino]
      simp
    refine hm.remove (x := { s.fileTable fdIdx with fdInode := none }) rfl hused hfd ?_ ?_
    . intro g'
      have hfiles : ((s.fileClosed fdIdx addr ino).setFd task i (-1)).fileTable g'
          = Function.update ((s.updInode addr fun i => { i with writeDeny := false }).closed addr
              { ino with writeDeny := false }).fileTable fdIdx { s.fileTable fdIdx with
                fdInode := none } g' := rfl
      dsimp only
      rw [hfiles, Function.update_apply, Function.update_apply]
      split
      . rfl
      . exact hclosed.files g'
    . have hfds := hclosed.fds task
      simp only [Fs.setFd, Function.update_self]
      exact congrArg (fun x => Function.update x i (-1)) hfds

end Fds

section Runs

structure Session.Inv (task : Nat) (p : Session) : Prop where
  counted : p.fs.Counted fun _ => 0
  fds : p.fs.FdsMatch task
  rootDirs : p.rootDirs = 0

theorem Session.Inv.countsExact {p : Session} (h : p.Inv task) : p.CountsExact task := by
  intro q hq
  have hino := h.counted.addrs.lookup_of_mem hq
  have hcount := h.counted.count q.1
  rw [Fs.Counted.openCnt_of_some hino, Fs.refCount] at hcount
  rw [hcount, h.fds.fdCount_eq, h.rootDirs, Nat.zero_add, Nat.add_zero]

theorem session_run {call : Call} {p p' : Session} {x : Value}
    (h : (call.session part).run p = .ok (x, p'))
    : (call.exec part).run p.fs = .ok (x, p'.fs) ∧ p'.rootDirs = call.rootDirs x p.rootDirs := by
  simp only [Call.session, Cmd.bind_run, Cmd.zoom_run, Cmd.modify_run, Cmd.pure_run] at h
  obtain ⟨y, p1, ⟨s1, h1, h2⟩, _, p2, h3, h4⟩ := h
  cases h3
  rw [Prod.mk.injEq] at h4
  rw [h4.1, h4.2, h2]
  exact ⟨h1, rfl⟩

theorem Session.Inv.step {call : Call} {p p' : Session} {x : Value} (hp : p.Inv task)
    (hcall : call.ByProcess task) (htidy : p.fs.Tidy part call)
    (h : (call.session part).run p = .ok (x, p'))
    : p'.Inv task := by
  obtain ⟨hrun, hroot⟩ := session_run h
  have hs := hp.counted.searchable
  -- a call that keeps the descriptors
  have hkeep : p.fs.SameFds p'.fs → (p'.fs.Counted fun _ => 0) → call.rootDirs x p.rootDirs
      = p.rootDirs →
      p'.Inv task := by
    intro hsame hcounted hdirs
    exact ⟨hcounted, hp.fds.sameFds hsame, by rw [hroot, hdirs, hp.rootDirs]⟩
  cases call with
  | open_ task' junk path flags =>
    rw [Call.exec, Cmd.map_run] at hrun
    obtain ⟨fd, hrun, -⟩ := hrun
    rw [show task' = task from hcall] at hrun htidy
    obtain ⟨hcounted, hfds⟩ := (sysOpen_run hs hrun).tidy hp.counted hp.fds htidy
    exact ⟨hcounted, hfds, hroot.trans hp.rootDirs⟩
  | close task' fd =>
    rw [Call.exec, Cmd.map_run] at hrun
    obtain ⟨_, hrun, -⟩ := hrun
    rw [show task' = task from hcall] at hrun
    exact ⟨sysClose_counted hrun hp.counted, sysClose_fdsMatch hrun hp.fds, hroot.trans hp.rootDirs⟩
  | write task' fd buf count => exact absurd hcall id
  | unlink junk path =>
    rw [Call.exec, Cmd.map_run] at hrun
    obtain ⟨_, hrun, -⟩ := hrun
    have hcases := sysUnlink_run hs hrun
    exact hkeep hcases.sameFds (hcases.counted hp.counted) rfl
  | mkdir junk path =>
    rw [Call.exec, Cmd.map_run] at hrun
    obtain ⟨_, hrun, -⟩ := hrun
    have hcases := sysMkdir_run hs hrun
    exact hkeep hcases.sameFds (hcases.counted hp.counted) rfl
  | rmdir junk path =>
    rw [Call.exec, Cmd.map_run] at hrun
    obtain ⟨_, hrun, -⟩ := hrun
    have hcases := sysRmdir_run hs hrun
    exact hkeep hcases.sameFds (hcases.counted hp.counted) rfl
  | opendir junk name =>
    rw [Call.exec, Cmd.map_run] at hrun
    obtain ⟨ptr, hrun, hx⟩ := hrun
    obtain ⟨heq, -⟩ | ⟨-, hcases⟩ := sysOpendir_run hs hrun
    . exact absurd heq htidy
    . apply hkeep hcases.sameFds (hcases.counted hp.counted)
      rw [show x = .dir ptr from hx]
      generalize p'.fs = s' at hcases
      cases hcases <;> rfl
  | closedir dir =>
    rw [Call.exec, Cmd.map_run] at hrun
    obtain ⟨_, hrun, -⟩ := hrun
    refine ⟨sysClosedir_counted hrun hp.counted, hp.fds.sameFds (sysClosedir_sameFds hrun), ?_⟩
    rw [hroot, hp.rootDirs]
    cases dir with
    | none => rfl
    | some ptr => cases ptr <;> rfl
  | chdir task' junk path =>
    rw [Call.exec, Cmd.map_run] at hrun
    obtain ⟨_, hrun, -⟩ := hrun
    exact hkeep (sysChdir_sameFds hs hrun) (sysChdir_counted hrun hp.counted) rfl
  | stat junk path =>
    rw [Call.exec, Cmd.map_run] at hrun
    obtain ⟨_, hrun, -⟩ := hrun
    have hsame := (sysStat_run hs hrun).1
    dsimp only at hsame
    apply hkeep _ _ rfl
    . rw [hsame]
      exact .refl
    . rw [hsame]
      exact hp.counted

theorem Mounted.fdsMatch {v : Vol} (h : Mounted part v s) : s.FdsMatch task := by
  rw [h.eq]
  constructor
  . intro g hg
    exact absurd rfl hg
  . intro g fd fd' hg
    exact absurd rfl hg
  . intro g fd hge hfd
    exfalso
    have hval : (if fd.val < 3 then (fd.val : Int) else -1) = g.val := hfd
    split at hval <;> omega

/-- Between tidy calls the open counts are exact, on every volume. -/
theorem countsExact_of_reach {v : Vol} {p : Session} (hs : Mounted part v s)
    (hr : Cmd.Reach (Call.session part) (fun p call => call.ByProcess task ∧ p.fs.Tidy part call)
      ⟨s, 0⟩ p)
    : p.CountsExact task := by
  apply Session.Inv.countsExact
  apply Cmd.Reach.invariant (P := Session.Inv task) _ _ hr
  . intro p call x p' hp hcall hrun
    exact hp.step hcall.1 hcall.2 hrun
  . exact ⟨hs.counted, hs.fdsMatch, rfl⟩

theorem countsExact_of_reach_opendir
    : (Cmd.afterAll (Call.session smallPartition) [.mkdir 0 pathA, .opendir 0 pathA] ⟨smallFs,
        0⟩).CountsExact 0 := by
  apply countsExact_of_reach mounted_smallFs
  apply Cmd.reach_of_returnsAll
  . intro call hcall s
    cases hcall with
    | head => exact ⟨trivial, trivial⟩
    | tail _ hcall =>
      rw [List.mem_singleton.mp hcall]
      refine ⟨trivial, ?_⟩
      show pathA.chars ≠ [47]
      decide
  . decide +kernel

/-- `sys_open` of an existing file leaves the directory of the file open. -/
theorem not_countsExact
    : ¬ ∀ (part : Partition) (v : Vol) (s : Fs) (task : Nat) (p : Session), Mounted part v s →
        Cmd.Reach (Call.session part) (fun _ call => call.ByProcess task) ⟨s, 0⟩ p
          → p.CountsExact task := by
  intro h
  have hr : Cmd.Reach (Call.session smallPartition) (fun _ call => call.ByProcess 0) ⟨smallFs, 0⟩
      (Cmd.afterAll (Call.session smallPartition)
        [.mkdir 0 pathA, .open_ 0 0 pathAF 4, .open_ 0 0 pathAF 0] ⟨smallFs, 0⟩) := by
    apply Cmd.reach_of_returnsAll
    . intro call hcall s
      simp only [List.mem_cons, List.not_mem_nil, or_false] at hcall
      obtain rfl | rfl | rfl := hcall
      . exact trivial
      . exact rfl
      . exact rfl
    . decide +kernel
  have hexact := h smallPartition _ smallFs 0 _ mounted_smallFs hr
  revert hexact
  decide +kernel

end Runs

end RogOS
