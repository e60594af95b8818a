import RogOS.Fs.Impl.Fork
import RogOS.Fs.Invariant.Count

/-!
The descriptors of several tasks, which `sys_fork` copies while it leaves the entries of the file
table without a count of their own.
-/

namespace RogOS

variable {part : Partition} {s s' t : Fs} {task addr : Nat} {junk : UInt32} {path : CStr}
  {flags : UInt8}
  {f : Found} {g : Fin 32} {extra : Nat → Nat} {no : UInt32} {ino : Inode}

def fileIdx? (globalFd : Int) : Option (Fin 32) :=
  if h : 0 ≤ globalFd ∧ globalFd < 32 then some ⟨globalFd.toNat, by omega⟩ else none

def Fs.named (s : Fs) (task : Nat) (fd : Fin 8) : Option (Fin 32 × Nat × UInt32) := do
  let g ← fileIdx? ((s.tasks task).fdTable fd)
  let addr ← (s.fileTable g).fdInode
  let inode ← s.inode? addr
  pure (g, addr, inode.iNo)

structure Tasks where
  fs : Fs
  live : Nat → Bool
  held : Nat → Fin 8 → Option (Option (Fin 32 × Nat × UInt32))

inductive TaskCall where
  | open_ (task : Nat) (junk : UInt32) (pathname : CStr) (flags : UInt8)
  | close (task : Nat) (fd : Int)
  | fork (pages : Bool) (parent child : Nat)

namespace Tasks

def setHeld (p : Tasks) (task : Nat) (fd : Fin 8) (x : Option (Option (Fin 32 × Nat × UInt32)))
    : Tasks :=
  { p with held := Function.update p.held task (Function.update (p.held task) fd x) }

def opened (p : Tasks) (task : Nat) (fd : Int) : Tasks :=
  if h : 0 ≤ fd ∧ fd < 8 then
    let i : Fin 8 := ⟨fd.toNat, by omega⟩
    p.setHeld task i (some (p.fs.named task i))
  else
    p

def closed (p : Tasks) (task : Nat) (fd : Int) (result : Int) : Tasks :=
  if h : 0 ≤ fd ∧ fd < 8 ∧ result = 0 then
    p.setHeld task ⟨fd.toNat, by omega⟩ none
  else
    p

def forked (p : Tasks) (parent child : Nat) : Tasks :=
  { p with live := Function.update p.live child true, held :=
    Function.update p.held child (p.held parent) }

end Tasks

def onFs {α : Type} (x : FsM α)
    : Cmd Fault Tasks α := Cmd.zoom Tasks.fs (fun p s => { p with fs := s }) x

def TaskCall.exec (part : Partition) : TaskCall → Cmd Fault Tasks Unit
  | .open_ task junk pathname flags => do
    let fd ← onFs (sysOpen part task junk pathname flags)
    modify fun p => p.opened task fd
  | .close task fd => do
    let result ← onFs (sysClose task fd)
    modify fun p => p.closed task fd result
  | .fork pages parent child => do
    if ← onFs (forkFiles pages parent child) then
      modify fun p => p.forked parent child

def Tasks.Valid (p : Tasks) : TaskCall → Prop
  | .open_ task _ _ _ => p.live task = true
  | .close task _ => p.live task = true
  | .fork _ parent child => p.live parent = true ∧ p.live child = false

def Tasks.Unshared (p : Tasks) : TaskCall → Prop
  | .close task fd =>
    ∀ (i : Fin 8) task' fd', fd = i.val → task' ≠ task → p.live task' = true →
      (p.fs.tasks task').fdTable fd' ≠ (p.fs.tasks task).fdTable i
  | _ => True

section Slots

def Fs.SlotOf (s : Fs) (g : Fin 32) (addr : Nat) (no : UInt32) : Prop :=
  (s.fileTable g).fdInode = some addr ∧ ∃ ino, s.inode? addr = some ino ∧ ino.iNo = no

theorem fileIdx?_eq_some {i : Int} : fileIdx? i = some g ↔ i = g.val := by
  unfold fileIdx?
  split
  . next h =>
    rw [Option.some.injEq, Fin.ext_iff]
    dsimp only
    omega
  . next h =>
    constructor
    . intro hnone
      contradiction
    . intro heq
      omega

theorem Fs.named_eq_some {fd : Fin 8}
    : s.named task fd = some (g, addr, no) ↔ (s.tasks task).fdTable fd = g.val
        ∧ s.SlotOf g addr no := by
  simp only [Fs.named, Fs.SlotOf, Option.bind_eq_bind, Option.bind_eq_some_iff, fileIdx?_eq_some,
    Option.pure_def, Option.some.injEq, Prod.mk.injEq]
  constructor
  . rintro ⟨g', h1, a, h2, ino, h3, rfl, rfl, h4⟩
    exact ⟨h1, h2, ino, h3, h4⟩
  . rintro ⟨h1, h2, ino, h3, h4⟩
    exact ⟨g, h1, addr, h2, ino, h3, rfl, rfl, h4⟩

namespace Fs.SlotOf

theorem setFile {g' : Fin 32} {x : File} (h : s.SlotOf g addr no) (hne : g ≠ g')
    : (s.setFile g' x).SlotOf g addr no := by
  refine ⟨?_, h.2⟩
  have hfile : (s.setFile g' x).fileTable g = s.fileTable g := Function.update_of_ne hne _ _
  rw [hfile]
  exact h.1

theorem updInode {a : Nat} {u : Inode → Inode} (h : s.SlotOf g addr no)
    (hu : ∀ ino, s.inode? a = some ino → (u ino).iNo = ino.iNo)
    : (s.updInode a u).SlotOf g addr no := by
  obtain ⟨h1, ino, h2, h3⟩ := h
  refine ⟨h1, ?_⟩
  rw [Fs.inode?_updInode]
  split
  . next ha =>
    rw [h2]
    rw [ha] at h2
    exact ⟨u ino, rfl, (hu ino h2).trans h3⟩
  . exact ⟨ino, h2, h3⟩

theorem pushInode {i : Inode} (h : s.SlotOf g addr no)
    : (s.pushInode s.newAddr i).SlotOf g addr no := by
  obtain ⟨h1, ino, h2, h3⟩ := h
  refine ⟨h1, ino, ?_, h3⟩
  rw [Fs.inode?_pushInode, if_neg]
  . exact h2
  . rintro rfl
    rw [Fs.inode?_newAddr] at h2
    contradiction

theorem opened {n : UInt32} (h : s.SlotOf g addr no) : (s.opened part n).2.SlotOf g addr no := by
  unfold Fs.opened
  split
  . exact h.updInode fun _ _ => rfl
  . exact h.pushInode

theorem atDir {dir : Option UInt32} (h : s.SlotOf g addr no)
    : (s.atDir part dir).2.SlotOf g addr no := by
  cases dir with
  | none => exact h
  | some d => exact h.opened

theorem closed {a : Nat} (h : s.SlotOf g addr no) (hc : (s.closed a ino).Counted extra)
    : (s.closed a ino).SlotOf g addr no := by
  have hfile : ((s.closed a ino).fileTable g).fdInode = some addr := by
    rw [Fs.closed_fileTable]
    exact h.1
  obtain ⟨ino', hino'⟩ := hc.inode_of_slot hfile
  refine ⟨hfile, ino', hino', ?_⟩
  obtain ⟨-, ino0, h2, h3⟩ := h
  unfold Fs.closed at hino'
  split at hino'
  . rw [Fs.inode?_dropInode] at hino'
    split at hino'
    . contradiction
    . rw [h2, Option.some.injEq] at hino'
      rw [← hino', h3]
  . rw [Fs.inode?_updInode, h2] at hino'
    split at hino'
    . rw [Option.map_some, Option.some.injEq] at hino'
      rw [← hino', h3]
    . rw [Option.some.injEq] at hino'
      rw [← hino', h3]

theorem dirClosed {dir : Option UInt32} {x : Fs} (h : t.SlotOf g addr no)
    (hc : x.DirClosed part dir t s') (hs : s'.Counted extra) : s'.SlotOf g addr no := by
  obtain ⟨-, rfl⟩ | ⟨d, ino, -, -, rfl⟩ := hc.cases
  . exact h
  . exact h.closed hs

theorem installed {g' : Fin 32} (h : s.SlotOf g addr no)
    : (s.installed task g').2.SlotOf g addr no := by
  obtain ⟨-, heq⟩ | ⟨fd, -, heq⟩ := @Fs.installed_cases s task g'
  . rw [heq]
    exact h
  . rw [heq]
    exact h

theorem ne_free {g' : Fin 32} (h : s.SlotOf g addr no) (hfree : getFreeSlotInGlobal s = some g')
    : g ≠ g' := by
  rintro rfl
  have hnone := (getFreeSlotInGlobal_eq_some hfree).2
  rw [h.1] at hnone
  contradiction

end Fs.SlotOf

theorem FileCreated.slotOf {parentDir : DirRef} {filename : List UInt8} {r : Int × Fs}
    (h : FileCreated part task parentDir filename flags s r) (hs : s.SlotOf g addr no)
    : r.2.SlotOf g addr no := by
  cases h with
  | noInode alloc => exact hs
  | noSlot alloc slot undo => exact hs
  | noEntry alloc slot parent entry undo =>
    rename_i n v v1 v' p p' fdIdx
    have hset : Fs.SlotOf { s.setFile fdIdx ⟨0, 0, none⟩ with vol := v' } g addr no :=
      hs.setFile (hs.ne_free slot)
    apply hset.updInode
    intro ino hino
    have heq := hino.symm.trans parent
    rw [Option.some.injEq] at heq
    rw [heq, ← (syncDirEntryWith_sameOpen _ _ entry).1]
  | made alloc slot parent length entered =>
    rename_i n v v' p p' fdIdx
    obtain ⟨v1, v2, v3, hsync, -⟩ := entered.runs
    apply Fs.SlotOf.installed
    rw [Fs.created_eq]
    have hvol : Fs.SlotOf { s with vol := v' } g addr no := hs
    have hupd : (Fs.updInode { s with vol := v' } (s.dirInode parentDir) fun _ =>
        p').SlotOf g addr no := by
      apply hvol.updInode
      intro ino hino
      have heq := hino.symm.trans parent
      rw [Option.some.injEq] at heq
      rw [heq, ← (syncDirEntryWith_sameOpen _ _ hsync).1]
    have hpush := hupd.pushInode (i := { inodeInit n with iOpenCnts := 1 })
    rw [Fs.newAddr_updInode] at hpush
    exact hpush.setFile (hs.ne_free slot)

theorem FileOpened.slotOf {n : UInt32} {r : Int × Fs} (h : FileOpened part task n flags s r)
    (hs : s.SlotOf g addr no) : r.2.SlotOf g addr no := by
  have htaken : ∀ {fdIdx}, getFreeSlotInGlobal s = some fdIdx
      → (s.taken part n fdIdx flags).SlotOf g addr no :=
    fun hslot => hs.opened.setFile (hs.ne_free hslot)
  cases h with
  | noSlot slot => exact hs
  | denied slot inode write deny => exact htaken slot
  | write slot inode write allow =>
    apply Fs.SlotOf.installed
    exact (htaken slot).updInode fun _ _ => rfl
  | read slot read => exact (htaken slot).installed

theorem SysOpened.slotOf {r : Int × Fs} (h : SysOpened part task path flags s f r)
    (hs : s.Counted extra) (hslot : s.SlotOf g addr no) : r.2.SlotOf g addr no := by
  cases h with
  | quit => exact hslot
  | create missing short type creat slash all name make close =>
    have hc := Fs.Counted.dirClosed (make.counted hs.atDir) close
    exact (make.slotOf hslot.atDir).dirClosed close hc
  | existing found type creat all open_ => exact open_.slotOf hslot.atDir

theorem Fs.SlotOf.fileClosed {g' : Fin 32} {a : Nat} (h : s.SlotOf g addr no)
    (hc : (s.fileClosed g' a ino).Counted extra) (hne : g ≠ g')
    : (s.fileClosed g' a ino).SlotOf g addr no := by
  have hswap : s.fileClosed g' a ino
      = Fs.closed ((s.updInode a fun i => { i with writeDeny := false }).setFile g'
          { s.fileTable g' with fdInode := none }) a { ino with writeDeny := false } := by
    unfold Fs.fileClosed Fs.closed
    split <;> rfl
  have hupd : (s.updInode a fun i => { i with writeDeny := false }).SlotOf g addr no :=
    h.updInode fun _ _ => rfl
  rw [hswap] at hc ⊢
  exact (hupd.setFile hne).closed hc

end Slots

section Install

inductive FdGiven (task : Nat) (s : Fs) : Int × Fs → Prop
  | refused {s' : Fs} (tasks : s'.tasks = s.tasks) : FdGiven task s (-1, s')
  | given {s' : Fs} {fd : Fin 8} {g : Fin 32} (above : 3 ≤ fd.val)
      (free : (s.tasks task).fdTable fd = -1)
      (slot : (s.fileTable g).fdInode = none) (used : (s'.fileTable g).fdInode ≠ none)
      (tasks : s'.tasks = (s.setFd task fd g.val).tasks) : FdGiven task s ((fd.val : Int), s')

theorem FdGiven.congr {r : Int × Fs} (h : FdGiven task s r) (ht : s.tasks = t.tasks)
    (hf : s.fileTable = t.fileTable)
    : FdGiven task t r := by
  cases h with
  | refused tasks => exact .refused (tasks.trans ht)
  | given above free slot used tasks =>
    rename_i s' fd g
    rw [ht] at free
    rw [hf] at slot
    refine .given above free slot used ?_
    rw [tasks]
    simp only [Fs.setFd, ht]

theorem FdGiven.of_installed (hfree : getFreeSlotInGlobal s = some g) (ht : t.tasks = s.tasks)
    (hused : (t.fileTable g).fdInode ≠ none) : FdGiven task s (t.installed task g) := by
  obtain ⟨-, heq⟩ | ⟨fd, hfd, heq⟩ := @Fs.installed_cases t task g
  . rw [heq]
    exact .refused ht
  . rw [heq]
    have hfind := List.find?_some hfd
    rw [Bool.and_eq_true, decide_eq_true_eq, beq_iff_eq, ht] at hfind
    refine .given hfind.1 hfind.2 (getFreeSlotInGlobal_eq_some hfree).2 hused ?_
    simp only [Fs.setFd, ht]

theorem Fs.opened_tasks {n : UInt32} : (s.opened part n).2.tasks = s.tasks := by
  unfold Fs.opened
  split <;> rfl

theorem Fs.opened_fileTable {n : UInt32} : (s.opened part n).2.fileTable = s.fileTable := by
  unfold Fs.opened
  split <;> rfl

theorem Fs.atDir_fileTable {dir : Option UInt32}
    : (s.atDir part dir).2.fileTable = s.fileTable := by
  cases dir with
  | none => rfl
  | some d => exact Fs.opened_fileTable

theorem Fs.atDir_tasks {dir : Option UInt32} : (s.atDir part dir).2.tasks = s.tasks := by
  cases dir with
  | none => rfl
  | some d => exact Fs.opened_tasks

theorem getFreeSlotInGlobal_atDir {dir : Option UInt32}
    : getFreeSlotInGlobal (s.atDir part dir).2 = getFreeSlotInGlobal s := by
  unfold getFreeSlotInGlobal
  rw [Fs.atDir_fileTable]

theorem Fs.closed_tasks : (s.closed addr ino).tasks = s.tasks := by
  unfold Fs.closed
  split <;> rfl

theorem FileCreated.fdGiven {parentDir : DirRef} {filename : List UInt8} {r : Int × Fs}
    (h : FileCreated part task parentDir filename flags s r) : FdGiven task s r := by
  cases h with
  | noInode alloc => exact .refused rfl
  | noSlot alloc slot undo => exact .refused rfl
  | noEntry alloc slot parent entry undo => exact .refused rfl
  | made alloc slot parent length entered =>
    apply FdGiven.of_installed slot
    . rfl
    . rw [Fs.created_eq]
      simp [Fs.setFile]

theorem FileOpened.fdGiven {n : UInt32} {r : Int × Fs} (h : FileOpened part task n flags s r)
    : FdGiven task s r := by
  have htasks : ∀ fdIdx, (s.taken part n fdIdx flags).tasks = s.tasks := fun _ => Fs.opened_tasks
  cases h with
  | noSlot slot => exact .refused rfl
  | denied slot inode write deny => exact .refused (htasks _)
  | write slot inode write allow =>
    rename_i fdIdx ino
    apply FdGiven.of_installed slot
    . exact htasks fdIdx
    . simp [Fs.taken, Fs.setFile, Fs.updInode]
  | read slot read =>
    apply FdGiven.of_installed slot
    . exact htasks _
    . simp [Fs.taken, Fs.setFile]

theorem SysOpened.fdGiven {r : Int × Fs} (h : SysOpened part task path flags s f r)
    : FdGiven task s r := by
  have htasks : (s.atDir part f.dir).2.tasks = s.tasks := by
    cases f.dir with
    | none => rfl
    | some d => exact Fs.opened_tasks
  have hfiles : (s.atDir part f.dir).2.fileTable = s.fileTable := by
    cases f.dir with
    | none => rfl
    | some d => exact Fs.opened_fileTable
  cases h with
  | quit => exact .refused rfl
  | create missing short type creat slash all name make close =>
    rename_i filename fd t s'
    have hclose : s'.tasks = t.tasks := by
      obtain ⟨-, rfl⟩ | ⟨d, ino, -, -, rfl⟩ := close.cases
      . rfl
      . exact Fs.closed_tasks
    have hgiven : FdGiven task s (fd, t) := make.fdGiven.congr htasks hfiles
    generalize hr : (fd, t) = r at hgiven
    cases hgiven with
    | refused tasks =>
      cases hr
      exact .refused (hclose.trans tasks)
    | given above free slot used tasks =>
      cases hr
      rw [← close.fileTable] at used
      exact .given above free slot used (hclose.trans tasks)
  | existing found type creat all open_ => exact open_.fdGiven.congr htasks hfiles

end Install

section Fork

theorem updateInodeOpenCnts_go_run {l : List (Fin 8)} {r : Unit × Fs}
    (h : (updateInodeOpenCnts.go task l).run s = .ok r) (hs : s.Counted extra)
    : (∃ extra', r.2.Counted extra') ∧ r.2.tasks = s.tasks ∧ r.2.fileTable = s.fileTable
      ∧ ∀ g addr no, s.SlotOf g addr no → r.2.SlotOf g addr no := by
  induction l generalizing s extra with
  | nil =>
    rw [updateInodeOpenCnts.go, Cmd.pure_run] at h
    rw [h]
    exact ⟨⟨extra, hs⟩, rfl, rfl, fun _ _ _ h => h⟩
  | cons localFd rest ih =>
    simp only [updateInodeOpenCnts.go, Cmd.bind_run, Cmd.get_run, Cmd.assert_run] at h
    obtain ⟨_, _, h1, _, _, ⟨-, h2⟩, h3⟩ := h
    cases h1
    cases h2
    split at h3
    . split at h3
      . split at h3
        . exact absurd h3 Cmd.throw_run
        . next a ha =>
          simp only [Cmd.bind_run, derefInode_run, Cmd.modify_run] at h3
          obtain ⟨_, _, ⟨ino, hino, h4⟩, _, _, h5, h6⟩ := h3
          cases h4
          cases h5
          obtain ⟨hc, htasks, hfiles, hslots⟩ := ih h6 (hs.bump hino)
          refine ⟨hc, htasks, hfiles, ?_⟩
          intro g addr no hslot
          exact hslots g addr no (hslot.updInode fun _ _ => rfl)
      . exact absurd h3 Cmd.throw_run
    . exact ih h3 hs

theorem forkFiles_run {pages : Bool} {parent child : Nat} {r : Bool × Fs}
    (h : (forkFiles pages parent child).run s = .ok r) (hs : s.Counted extra)
    : r = (false, s)
      ∨ r.1 = true ∧ (∃ extra', r.2.Counted extra')
        ∧ r.2.tasks = Function.update s.tasks child (s.tasks parent) ∧ r.2.fileTable = s.fileTable
        ∧ ∀ g addr no, s.SlotOf g addr no → r.2.SlotOf g addr no := by
  unfold forkFiles at h
  split at h
  . right
    simp only [Cmd.bind_run, Cmd.modify_run, Cmd.pure_run] at h
    obtain ⟨_, _, h1, _, s2, h2, h3⟩ := h
    cases h1
    rw [h3]
    obtain ⟨hc, htasks, hfiles, hslots⟩ := updateInodeOpenCnts_go_run h2 hs.setTasks
    exact ⟨rfl, hc, htasks, hfiles, hslots⟩
  . rw [Cmd.pure_run] at h
    exact .inl h

end Fork

section Runs

variable {p p' : Tasks}

structure Tasks.Inv (p : Tasks) : Prop where
  counted : ∃ extra, p.fs.Counted extra
  held : ∀ task fd x, p.live task = true → p.held task fd = some x →
    ∃ g addr no, x = some (g, addr, no) ∧ 3 ≤ fd.val ∧ (p.fs.tasks task).fdTable fd = g.val
      ∧ p.fs.SlotOf g addr no
  known : ∀ task fd, p.live task = true → 3 ≤ fd.val → (p.fs.tasks task).fdTable fd ≠ -1
    → p.held task fd ≠ none
  unique : ∀ task fd fd', p.live task = true → 3 ≤ fd.val → 3 ≤ fd'.val
    → (p.fs.tasks task).fdTable fd ≠ -1 →
    (p.fs.tasks task).fdTable fd = (p.fs.tasks task).fdTable fd' → fd = fd'

theorem Tasks.Inv.setFs (h : p.Inv) (hc : s.Counted extra) (ht : s.tasks = p.fs.tasks)
    (hslots : ∀ g addr no, p.fs.SlotOf g addr no → s.SlotOf g addr no)
    : Tasks.Inv { p with fs := s } := by
  refine ⟨⟨extra, hc⟩, ?_, ?_, ?_⟩
  . intro task fd x hlive hheld
    obtain ⟨g, addr, no, hx, hfd, htable, hslot⟩ := h.held task fd x hlive hheld
    dsimp only
    rw [ht]
    exact ⟨g, addr, no, hx, hfd, htable, hslots g addr no hslot⟩
  . dsimp only
    rw [ht]
    exact h.known
  . dsimp only
    rw [ht]
    exact h.unique

theorem Tasks.setHeld_held {fd fd' : Fin 8} {task' : Nat}
    {x : Option (Option (Fin 32 × Nat × UInt32))}
    : (p.setHeld task fd x).held task' fd' = if task' = task ∧ fd' = fd then x
        else p.held task' fd' := by
  unfold Tasks.setHeld
  dsimp only
  rw [Function.update_apply]
  split
  . next h =>
    rw [Function.update_apply, h]
    split
    . next h' => rw [if_pos ⟨rfl, h'⟩]
    . next h' => rw [if_neg fun hand => h' hand.2]
  . next h => rw [if_neg fun hand => h hand.1]

theorem Fs.setFd_fdTable {fd fd' : Fin 8} {task' : Nat} {i : Int}
    : ((s.setFd task fd i).tasks task').fdTable fd'
        =
      if task' = task ∧ fd' = fd then i else (s.tasks task').fdTable fd' := by
  unfold Fs.setFd
  dsimp only
  rw [Function.update_apply]
  split
  . next h =>
    dsimp only
    rw [Function.update_apply, h]
    split
    . next h' => rw [if_pos ⟨rfl, h'⟩]
    . next h' => rw [if_neg fun hand => h' hand.2]
  . next h => rw [if_neg fun hand => h hand.1]

theorem Tasks.Inv.given {fd : Fin 8} (h : p.Inv) (hc : s.Counted extra)
    (hslots : ∀ g addr no, p.fs.SlotOf g addr no → s.SlotOf g addr no) (above : 3 ≤ fd.val)
    (slot : (p.fs.fileTable g).fdInode = none) (used : (s.fileTable g).fdInode ≠ none)
    (tasks : s.tasks = (p.fs.setFd task fd g.val).tasks)
    : (Tasks.setHeld { p with fs := s } task fd (some (s.named task fd))).Inv := by
  have htable : ∀ task' fd', (s.tasks task').fdTable fd'
      = if task' = task ∧ fd' = fd then (g.val : Int) else (p.fs.tasks task').fdTable fd' := by
    intro task' fd'
    rw [tasks]
    exact Fs.setFd_fdTable
  -- no other descriptor names the entry
  have hother : ∀ task' fd', p.live task' = true → 3 ≤ fd'.val → (p.fs.tasks task').fdTable fd'
      ≠ g.val := by
    intro task' fd' hlive' habove' heq
    have hne : (p.fs.tasks task').fdTable fd' ≠ -1 := by omega
    obtain ⟨x, hx⟩ := Option.ne_none_iff_exists'.mp (h.known task' fd' hlive' habove' hne)
    obtain ⟨g', addr, no, -, -, htable', hslot'⟩ := h.held task' fd' x hlive' hx
    have hg : g' = g := Fin.ext (by omega)
    rw [hg] at hslot'
    rw [hslot'.1] at slot
    contradiction
  obtain ⟨addr, haddr⟩ := Option.ne_none_iff_exists'.mp used
  obtain ⟨ino, hino⟩ := hc.inode_of_slot haddr
  have hfd : (s.tasks task).fdTable fd = g.val := by
    rw [htable, if_pos ⟨rfl, rfl⟩]
  have hnamed : s.named task fd = some (g, addr, ino.iNo) :=
    Fs.named_eq_some.mpr ⟨hfd, haddr, ino, hino, rfl⟩
  refine ⟨⟨extra, hc⟩, ?_, ?_, ?_⟩
  . intro task' fd' x hlive' hheld
    rw [Tasks.setHeld_held] at hheld
    split at hheld
    . next heq =>
      rw [Option.some.injEq, hnamed] at hheld
      refine ⟨g, addr, ino.iNo, hheld.symm, ?_, ?_, haddr, ino, hino, rfl⟩
      . rw [heq.2]
        exact above
      . rw [heq.1, heq.2]
        exact hfd
    . next hne =>
      obtain ⟨g', addr', no', hx, habove, htable', hslot'⟩ := h.held task' fd' x hlive' hheld
      refine ⟨g', addr', no', hx, habove, ?_, hslots g' addr' no' hslot'⟩
      exact (htable task' fd').trans ((if_neg hne).trans htable')
  . intro task' fd' hlive' habove' hne'
    rw [Tasks.setHeld_held]
    split
    . exact Option.some_ne_none _
    . next hne =>
      have hne'' := (htable task' fd').symm.trans_ne hne'
      rw [if_neg hne] at hne''
      exact h.known task' fd' hlive' habove' hne''
  . intro task' fd1 fd2 hlive' h1 h2 hne' heq
    have heq' := ((htable task' fd1).symm.trans heq).trans (htable task' fd2)
    have hne'' := (htable task' fd1).symm.trans_ne hne'
    split at heq'
    . next hand1 =>
      split at heq'
      . next hand2 => exact hand1.2.trans hand2.2.symm
      . exact absurd heq'.symm (hother task' fd2 hlive' h2)
    . next hnot1 =>
      rw [if_neg hnot1] at hne''
      split at heq'
      . exact absurd heq' (hother task' fd1 hlive' h1)
      . exact h.unique task' fd1 fd2 hlive' h1 h2 hne'' heq'

theorem Tasks.Inv.close {fd : Fin 8} (h : p.Inv) (hc : s.Counted extra) (above : 3 ≤ fd.val)
    (hfd : (p.fs.tasks task).fdTable fd = g.val)
    (hslots : ∀ g' addr no, g' ≠ g → p.fs.SlotOf g' addr no → s.SlotOf g' addr no)
    (tasks : s.tasks = (p.fs.setFd task fd (-1)).tasks)
    (hunshared : ∀ task' fd', task' ≠ task → p.live task' = true → (p.fs.tasks task').fdTable fd'
      ≠ g.val)
    : (Tasks.setHeld { p with fs := s } task fd none).Inv := by
  have htable : ∀ task' fd', (s.tasks task').fdTable fd'
      = if task' = task ∧ fd' = fd then -1 else (p.fs.tasks task').fdTable fd' := by
    intro task' fd'
    rw [tasks]
    exact Fs.setFd_fdTable
  refine ⟨⟨extra, hc⟩, ?_, ?_, ?_⟩
  . intro task' fd' x hlive' hheld
    rw [Tasks.setHeld_held] at hheld
    split at hheld
    . contradiction
    . next hne =>
      obtain ⟨g', addr', no', hx, habove, htable', hslot'⟩ := h.held task' fd' x hlive' hheld
      refine ⟨g', addr', no', hx, habove, (htable task' fd').trans ((if_neg hne).trans htable'), ?_⟩
      apply hslots g' addr' no' _ hslot'
      rintro rfl
      by_cases htask : task' = task
      . subst htask
        have hsame := h.unique task' fd fd' hlive' above habove (by omega) (hfd.trans htable'.symm)
        exact hne ⟨rfl, hsame.symm⟩
      . exact hunshared task' fd' htask hlive' htable'
  . intro task' fd' hlive' habove' hne'
    rw [Tasks.setHeld_held]
    have hne'' := (htable task' fd').symm.trans_ne hne'
    split
    . next hand =>
      rw [if_pos hand] at hne''
      contradiction
    . next hnot =>
      rw [if_neg hnot] at hne''
      exact h.known task' fd' hlive' habove' hne''
  . intro task' fd1 fd2 hlive' h1 h2 hne' heq
    have heq' := ((htable task' fd1).symm.trans heq).trans (htable task' fd2)
    have hne'' := (htable task' fd1).symm.trans_ne hne'
    split at heq'
    . next hand1 =>
      rw [if_pos hand1] at hne''
      contradiction
    . next hnot1 =>
      rw [if_neg hnot1] at hne''
      split at heq'
      . exact absurd heq' hne''
      . exact h.unique task' fd1 fd2 hlive' h1 h2 hne'' heq'

theorem Tasks.Inv.fork {parent child : Nat} (h : p.Inv) (hlive : p.live parent = true)
    (hc : s.Counted extra) (hslots : ∀ g addr no, p.fs.SlotOf g addr no → s.SlotOf g addr no)
    (tasks : s.tasks = Function.update p.fs.tasks child (p.fs.tasks parent))
    : (Tasks.forked { p with fs := s } parent child).Inv := by
  -- every live task has the descriptors of a task that was live before
  have horigin : ∀ task, (Tasks.forked { p with fs := s } parent child).live task = true →
      ∃ task', p.live task' = true ∧ s.tasks task = p.fs.tasks task'
        ∧ (Tasks.forked { p with fs := s } parent child).held task = p.held task' := by
    intro task hlive'
    unfold Tasks.forked at hlive' ⊢
    dsimp only at hlive' ⊢
    rw [tasks]
    by_cases htask : task = child
    . rw [htask, Function.update_self, Function.update_self]
      exact ⟨parent, hlive, rfl, rfl⟩
    . rw [Function.update_of_ne htask] at hlive'
      rw [Function.update_of_ne htask, Function.update_of_ne htask]
      exact ⟨task, hlive', rfl, rfl⟩
  refine ⟨⟨extra, hc⟩, ?_, ?_, ?_⟩
  . intro task fd x hlive' hheld
    obtain ⟨task', hlive'', htasks, hheld'⟩ := horigin task hlive'
    rw [hheld'] at hheld
    obtain ⟨g, addr, no, hx, habove, htable, hslot⟩ := h.held task' fd x hlive'' hheld
    refine ⟨g, addr, no, hx, habove, ?_, hslots g addr no hslot⟩
    exact (congrArg (fun t => t.fdTable fd) htasks).trans htable
  . intro task fd hlive' habove hne
    obtain ⟨task', hlive'', htasks, hheld'⟩ := horigin task hlive'
    rw [hheld']
    exact h.known task' fd hlive'' habove
      ((congrArg (fun t => t.fdTable fd) htasks).symm.trans_ne hne)
  . intro task fd fd' hlive' h1 h2 hne heq
    obtain ⟨task', hlive'', htasks, -⟩ := horigin task hlive'
    have htable : ∀ fd, (s.tasks task).fdTable fd = (p.fs.tasks task').fdTable fd :=
      fun fd => congrArg (fun t => t.fdTable fd) htasks
    exact h.unique task' fd fd' hlive'' h1 h2 ((htable fd).symm.trans_ne hne)
      ((htable fd).symm.trans (heq.trans (htable fd')))

theorem onFs_run {α : Type} {x : FsM α} {r : α × Tasks}
    : (onFs x).run p = .ok r ↔ ∃ s, x.run p.fs = .ok (r.1, s) ∧ r.2 = { p with fs := s } :=
  Cmd.zoom_run

theorem Tasks.opened_val {fd : Fin 8}
    : p.opened task fd.val = p.setHeld task fd (some (p.fs.named task fd)) := by
  unfold Tasks.opened
  rw [dif_pos (by omega)]
  rfl

theorem Tasks.closed_val {fd : Fin 8} : p.closed task fd.val 0 = p.setHeld task fd none := by
  unfold Tasks.closed
  rw [dif_pos (by omega)]
  rfl

theorem Tasks.Inv.sysOpen {r : Int × Fs} (h : p.Inv)
    (hrun : (sysOpen part task junk path flags).run p.fs = .ok r)
    : (Tasks.opened { p with fs := r.2 } task r.1).Inv := by
  obtain ⟨extra, hc⟩ := h.counted
  have hopened := sysOpen_run hc.searchable hrun
  have hc' : ∃ extra', r.2.Counted extra' := by
    cases hopened.counted hc with
    | inl hcounted => exact ⟨_, hcounted⟩
    | inr hcounted => exact ⟨_, hcounted.2⟩
  obtain ⟨extra', hc'⟩ := hc'
  have hslots : ∀ g addr no, p.fs.SlotOf g addr no → r.2.SlotOf g addr no :=
    fun g addr no hslot => hopened.slotOf hc hslot
  cases hopened.fdGiven with
  | refused tasks => exact h.setFs hc' tasks hslots
  | given above free slot used tasks =>
    dsimp only
    rw [Tasks.opened_val]
    exact h.given hc' hslots above slot used tasks

theorem Tasks.Inv.sysClose {fd : Int} {r : Int × Fs} (h : p.Inv)
    (hunshared : p.Unshared (.close task fd)) (hrun : (sysClose task fd).run p.fs = .ok r)
    : (Tasks.closed { p with fs := r.2 } task fd r.1).Inv := by
  obtain ⟨extra, hc⟩ := h.counted
  have hc' := sysClose_counted hrun hc
  obtain heq | ⟨i, fdIdx, addr, ino, hi, hfd, hslot, hino, heq⟩ := sysClose_run hrun
  . have hclosed : Tasks.closed { p with fs := r.2 } task fd r.1 = p := by
      unfold Tasks.closed
      rw [heq]
      exact dif_neg fun hand => absurd (show (-1 : Int) = 0 from hand.2.2) (by decide)
    rw [hclosed]
    exact h
  . rw [heq] at hc' ⊢
    rw [hi.1]
    dsimp only
    rw [Tasks.closed_val]
    apply h.close hc' hi.2 hfd
    . intro g' addr' no' hne hslot'
      exact hslot'.fileClosed (hc.fileClosed hslot hino) hne
    . have htasks : (p.fs.fileClosed fdIdx addr ino).tasks = p.fs.tasks := by
        exact Fs.closed_tasks
      simp only [Fs.setFd, htasks]
    . intro task' fd' hne hlive'
      rw [← hfd]
      exact hunshared i task' fd' hi.1 hne hlive'

theorem Tasks.Inv.step {call : TaskCall} {x : Unit} (h : p.Inv) (hvalid : p.Valid call)
    (hunshared : p.Unshared call) (hrun : (call.exec part).run p = .ok (x, p')) : p'.Inv := by
  cases call with
  | open_ task junk path flags =>
    simp only [TaskCall.exec, Cmd.bind_run, onFs_run, Cmd.modify_run] at hrun
    obtain ⟨fd, p1, ⟨s1, h1, h2⟩, h3⟩ := hrun
    cases h3
    rw [h2]
    exact h.sysOpen h1
  | close task fd =>
    simp only [TaskCall.exec, Cmd.bind_run, onFs_run, Cmd.modify_run] at hrun
    obtain ⟨result, p1, ⟨s1, h1, h2⟩, h3⟩ := hrun
    cases h3
    rw [h2]
    exact h.sysClose hunshared h1
  | fork pages parent child =>
    simp only [TaskCall.exec, Cmd.bind_run, onFs_run] at hrun
    obtain ⟨ok, p1, ⟨s1, h1, h2⟩, h3⟩ := hrun
    obtain ⟨extra, hc⟩ := h.counted
    cases forkFiles_run h1 hc with
    | inl heq =>
      cases heq
      simp only [Bool.false_eq_true, ↓reduceIte, Cmd.pure_run] at h3
      cases h3
      rw [h2]
      exact h
    | inr hand =>
      obtain ⟨hok, ⟨extra', hc'⟩, htasks, -, hslots⟩ := hand
      dsimp only at hok
      rw [hok] at h3
      simp only [↓reduceIte, Cmd.modify_run] at h3
      cases h3
      rw [h2]
      exact h.fork hvalid.1 hc' hslots htasks

theorem Mounted.inv {v : Vol} {live : Nat → Bool} (h : Mounted part v s)
    : Tasks.Inv ⟨s, live, fun _ _ => none⟩ := by
  have htable : ∀ task (fd : Fin 8), 3 ≤ fd.val → (s.tasks task).fdTable fd = -1 := by
    intro task fd hfd
    rw [h.eq]
    have hval : (if fd.val < 3 then (fd.val : Int) else -1) = -1 := if_neg (by omega)
    exact hval
  refine ⟨⟨_, h.counted⟩, ?_, ?_, ?_⟩
  . intro task fd x hlive hheld
    contradiction
  . intro task fd hlive hfd hne
    exact absurd (htable task fd hfd) hne
  . intro task fd fd' hlive hfd hfd' hne
    exact absurd (htable task fd hfd) hne

instance {call : TaskCall} : Decidable (p.Valid call) :=
  match call with
  | .open_ _ _ _ _ => inferInstanceAs (Decidable (_ = true))
  | .close _ _ => inferInstanceAs (Decidable (_ = true))
  | .fork _ _ _ => inferInstanceAs (Decidable (_ ∧ _))

end Runs

end RogOS
