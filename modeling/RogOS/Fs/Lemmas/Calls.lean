import RogOS.Fs.Lemmas.Search

/-!
What the functions of `file.c` on the file table and the system calls of `fs.c` return, and the
state they leave.
-/

namespace RogOS

variable {part : Partition} {s : Fs} {task addr : Nat} {fdIdx : Fin 32} {flag : UInt8}

def Fs.freeFd (s : Fs) (task : Nat) : Option (Fin 8) :=
  (List.finRange 8).find? fun i => 3 ≤ i.val && (s.tasks task).fdTable i == -1

def Fs.installed (s : Fs) (task : Nat) (fdIdx : Fin 32) : Int × Fs :=
  match s.freeFd task with
  | none => (-1, s)
  | some fd => (fd.val, s.setFd task fd fdIdx.val)

theorem pcbFdInstall_run {r : Int × Fs}
    : (pcbFdInstall task fdIdx).run s = .ok r ↔ r = s.installed task fdIdx := by
  simp only [pcbFdInstall, Cmd.bind_run, Cmd.get_run, Fs.installed]
  constructor
  . rintro ⟨_, _, h, h1⟩
    cases h
    rw [← Fs.freeFd] at h1
    cases hfd : s.freeFd task with
    | none =>
      rw [hfd, Cmd.pure_run] at h1
      exact h1
    | some fd =>
      rw [hfd] at h1
      simp only [Cmd.bind_run, Cmd.modify_run, Cmd.pure_run] at h1
      obtain ⟨_, _, h2, h3⟩ := h1
      cases h2
      exact h3
  . intro h
    refine ⟨s, s, rfl, ?_⟩
    rw [← Fs.freeFd]
    cases hfd : s.freeFd task with
    | none =>
      rw [hfd] at h
      exact Cmd.pure_run.mpr h
    | some fd =>
      rw [hfd] at h
      simp only [Cmd.bind_run, Cmd.modify_run, Cmd.pure_run]
      exact ⟨_, _, rfl, h⟩

theorem Fs.installed_fileTable : (s.installed task fdIdx).2.fileTable = s.fileTable := by
  unfold installed
  split <;> rfl

theorem Fs.installed_cases
    : s.freeFd task = none ∧ s.installed task fdIdx = (-1, s)
      ∨ ∃ fd, s.freeFd task = some fd
          ∧ s.installed task fdIdx = ((fd.val : Int), s.setFd task fd fdIdx.val) := by
  unfold installed
  cases h : s.freeFd task with
  | none => exact .inl ⟨rfl, rfl⟩
  | some fd => exact .inr ⟨fd, rfl, rfl⟩

theorem createDirEntry_run {σ : Type} {t : σ} {name : List UInt8} {n : UInt32} {ty : FileType}
    {r : DirEntry × σ}
    : (createDirEntry name n ty).run t = .ok r
        ↔
      name.length ≤ 16 ∧ r = (DirEntry.new name n ty, t) := by
  simp only [createDirEntry, Cmd.bind_run, Cmd.assert_run, Cmd.pure_run]
  constructor
  . rintro ⟨_, _, ⟨h1, h2⟩, h3⟩
    cases h2
    exact ⟨h1, h3⟩
  . rintro ⟨h1, h2⟩
    exact ⟨_, _, ⟨h1, rfl⟩, h2⟩

structure FileEntered (part : Partition) (p : Inode) (filename : List UInt8) (n : UInt32) (v : Vol)
    (p' : Inode) (v' : Vol) : Prop where
  runs : ∃ v1 v2 v3,
    (syncDirEntry part p (DirEntry.new filename n .regular)).run v = .ok ((true, p'), v1)
      ∧ (inodeSync part 1024 p').run v1 = .ok ((), v2)
      ∧ (inodeSync part 1024 (inodeInit n)).run v2 = .ok ((), v3)
      ∧ (bitmapSync part n.toNat .inode).run v3 = .ok ((), v')

def Fs.created (s : Fs) (parentDir : DirRef) (fdIdx : Fin 32) (flag : UInt8) (n : UInt32)
    (p' : Inode) (v : Vol) : Fs :=
  Fs.pushInode
    (Fs.updInode { s.setFile fdIdx ⟨0, flag, some s.newAddr⟩ with vol := v } (s.dirInode parentDir)
      fun _ => p')
    s.newAddr { inodeInit n with iOpenCnts := 1 }

inductive FileCreated (part : Partition) (task : Nat) (parentDir : DirRef) (filename : List UInt8)
    (flag : UInt8) (s : Fs) : Int × Fs → Prop
  | noInode {v : Vol} (alloc : (inodeBitmapAlloc part).run s.vol = .ok (none, v))
    : FileCreated part task parentDir filename flag s (-1, { s with vol := v })
  | noSlot {n : UInt32} {v v' : Vol} (alloc : (inodeBitmapAlloc part).run s.vol = .ok (some n, v))
      (slot : getFreeSlotInGlobal s = none)
      (undo : (setBit part .inode n.toNat false).run v = .ok ((), v'))
    : FileCreated part task parentDir filename flag s (-1, { s with vol := v' })
  | noEntry {n : UInt32} {v v1 v' : Vol} {p p' : Inode} {fdIdx : Fin 32}
      (alloc : (inodeBitmapAlloc part).run s.vol = .ok (some n, v))
      (slot : getFreeSlotInGlobal s = some fdIdx)
      (parent : s.inode? (s.dirInode parentDir) = some p)
      (entry : (syncDirEntry part p (DirEntry.new filename n .regular)).run v
        = .ok ((false, p'), v1))
      (undo : (setBit part .inode n.toNat false).run v1 = .ok ((), v'))
    : FileCreated part task parentDir filename flag s
        (-1, Fs.updInode { s.setFile fdIdx ⟨0, 0, none⟩ with vol := v' } (s.dirInode parentDir)
          fun _ => p')
  | made {n : UInt32} {v v' : Vol} {p p' : Inode} {fdIdx : Fin 32}
      (alloc : (inodeBitmapAlloc part).run s.vol = .ok (some n, v))
      (slot : getFreeSlotInGlobal s = some fdIdx)
      (parent : s.inode? (s.dirInode parentDir) = some p)
      (length : filename.length ≤ 16)
      (entered : FileEntered part p filename n v p' v')
    : FileCreated part task parentDir filename flag s
        ((s.created parentDir fdIdx flag n p' v').installed task fdIdx)

theorem fileCreate_run {parentDir : DirRef} {filename : List UInt8} {r : Int × Fs}
    (h : (fileCreate part task parentDir filename flag).run s = .ok r)
    : FileCreated part task parentDir filename flag s r := by
  simp only [fileCreate, Cmd.bind_run, onVol_run] at h
  obtain ⟨o, s1, ⟨v, h1, h2⟩, h3⟩ := h
  cases o with
  | none =>
    rw [Cmd.pure_run] at h3
    rw [h3, h2]
    exact .noInode h1
  | some n =>
    simp only [Cmd.bind_run, Cmd.get_run] at h3
    obtain ⟨_, _, h4, h5⟩ := h3
    cases h4
    cases hidx : getFreeSlotInGlobal s1 with
    | none =>
      rw [hidx] at h5
      simp only [Cmd.bind_run, Cmd.pure_run, onVol_run] at h5
      obtain ⟨_, s2, ⟨v', h6, h7⟩, h8⟩ := h5
      rw [h2] at h6 h7 hidx
      rw [h8, h7]
      exact .noSlot h1 hidx h6
    | some fdIdx =>
      rw [hidx] at h5
      simp only [Cmd.bind_run, Cmd.modify_run, onInode_run, createDirEntry_run] at h5
      obtain ⟨_, s2, h6, _, _, ⟨hlen, h7⟩, ok, s3, ⟨p, p', v3, h8, h9, h10⟩, h11⟩ := h5
      cases h6
      cases h7
      cases ok with
      | false =>
        simp only [Bool.false_eq_true, ↓reduceIte, Cmd.bind_run, Cmd.pure_run, Cmd.modify_run,
          onVol_run] at h11
        obtain ⟨_, _, h12, _, _, ⟨v', h13, h14⟩, h15⟩ := h11
        cases h12
        rw [h10] at h13 h14
        rw [h2] at h8 h9 h13 h14 hidx
        have hr :=
          @FileCreated.noEntry part task parentDir filename flag s n v v3 v' p p' fdIdx h1 hidx
          h8 h9 h13
        have hstate : r = (-1, Fs.updInode { s.setFile fdIdx ⟨0, 0, none⟩ with vol := v' }
            (s.dirInode parentDir) fun _ => p') := by
          rw [h15, h14]
          simp only [Fs.setFile, Fs.updInode, Function.update_idem]
          rfl
        rw [hstate]
        exact hr
      | true =>
        simp only [↓reduceIte, Cmd.bind_run, Cmd.modify_run, derefInode_run, onVol_run,
          pcbFdInstall_run] at h11
        obtain ⟨q, _, ⟨_, h12, h13⟩, _, s5, ⟨v5, h14, h15⟩, _, s6, ⟨v6, h16, h17⟩, _, s7,
          ⟨v7, h18, h19⟩, _, _, h20, h21⟩ := h11
        cases h13
        cases h20
        have hq : p' = q := by
          have hold := h8
          rw [h10, Fs.inode?_updInode, if_pos rfl] at h12
          have hget : Fs.inode? { s1.setFile fdIdx ⟨0, flag, some s1.newAddr⟩ with vol := v3 }
              (s1.dirInode parentDir) = some p := hold
          rw [hget] at h12
          exact Option.some.inj h12
        subst hq
        rw [h10] at h14 h15
        rw [h15] at h16 h17
        rw [h17] at h18 h19
        rw [h2] at h8 h9 h19 h21 hidx
        have hr :=
          @FileCreated.made part task parentDir filename flag s n v v7 p p' fdIdx h1 hidx h8
          hlen ⟨v3, v5, v6, h9, h14, h16, h18⟩
        rw [h21, h19]
        exact hr

section FileTable

def Fs.taken (part : Partition) (s : Fs) (n : UInt32) (fdIdx : Fin 32) (flag : UInt8) : Fs :=
  (s.opened part n).2.setFile fdIdx ⟨0, flag, some (s.opened part n).1⟩

inductive FileOpened (part : Partition) (task : Nat) (n : UInt32) (flag : UInt8) (s : Fs)
    : Int × Fs → Prop
  | noSlot (slot : getFreeSlotInGlobal s = none) : FileOpened part task n flag s (-1, s)
  | denied {fdIdx : Fin 32} {ino : Inode} (slot : getFreeSlotInGlobal s = some fdIdx)
      (inode : (s.opened part n).2.inode? (s.opened part n).1 = some ino) (write : writes flag
        = true)
      (deny : ino.writeDeny = true)
    : FileOpened part task n flag s (-1, s.taken part n fdIdx flag)
  | write {fdIdx : Fin 32} {ino : Inode} (slot : getFreeSlotInGlobal s = some fdIdx)
      (inode : (s.opened part n).2.inode? (s.opened part n).1 = some ino) (write : writes flag
        = true)
      (allow : ino.writeDeny = false)
    : FileOpened part task n flag s
        (((s.taken part n fdIdx flag).updInode (s.opened part n).1
          fun i => { i with writeDeny := true }).installed task fdIdx)
  | read {fdIdx : Fin 32} (slot : getFreeSlotInGlobal s = some fdIdx) (read : writes flag = false)
    : FileOpened part task n flag s ((s.taken part n fdIdx flag).installed task fdIdx)

theorem fileOpen_run {n : UInt32} {r : Int × Fs} (h : (fileOpen part task n flag).run s = .ok r)
    : FileOpened part task n flag s r := by
  simp only [fileOpen, Cmd.bind_run, Cmd.get_run] at h
  obtain ⟨_, _, h1, h2⟩ := h
  cases h1
  cases hslot : getFreeSlotInGlobal s with
  | none =>
    rw [hslot, Cmd.pure_run] at h2
    rw [h2]
    exact .noSlot hslot
  | some fdIdx =>
    rw [hslot] at h2
    simp only [Cmd.bind_run, Cmd.modify_run, inodeOpen_run] at h2
    obtain ⟨addr, s1, ⟨-, h3⟩, _, _, h4, h5⟩ := h2
    cases h4
    rw [Prod.ext_iff] at h3
    dsimp only at h3
    rw [h3.1, h3.2] at h5
    split at h5
    . next hw =>
      simp only [Cmd.bind_run, derefInode_run] at h5
      obtain ⟨ino, _, ⟨_, h6, h7⟩, h8⟩ := h5
      cases h7
      split at h8
      . next hdeny =>
        rw [Cmd.pure_run] at h8
        rw [h8]
        exact .denied hslot h6 hw hdeny
      . next hdeny =>
        simp only [Cmd.bind_run, Cmd.modify_run, pcbFdInstall_run] at h8
        obtain ⟨_, _, h9, h10⟩ := h8
        cases h9
        rw [h10]
        exact .write hslot h6 hw (by simpa using hdeny)
    . next hw =>
      rw [pcbFdInstall_run] at h5
      rw [h5]
      exact .read hslot (by simpa using hw)

def Fs.fileClosed (s : Fs) (fdIdx : Fin 32) (addr : Nat) (ino : Inode) : Fs :=
  ((s.updInode addr fun i => { i with writeDeny := false }).closed addr
    { ino with writeDeny := false }).setFile fdIdx { s.fileTable fdIdx with fdInode := none }

theorem Fs.closed_fileTable {ino : Inode} : (s.closed addr ino).fileTable = s.fileTable := by
  unfold closed
  split <;> rfl

theorem fileClose_run {r : Unit × Fs} (h : (fileClose fdIdx).run s = .ok r)
    : ∃ addr ino, (s.fileTable fdIdx).fdInode = some addr ∧ s.inode? addr = some ino
        ∧ r.2 = s.fileClosed fdIdx addr ino := by
  simp only [fileClose, Cmd.bind_run, Cmd.get_run] at h
  obtain ⟨_, _, h1, h2⟩ := h
  cases h1
  cases hfd : (s.fileTable fdIdx).fdInode with
  | none =>
    rw [hfd] at h2
    exact absurd h2 Cmd.throw_run
  | some addr =>
    rw [hfd] at h2
    simp only [Cmd.bind_run, Cmd.modify_run, inodeClose_run] at h2
    obtain ⟨_, _, h3, _, _, ⟨ino, h4, h5⟩, h6⟩ := h2
    cases h3
    cases h5
    rw [Fs.inode?_updInode, if_pos rfl, Option.map_eq_some_iff] at h4
    obtain ⟨ino0, h7, h8⟩ := h4
    refine ⟨addr, ino0, rfl, h7, ?_⟩
    rw [h6, Fs.fileClosed, h8, Fs.closed_fileTable]
    rfl

theorem sysClose_run {fd : Int} {r : Int × Fs} (h : (sysClose task fd).run s = .ok r)
    : r = (-1, s)
      ∨ ∃ (i : Fin 8) (fdIdx : Fin 32) (addr : Nat) (ino : Inode),
          (fd = i.val ∧ 3 ≤ i.val) ∧ (s.tasks task).fdTable i = fdIdx.val
            ∧ (s.fileTable fdIdx).fdInode = some addr ∧ s.inode? addr = some ino
            ∧ r = (0, (s.fileClosed fdIdx addr ino).setFd task i (-1)) := by
  unfold sysClose at h
  split at h
  . next hfd =>
    right
    simp only [Cmd.bind_run, Cmd.modify_run, Cmd.pure_run, fdLocal2Global, Cmd.get_run] at h
    obtain ⟨fdIdx, s1, ⟨_, _, h1, h2⟩, _, s2, h3, _, _, h4, h5⟩ := h
    cases h1
    cases h4
    rw [dif_pos (by omega)] at h2
    split at h2
    . next hg =>
      rw [Cmd.pure_run, Prod.mk.injEq] at h2
      rw [h2.2] at h3
      obtain ⟨addr, ino, h6, h7, h8⟩ := fileClose_run h3
      refine ⟨⟨fd.toNat, by omega⟩, fdIdx, addr, ino, ⟨by simp only; omega, by simp only; omega⟩,
        ?_, h6, h7, ?_⟩
      . rw [h2.1]
        simp only
        omega
      . rw [h5, ← h8]
    . exact absurd h2 Cmd.throw_run
  . split at h
    . exact absurd h Cmd.throw_run
    . rw [Cmd.pure_run] at h
      exact .inl h

end FileTable

end RogOS
