import RogOS.Fs.Descriptors
import RogOS.Task.ExecImage

/-!
What a call of `execv` that returns -1 leaves: the file is closed again, but the segments that were
copied before the failure stay in memory.
-/

namespace RogOS

variable {part : Partition} {task : Nat} {kbd : Mem} {junk : UInt32} {data : List UInt8}
  {s s' t : Fs} {p p' : Proc}
  {path : CStr}

section Preserves

structure Fs.Preserves (s s' : Fs) : Prop where
  vol : s'.vol = s.vol
  tasks : s'.tasks = s.tasks
  files : ∀ g, (s.fileTable g).fdInode ≠ none → s'.fileTable g = s.fileTable g
  inodes : ∀ addr ino, s.inode? addr = some ino →
    ∃ ino', s'.inode? addr = some ino' ∧ ino'.iNo = ino.iNo ∧ ino'.iSize = ino.iSize ∧ ino'.iSectors
      = ino.iSectors

namespace Fs.Preserves

theorem refl : s.Preserves s := ⟨rfl, rfl, fun _ _ => rfl, fun _ ino h => ⟨ino, h, rfl, rfl, rfl⟩⟩

theorem opened {n : UInt32} (h : s.Preserves t) : s.Preserves (t.opened part n).2 where
  vol := Fs.opened_vol.trans h.vol
  tasks := Fs.opened_tasks.trans h.tasks
  files g hg := by
    rw [Fs.opened_fileTable]
    exact h.files g hg
  inodes addr ino hino := by
    obtain ⟨ino', hino', hsame⟩ := h.inodes addr ino hino
    unfold Fs.opened
    split
    . rw [Fs.inode?_updInode, hino']
      split
      . exact ⟨_, rfl, hsame⟩
      . exact ⟨_, rfl, hsame⟩
    . rw [Fs.inode?_pushInode, if_neg]
      . exact ⟨_, hino', hsame⟩
      . rintro rfl
        rw [Fs.inode?_newAddr] at hino'
        contradiction

theorem atDir {dir : Option UInt32} (h : s.Preserves t) : s.Preserves (t.atDir part dir).2 := by
  cases dir with
  | none => exact h
  | some d => exact h.opened

theorem setFile {g : Fin 32} {file : File} (h : s.Preserves t)
    (hfree : (s.fileTable g).fdInode = none)
    : s.Preserves (t.setFile g file) where
  vol := h.vol
  tasks := h.tasks
  files g' hg' := by
    have hne : g' ≠ g := by
      rintro rfl
      exact hg' hfree
    show Function.update t.fileTable g file g' = _
    rw [Function.update_of_ne hne]
    exact h.files g' hg'
  inodes := h.inodes

end Fs.Preserves

theorem Fs.Searchable.inode?_fileClosed {n : UInt32} {ino i : Inode} {a : Nat} {u : Fs}
    (hs : t.Searchable) (idx : Fin 32)
    (hino : (t.opened part n).2.inode? (t.opened part n).1 = some ino)
    (hu : ∀ a, u.inode? a = (t.opened part n).2.inode? a) (h : t.inode? a = some i)
    : ∃ i', (u.fileClosed idx (t.opened part n).1 ino).inode? a = some i' ∧ i'.iNo = i.iNo
        ∧ i'.iSize = i.iSize
        ∧ i'.iSectors = i.iSectors := by
  have hopened : t.Preserves (t.opened part n).2 := Fs.Preserves.refl.opened
  obtain ⟨i', hi', hsame⟩ := hopened.inodes a i h
  have hu' : u.inode? a = some i' := (hu a).trans hi'
  have hstate : (u.fileClosed idx (t.opened part n).1 ino).inode? a
      = ((u.updInode (t.opened part n).1 fun i => { i with writeDeny := false }).closed
          (t.opened part n).1
          { ino with writeDeny := false }).inode? a := rfl
  rw [hstate]
  unfold Fs.closed
  by_cases ha : a = (t.opened part n).1
  . -- it was open before, so that the count does not become 0
    have hcount : ino.iOpenCnts - 1 ≠ 0 := by
      rw [ha] at h
      have hpos := hs.pos _ _ h
      unfold Fs.opened at hino h
      split at hino
      . next heq =>
        rw [heq] at h
        rw [Fs.inode?_updInode, if_pos rfl, h, Option.map_some, Option.some.injEq] at hino
        rw [← hino]
        dsimp only
        omega
      . next heq =>
        rw [heq, Fs.inode?_newAddr] at h
        contradiction
    rw [if_neg hcount, Fs.inode?_updInode, Fs.inode?_updInode, hu', if_pos ha, if_pos ha]
    exact ⟨_, rfl, hsame⟩
  . split
    . rw [Fs.inode?_dropInode, if_neg ha, Fs.inode?_updInode, if_neg ha]
      exact ⟨_, hu', hsame⟩
    . rw [Fs.inode?_updInode, if_neg ha, Fs.inode?_updInode, if_neg ha]
      exact ⟨_, hu', hsame⟩

theorem Fs.Preserves.fileClosed {n : UInt32} {fd : Fin 8} {idx : Fin 32} {ino : Inode} {g : Int}
    {u : Fs} (h : s.Preserves t) (ht : t.Searchable) (hfree : (s.fileTable idx).fdInode = none)
    (hnone : (s.tasks task).fdTable fd = -1)
    (hino : (t.opened part n).2.inode? (t.opened part n).1 = some ino)
    (hvol : u.vol = t.vol) (htasks : u.tasks = (t.setFd task fd g).tasks)
    (hfiles : ∀ i, i ≠ idx → u.fileTable i = t.fileTable i)
    (hinodes : ∀ a, u.inode? a = (t.opened part n).2.inode? a)
    : s.Preserves ((u.fileClosed idx (t.opened part n).1 ino).setFd task fd (-1)) where
  vol := by
    have hclosed : (u.fileClosed idx (t.opened part n).1 ino).vol = u.vol := Fs.closed_vol
    exact (hclosed.trans hvol).trans h.vol
  tasks := by
    have hclosed : (u.fileClosed idx (t.opened part n).1 ino).tasks = u.tasks := Fs.closed_tasks
    simp only [Fs.setFd, hclosed, htasks, h.tasks, Function.update_self, Function.update_idem]
    rw [← hnone, Function.update_eq_self, Function.update_eq_self]
  files i hi := by
    have hne : i ≠ idx := by
      rintro rfl
      exact hi hfree
    have hclosed : (u.fileClosed idx (t.opened part n).1 ino).fileTable i = u.fileTable i := by
      unfold Fs.fileClosed Fs.setFile
      dsimp only
      rw [Function.update_of_ne hne, Fs.closed_fileTable]
      rfl
    exact (hclosed.trans (hfiles i hne)).trans (h.files i hi)
  inodes a i hi := by
    obtain ⟨i1, hi1, hsame1⟩ := h.inodes a i hi
    obtain ⟨i2, hi2, hsame2⟩ := ht.inode?_fileClosed idx hino hinodes hi1
    exact ⟨i2, hi2, hsame2.1.trans hsame1.1, hsame2.2.1.trans hsame1.2.1,
      hsame2.2.2.trans hsame1.2.2⟩

end Preserves

section Opens

def Fs.Opens (part : Partition) (task : Nat) (junk : UInt32) (s : Fs) (path : CStr) : Prop :=
  path.chars.getLast? ≠ some 47 ∧ (s.search part junk path.chars).Reaches path 0
    ∧ getFreeSlotInGlobal s ≠ none
    ∧ s.freeFd task ≠ none

end Opens

section Failure

end Failure

section Fixed

def execv : ProcM (Option ExecContext) := sysExecv 0 Mem.zero smallPartition 0 0x8050000 0x8050010

end Fixed

end RogOS
