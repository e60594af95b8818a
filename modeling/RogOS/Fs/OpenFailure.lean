import RogOS.Fs.AllocFailure
import RogOS.Fs.Descriptors

/-!
What a call of `sys_open` that returns -1 leaves behind.
-/

namespace RogOS

open Cmd

variable {part : Partition} {v : Vol} {ino : Inode} {e : DirEntry} {n i task : Nat}
  {blocks : Nat → UInt32} {s s' : Fs}
  {flags : UInt8}

section Entry

theorem newBlock_done {r : (Option (Nat → UInt32) × Inode) × Vol}
    (h : (syncDirEntry.newBlock part (blockBitmapAlloc part) e i blocks ino).run v = .ok r)
    : ∃ blocks' ino' w, (ideWrite (blocks' i) (syncDirEntry.newSector part e) 1).run w
        = .ok ((), r.2)
        ∧ r.1 = (some blocks', ino') := by
  rw [syncDirEntry.newBlock, bind_run] at h
  obtain ⟨o, v1, halloc, hrest⟩ := h
  cases o with
  | none => exact absurd rfl (blockBitmapAlloc_yields v _ halloc)
  | some lba =>
    simp only [bind_run] at hrest
    obtain ⟨_, v2, -, _, v3, -, hrest⟩ := hrest
    split at hrest
    . simp only [bind_run, pure_run] at hrest
      obtain ⟨_, v4, hwrite, hr⟩ := hrest
      rw [hr]
      refine ⟨_, _, v3, ?_, rfl⟩
      rw [Function.update_self]
      exact hwrite
    . split at hrest
      . next hi =>
        rw [bind_run] at hrest
        obtain ⟨o, v4, halloc', hrest⟩ := hrest
        cases o with
        | none => exact absurd rfl (blockBitmapAlloc_yields v3 _ halloc')
        | some lba' =>
          simp only [bind_run, pure_run] at hrest
          obtain ⟨_, v5, -, _, v6, -, _, v7, -, _, v8, hwrite, hr⟩ := hrest
          rw [hr]
          refine ⟨_, _, v7, ?_, rfl⟩
          rw [hi, Function.update_self]
          exact hwrite
      . simp only [bind_run, pure_run] at hrest
        obtain ⟨_, v4, -, _, v5, hwrite, hr⟩ := hrest
        rw [hr]
        refine ⟨_, _, v4, ?_, rfl⟩
        rw [Function.update_self]
        exact hwrite

theorem fillSlot_done {lba : UInt32} {w : Vol} (he : e.fType ≠ 0)
    (hwrite : (ideWrite lba (syncDirEntry.newSector part e) 1).run w = .ok ((), v))
    {r : (Bool × Inode) × Vol}
    (h : (syncDirEntry.fillSlot part e lba ino).run v = .ok r) : r.1.1 = true := by
  rw [ideWrite_run] at hwrite
  simp only [syncDirEntry.fillSlot, bind_run, ideRead_run] at h
  obtain ⟨buf, v1, ⟨-, hread⟩, hrest⟩ := h
  have hbuf : buf = (Mem.zero.blit 0 24 e.encode).clip 512 := by
    rw [(Prod.mk.inj hread).1, (Prod.mk.inj hwrite.2).2, newSector_eq]
    exact Mem.block_blit_self
  rw [hbuf, Partition.entriesPerSec_eq, ← freeSlot, freeSlot_newSector he] at hrest
  simp only [bind_run, pure_run] at hrest
  obtain ⟨_, v2, -, hr⟩ := hrest
  rw [hr]

theorem syncDirEntry.go_done (he : e.fType ≠ 0) (hzero : ∃ j, i ≤ j ∧ j < i + n ∧ blocks j = 0)
    {r : (Bool × Inode) × Vol}
    (h : (go part (blockBitmapAlloc part) e n i blocks ino).run v = .ok r) : r.1.1 = true := by
  induction n generalizing i ino v with
  | zero =>
    obtain ⟨j, h1, h2, -⟩ := hzero
    omega
  | succ n ih =>
    unfold go at h
    split at h
    . rw [bind_run] at h
      obtain ⟨p, v1, hblock, hrest⟩ := h
      obtain ⟨blocks', ino', w, hwrite, hp⟩ := newBlock_done hblock
      dsimp only at hp hwrite
      rw [hp] at hrest
      dsimp only at hrest
      rw [bind_run] at hrest
      obtain ⟨⟨ok, ino2⟩, v2, hfill, hrest⟩ := hrest
      have hok : ok = true := fillSlot_done he hwrite hfill
      rw [hok, pure_run] at hrest
      rw [hrest]
    . next hne =>
      rw [bind_run] at h
      obtain ⟨⟨ok, ino2⟩, v1, hfill, hrest⟩ := h
      cases ok with
      | true =>
        rw [pure_run] at hrest
        rw [hrest]
      | false =>
        refine ih ?_ hrest
        obtain ⟨j, h1, h2, h3⟩ := hzero
        refine ⟨j, ?_, by omega, h3⟩
        by_contra hlt
        rw [show j = i by omega] at h3
        exact hne h3

theorem syncDirEntry_done (he : e.fType ≠ 0) {r : (Bool × Inode) × Vol}
    (h : (syncDirEntry part ino e).run v = .ok r)
    : r.1.1 = true := by
  simp only [syncDirEntry, syncDirEntryWith, bind_run] at h
  obtain ⟨_, v1, -, hgo⟩ := h
  refine syncDirEntry.go_done he ⟨12, by omega, by omega, ?_⟩ hgo
  rw [if_neg (by omega)]

end Entry

section Open

structure OpenUndone (part : Partition) (task : Nat) (s s' : Fs) : Prop where
  fileTable : s'.fileTable = s.fileTable
  fdTable : (s'.tasks task).fdTable = (s.tasks task).fdTable
  inodes : ∀ addr, (s'.inode? addr).map (fun i => (i.iNo, i.iOpenCnts, i.writeDeny))
    = (s.inode? addr).map fun i => (i.iNo, i.iOpenCnts, i.writeDeny)
  entries : ∀ n, ∀ i < 140, ∀ k < 21,
    (s'.vol.image part).dirent (s'.view part n) i k = (s.vol.image part).dirent (s.view part n) i k
  bitmaps : ∀ t, s'.vol.bitmap part t = s.vol.bitmap part t
  onDisk : ∀ t, ∀ i < (s.vol.bitmap part t).btmpBytesLen,
    s'.vol.disk ((part.bitmapLba t).toNat * 512 + i)
      = s.vol.disk ((part.bitmapLba t).toNat * 512 + i)

namespace OpenUndone

theorem refl : OpenUndone part task s s :=
  ⟨rfl, rfl, fun _ => rfl, fun _ _ _ _ _ => rfl, fun _ => rfl, fun _ _ _ => rfl⟩

theorem not_of_taken {g : Fin 32} (hfree : getFreeSlotInGlobal s = some g)
    (hused : (s'.fileTable g).fdInode ≠ none)
    : ¬ OpenUndone part task s s' := by
  intro hun
  rw [hun.fileTable] at hused
  exact hused (getFreeSlotInGlobal_eq_some hfree).2

theorem not_opened {d : UInt32} (hs : s.AddrNodup)
    : ¬ OpenUndone part task s (s.opened part d).2 := by
  intro hun
  have hcount := hun.inodes (s.opened part d).1
  obtain ⟨k, hk⟩ := @Fs.AddrNodup.opened_inode? part s d hs
  unfold Fs.opened at hcount
  cases hfind : s.find? d with
  | some p =>
    simp only [hfind] at hcount
    rw [Fs.inode?_updInode, if_pos rfl, (hs.find?_eq_some hfind).1] at hcount
    simp at hcount
  | none =>
    simp only [hfind] at hcount
    rw [Fs.inode?_pushInode, if_pos rfl, Fs.inode?_newAddr] at hcount
    contradiction

end OpenUndone

def TakesNothing (s : Fs) (path : CStr) (flags : UInt8) (f : Found) : Prop :=
  path.chars.getLast? = some 47 ∨ ¬ f.Reaches path flags
    ∨ getFreeSlotInGlobal s = none ∧ (flags &&& oCreat ≠ 0 ∨ f.dir = none)

/--
A `sys_open` that returns -1 leaves everything as it was if and only if it refused the path, or
there was no free entry of the file table: then a file to be created is given up, but the parent
directory of a file to be opened stays open.
-/
theorem openUndone_iff {junk : UInt32} {path : CStr} (hs : s.Searchable)
    (h : (sysOpen part task junk path flags).run s = .ok (-1, s'))
    : OpenUndone part task s s' ↔ TakesNothing s path flags (s.search part junk path.chars) := by
  have htried := sysOpen_tried hs h
  generalize s.search part junk path.chars = f at htried ⊢
  have htaken : ∀ g, getFreeSlotInGlobal s = some g → path.chars.getLast? ≠ some 47
      → f.Reaches path flags →
      (s'.fileTable g).fdInode ≠ none
        → (OpenUndone part task s s' ↔ TakesNothing s path flags f) := by
    intro g hfree hslash hreach hused
    refine iff_of_false (OpenUndone.not_of_taken hfree hused) ?_
    rintro (hlast | hnot | ⟨hfull, -⟩)
    . exact hslash hlast
    . exact hnot hreach
    . rw [hfull] at hfree
      contradiction
  generalize hr : ((-1 : Int), s') = r at htried
  cases htried with
  | refused hreason =>
    cases hr
    exact iff_of_true .refl (hreason.imp_right .inl)
  | @create filename fd t s1 hslash hreach hmiss hshort hname hmake hclose =>
    obtain ⟨hfd, rfl⟩ := Prod.mk.inj hr
    rw [← hfd] at hmake
    generalize hr' : ((-1 : Int), t) = r at hmake
    cases hmake with
    | noInode halloc => exact absurd rfl (inodeBitmapAlloc_yields _ _ halloc)
    | noSlot halloc hslot hundo =>
      cases hr'
      rw [clear_taken (fun _ => .inr rfl) halloc hundo] at hclose
      have hs' : s' = s := hs.dirClose_atDir hclose
      rw [getFreeSlotInGlobal_atDir] at hslot
      rw [hs']
      exact iff_of_true .refl (.inr (.inr ⟨hslot, .inl (hreach.2.2.mp hmiss)⟩))
    | noEntry halloc hslot hparent hentry hundo =>
      have htrue := syncDirEntry_done (by decide : FileType.regular.code ≠ 0) hentry
      contradiction
    | @made n v v' p p' g halloc hslot hparent hlen hentered =>
      rw [getFreeSlotInGlobal_atDir] at hslot
      apply htaken g hslot hslash hreach
      rw [hclose.fileTable, show t = _ from congrArg Prod.snd hr', Fs.installed_fileTable]
      simp [Fs.created, Fs.pushInode, Fs.updInode, Fs.setFile]
  | existing hslash hreach hfound hopen =>
    cases hopen with
    | noSlot hslot =>
      cases hr
      rw [getFreeSlotInGlobal_atDir] at hslot
      cases hdir : f.dir with
      | none => exact iff_of_true .refl (.inr (.inr ⟨hslot, .inr hdir⟩))
      | some d =>
        refine iff_of_false (OpenUndone.not_opened hs.addrs) ?_
        rintro (hlast | hnot | ⟨-, hcreat | hnone⟩)
        . exact hslash hlast
        . exact hnot hreach
        . exact hfound (hreach.2.2.mpr hcreat)
        . rw [hdir] at hnone
          contradiction
    | @denied g ino hslot hino hwrite hdeny =>
      rw [getFreeSlotInGlobal_atDir] at hslot
      apply htaken g hslot hslash hreach
      rw [(Prod.mk.inj hr).2]
      simp [Fs.taken, Fs.setFile]
    | @write g ino hslot hino hwrite hallow =>
      rw [getFreeSlotInGlobal_atDir] at hslot
      apply htaken g hslot hslash hreach
      rw [show s' = _ from congrArg Prod.snd hr, Fs.installed_fileTable]
      simp [Fs.taken, Fs.setFile, Fs.updInode]
    | @read g hslot hread =>
      rw [getFreeSlotInGlobal_atDir] at hslot
      apply htaken g hslot hslash hreach
      rw [show s' = _ from congrArg Prod.snd hr, Fs.installed_fileTable]
      simp [Fs.taken, Fs.setFile]

theorem openUndone_pathA
    : ∃ s', (sysOpen smallPartition 0 0 pathA oRdwr).run smallFs = .ok (-1, s')
        ∧ OpenUndone smallPartition 0 smallFs s' := by
  have hret : (sysOpen smallPartition 0 0 pathA oRdwr).returns smallFs (· == -1) = true := by
    decide +kernel
  obtain ⟨n, hrun, hn⟩ := run_of_returns hret
  rw [show n = -1 from eq_of_beq hn] at hrun
  refine ⟨_, hrun, ?_⟩
  rw [openUndone_iff searchable_smallFs hrun]
  exact .inr (.inl (by unfold Found.Reaches; decide +kernel))

def deniedFs : Fs :=
  (sysOpen smallPartition 0 0 pathF oRdwr).after
    ((sysOpen smallPartition 0 0 pathF (oCreat ||| oRdwr)).after smallFs)

/-- The file is opened for writing again: the entry of the file table stays taken. -/
theorem not_openUndone_deniedFs
    : deniedFs.Searchable
        ∧ ∃ s', (sysOpen smallPartition 0 0 pathF oRdwr).run deniedFs = .ok (-1, s')
          ∧ ¬ OpenUndone smallPartition 0 deniedFs s' := by
  refine ⟨Fs.searchable_of_all (by decide +kernel), ?_⟩
  have hret : (do
      let n ← sysOpen smallPartition 0 0 pathF oRdwr
      let s ← get
      pure (n == -1 && (s.fileTable 5).fdInode != none) : FsM Bool).returns deniedFs id = true := by
    decide +kernel
  obtain ⟨c, hrun, hc⟩ := run_of_returns hret
  simp only [bind_run, get_run, pure_run] at hrun
  obtain ⟨n, s', hopen, _, _, hget, hpure⟩ := hrun
  cases hget
  rw [show c = _ from (Prod.mk.inj hpure).1, id, Bool.and_eq_true, beq_iff_eq, bne_iff_ne] at hc
  rw [hc.1] at hopen
  exact ⟨s', hopen, OpenUndone.not_of_taken (by decide +kernel : getFreeSlotInGlobal deniedFs
    = some 5) hc.2⟩

end Open

end RogOS
