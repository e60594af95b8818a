import RogOS.Fs.TreeSystem

/-!
The positions of the open files stay inside the files, as long as nothing is written to an empty
file with a count of 0, after which `file_write` sets the position to `i_size - 1`.
-/

namespace RogOS

variable {part : Partition} {strict : Bool} {s s' t : Fs} {T : Tree} {task addr lim : Nat}
  {n : UInt32} {f : Found}
  {path : CStr} {flag : UInt8} {extra : Nat → Nat} {g : Fin 32} {ino p p' : Inode} {v : Vol}
  {dir : Option UInt32}

def Fs.PositionsIn (s : Fs) : Prop :=
  ∀ g addr ino, (s.fileTable g).fdInode = some addr → s.inode? addr = some ino →
    (s.fileTable g).fdPos.toNat ≤ ino.iSize.toNat

def Fs.KeepsPositions (s s' : Fs) : Prop :=
  ∀ g addr i', (s'.fileTable g).fdInode = some addr → s'.inode? addr = some i' →
    (s'.fileTable g).fdPos = 0
      ∨ s'.fileTable g = s.fileTable g ∧ ∃ i, s.inode? addr = some i ∧ i.iSize = i'.iSize

theorem Fs.PositionsIn.keeps (h : s.PositionsIn) (hk : s.KeepsPositions s') : s'.PositionsIn := by
  intro g addr i' hg hi'
  obtain h0 | ⟨hfile, i, hi, hsize⟩ := hk g addr i' hg hi'
  . rw [h0]
    exact Nat.zero_le _
  . rw [hfile] at hg ⊢
    rw [← hsize]
    exact h g addr i hg hi

namespace Fs.KeepsPositions

theorem refl : s.KeepsPositions s := fun _ _ i _ hi => .inr ⟨rfl, i, hi, rfl⟩

theorem trans (h1 : s.KeepsPositions t) (h2 : t.KeepsPositions s') : s.KeepsPositions s' := by
  intro g addr i' hg hi'
  obtain h0 | ⟨hfile, i, hi, hsize⟩ := h2 g addr i' hg hi'
  . exact .inl h0
  . rw [hfile] at hg ⊢
    obtain h0 | ⟨hfile', j, hj, hsize'⟩ := h1 g addr i hg hi
    . exact .inl h0
    . exact .inr ⟨hfile', j, hj, hsize'.trans hsize⟩

theorem of_inodes (hfiles : s'.fileTable = s.fileTable)
    (h : ∀ g addr i', (s.fileTable g).fdInode = some addr → s'.inode? addr = some i' →
      ∃ i, s.inode? addr = some i ∧ i.iSize = i'.iSize) : s.KeepsPositions s' := by
  intro g addr i' hg hi'
  rw [hfiles] at hg ⊢
  exact .inr ⟨rfl, h g addr i' hg hi'⟩

theorem setVol
    : s.KeepsPositions { s with vol := v } := of_inodes rfl fun _ _ i _ hi => ⟨i, hi, rfl⟩

theorem setTasks {tasks : Nat → Task} : s.KeepsPositions { s with tasks := tasks } :=
  of_inodes rfl fun _ _ i _ hi => ⟨i, hi, rfl⟩

theorem setDirs {dirs : List (Nat × Dir)} : s.KeepsPositions { s with dirs := dirs } :=
  of_inodes rfl fun _ _ i _ hi => ⟨i, hi, rfl⟩

theorem updInode {u : Inode → Inode}
    (h : ∀ g i, (s.fileTable g).fdInode = some addr → s.inode? addr = some i
      → (u i).iSize = i.iSize)
    : s.KeepsPositions (s.updInode addr u) := by
  refine @of_inodes s (s.updInode addr u) rfl ?_
  intro g a i' hg hi'
  rw [Fs.inode?_updInode] at hi'
  split at hi'
  . next ha =>
    rw [Option.map_eq_some_iff] at hi'
    obtain ⟨i, hi, rfl⟩ := hi'
    rw [ha] at hg hi ⊢
    exact ⟨i, hi, (h g i hg hi).symm⟩
  . exact ⟨i', hi', rfl⟩

theorem dropInode : s.KeepsPositions (s.dropInode addr) := by
  refine @of_inodes s (s.dropInode addr) rfl ?_
  intro g a i' hg hi'
  rw [Fs.inode?_dropInode] at hi'
  split at hi'
  . contradiction
  . exact ⟨i', hi', rfl⟩

theorem pushInode (hnew : ∀ g, (s.fileTable g).fdInode ≠ some addr)
    : s.KeepsPositions (s.pushInode addr ino) := by
  refine @of_inodes s (s.pushInode addr ino) rfl ?_
  intro g a i' hg hi'
  rw [Fs.inode?_pushInode] at hi'
  split at hi'
  . next ha =>
    rw [ha] at hg
    exact absurd hg (hnew g)
  . exact ⟨i', hi', rfl⟩

theorem opened (hc : s.Counted extra) : s.KeepsPositions (s.opened part n).2 := by
  unfold Fs.opened
  split
  . exact updInode fun _ _ _ _ => rfl
  . apply pushInode
    intro g hg
    obtain ⟨i, hi⟩ := hc.inode_of_slot hg
    rw [Fs.inode?_newAddr] at hi
    contradiction

theorem closed : s.KeepsPositions (s.closed addr ino) := by
  unfold Fs.closed
  split
  . exact dropInode
  . exact updInode fun _ _ _ _ => rfl

theorem setFile {x : File} (hx : x.fdPos = 0 ∨ x.fdInode = none)
    : s.KeepsPositions (s.setFile g x) := by
  intro g' a i' hg hi'
  have hfile : (s.setFile g x).fileTable g' = if g' = g then x else s.fileTable g' :=
    Function.update_apply _ _ _ _
  rw [hfile] at hg ⊢
  split at hg
  . next heq =>
    rw [if_pos heq]
    cases hx with
    | inl h0 => exact .inl h0
    | inr hnone =>
      rw [hnone] at hg
      contradiction
  . next hne =>
    rw [if_neg hne]
    exact .inr ⟨rfl, i', hi', rfl⟩

theorem installed : s.KeepsPositions (s.installed task g).2 := by
  obtain ⟨-, heq⟩ | ⟨fd, -, heq⟩ := @Fs.installed_cases s task g
  . rw [heq]
    exact refl
  . rw [heq]
    exact setTasks

theorem atDir (hc : s.Counted extra) : s.KeepsPositions (s.atDir part dir).2 := by
  cases dir with
  | none => exact refl
  | some d => exact opened hc

theorem dirClosed {x : Fs} (hc : x.DirClosed part dir t s') : t.KeepsPositions s' := by
  obtain ⟨-, rfl⟩ | ⟨d, ino, -, -, rfl⟩ := hc.cases
  . exact refl
  . exact closed

end Fs.KeepsPositions

section Calls

theorem Fs.Holds.searched_isDir {a : Image} (h : s.Holds part strict T)
    (hf : T.Searched a path.chars f)
    : T.IsDir (f.dir.getD 0) := by
  have hroot : T.IsDir 0 := ⟨h.tree.root.1, h.tree.root.2.1⟩
  cases hf with
  | root => exact hroot
  | noName unnamed => exact hroot
  | located hf =>
    cases hf with
    | missing split isDir proper => exact isDir
    | regular split isDir node finds type => exact isDir
    | directory split isDir node finds type => exact isDir

theorem Fs.Holds.slot_ne (h : s.Holds part strict T) (hp : s.inode? addr = some p)
    (hD : T.IsDir p.iNo)
    : (s.fileTable g).fdInode ≠ some addr := by
  intro hg
  have hreg := h.mirrors.files g addr p hg hp
  rw [hD.2] at hreg
  contradiction

theorem Fs.Holds.keepsPositions_dirSet (h : s.Holds part strict T) (hD : T.IsDir (dir.getD 0))
    (hp : (s.atDir part dir).2.inode? (s.dirAddr part dir) = some p)
    : s.KeepsPositions (s.dirSet part dir p' v) := by
  obtain ⟨extra, hcount⟩ := h.counted
  have hat := h.atDir hD
  have hno := (h.parent hD hp).1
  have hopen : s.KeepsPositions (s.atDir part dir).2 := .atDir hcount
  refine (hopen.trans .setVol).trans (.updInode ?_)
  intro g i hg _
  exact absurd hg (hat.slot_ne hp (by rw [hno]; exact hD))

theorem FileCreated.keepsPositions {filename : List UInt8} {r : Int × Fs}
    (hm : FileCreated part task (s.atDir part dir).1 filename flag (s.atDir part dir).2 r)
    (h : s.Holds part strict T) (hD : T.IsDir (dir.getD 0)) : s.KeepsPositions r.2 := by
  obtain ⟨extra, hcount⟩ := h.counted
  have hat := h.atDir hD
  have hkeep : s.KeepsPositions (s.atDir part dir).2 := .atDir hcount
  have hslot : ∀ p, (s.atDir part dir).2.inode? (s.dirAddr part dir) = some p →
      ∀ g, ((s.atDir part dir).2.fileTable g).fdInode ≠ some (s.dirAddr part dir) := by
    intro p hp g
    exact hat.slot_ne hp (by rw [(h.parent hD hp).1]; exact hD)
  apply hkeep.trans
  cases hm with
  | noInode alloc => exact .setVol
  | noSlot alloc slot undo => exact .setVol
  | noEntry alloc slot parent entry undo =>
    rename_i n v v1 v' p p' fdIdx
    have hleave : (s.atDir part dir).2.KeepsPositions ((s.atDir part dir).2.setFile fdIdx ⟨0, 0,
        none⟩) :=
      .setFile (.inl rfl)
    refine (hleave.trans .setVol).trans (.updInode ?_)
    intro g i hg _
    exfalso
    have hfile : ((s.atDir part dir).2.setFile fdIdx ⟨0, 0, none⟩).fileTable g
        = if g = fdIdx then ⟨0, 0, none⟩ else (s.atDir part dir).2.fileTable g :=
            Function.update_apply _ _ _ _
    dsimp only at hg
    rw [hfile] at hg
    split at hg
    . contradiction
    . exact hslot p parent g hg
  | made alloc slot parent length entered =>
    rename_i n v v' p p' fdIdx
    refine Fs.KeepsPositions.trans ?_ .installed
    rw [Fs.created_eq]
    have hupd : (s.atDir part dir).2.KeepsPositions (Fs.updInode { (s.atDir part dir).2 with
        vol := v' }
        (s.dirAddr part dir) fun _ => p') := by
      refine Fs.KeepsPositions.setVol.trans (.updInode ?_)
      intro g i hg _
      exact absurd hg (hslot p parent g)
    refine (hupd.trans (.pushInode ?_)).trans (.setFile (.inl rfl))
    intro g hg
    have hat' : (s.atDir part dir).2.Counted (s.pinDir part extra dir) := hcount.atDir
    obtain ⟨i, hi⟩ := hat'.inode_of_slot hg
    rw [Fs.inode?_newAddr] at hi
    contradiction

theorem FileOpened.keepsPositions {r : Int × Fs} (ho : FileOpened part task n flag s r)
    (hc : s.Counted extra)
    : s.KeepsPositions r.2 := by
  have htaken : ∀ g, s.KeepsPositions (s.taken part n g flag) :=
    fun g => (Fs.KeepsPositions.opened hc).trans (.setFile (.inl rfl))
  cases ho with
  | noSlot slot => exact .refl
  | denied slot inode write deny => exact htaken _
  | write slot inode write allow =>
    refine Fs.KeepsPositions.trans ?_ .installed
    exact (htaken _).trans (.updInode fun _ _ _ _ => rfl)
  | read slot read => exact (htaken _).trans .installed

theorem SysOpened.keepsPositions {r : Int × Fs} (ho : SysOpened part task path flag s f r)
    (h : s.Holds part strict T)
    (hf : T.Searched (s.vol.image part) path.chars f) : s.KeepsPositions r.2 := by
  have hD := h.searched_isDir hf
  obtain ⟨extra, hcount⟩ := h.counted
  cases ho with
  | quit => exact .refl
  | create missing short type creat slash all name make close =>
    exact (make.keepsPositions h hD).trans (.dirClosed close)
  | existing found file creat all open_ =>
    exact (Fs.KeepsPositions.atDir hcount).trans (open_.keepsPositions hcount.atDir)

theorem sysClose_keepsPositions {fd : Int} {r : Int × Fs} (h : (sysClose task fd).run s = .ok r)
    : s.KeepsPositions r.2 := by
  obtain heq | ⟨i, g, addr, ino, -, -, -, -, heq⟩ := sysClose_run h
  . rw [heq]
    exact .refl
  . rw [heq]
    have hdeny : s.KeepsPositions (s.updInode addr fun i => { i with writeDeny := false }) :=
      .updInode fun _ _ _ _ => rfl
    exact ((hdeny.trans .closed).trans (.setFile (.inr rfl))).trans .setTasks

theorem sysClosedir_keepsPositions {ptr : Option DirPtr} {r : Int × Fs}
    (h : (sysClosedir ptr).run s = .ok r)
    : s.KeepsPositions r.2 := by
  cases sysClosedir_run h with
  | inl heq =>
    rw [heq]
    exact .refl
  | inr hex =>
    obtain ⟨id, d, ino, -, -, -, rfl⟩ := hex
    exact Fs.KeepsPositions.closed.trans .setDirs

theorem DirMade.keepsPositions {r : Int × Fs} (hm : DirMade part s f r) (h : s.Holds part strict T)
    (hf : T.Searched (s.vol.image part) path.chars f) : s.KeepsPositions r.2 := by
  cases hm with
  | quit => exact .refl
  | done missing short name parent make close =>
    exact (h.keepsPositions_dirSet (h.searched_isDir hf) parent).trans (.dirClosed close)

theorem Unlinked.keepsPositions {r : Int × Fs} (hu : Unlinked part s f r)
    (h : s.Holds part strict T)
    (hf : T.Searched (s.vol.image part) path.chars f) : s.KeepsPositions r.2 := by
  cases hu with
  | quit => exact .refl
  | done found nonzero file unused parent delete release close =>
    exact (h.keepsPositions_dirSet (h.searched_isDir hf) parent).trans (.dirClosed close)

theorem DirOpened.keepsPositions {r : Option DirPtr × Fs} (ho : DirOpened part s f r)
    (hc : s.Counted extra)
    : s.KeepsPositions r.2 := by
  cases ho with
  | quit => exact .refl
  | done found dir close =>
    have hchild : s.KeepsPositions (s.atChild part f).2 :=
      (Fs.KeepsPositions.atDir hc).trans (.opened hc.atDir)
    exact (hchild.trans (.dirClosed close)).trans .setDirs

theorem Fs.atChild_dirInode
    : (s.atChild part f).2.dirInode (s.atDir part f.dir).1 = s.dirAddr part f.dir := by
  unfold Fs.atChild Fs.dirAddr
  cases f.dir with
  | none =>
    show ((s.atDir part none).2.opened part f.no).2.rootDir = s.rootDir
    unfold Fs.opened
    split <;> rfl
  | some d => rfl

theorem DirRemoved.keepsPositions {r : Int × Fs} (hr : DirRemoved part s f r)
    (h : s.Holds part strict T)
    (hf : T.Searched (s.vol.image part) path.chars f) : s.KeepsPositions r.2 := by
  have hD := h.searched_isDir hf
  obtain ⟨extra, hcount⟩ := h.counted
  cases hr with
  | quit => exact .refl
  | done found nonzero dir child empty blocks parent delete release open_ close =>
    rename_i c p p' c' ok v v' s'
    have hchild : s.KeepsPositions (s.atChild part f).2 :=
      (Fs.KeepsPositions.atDir hcount).trans (.opened hcount.atDir)
    have hat := h.atDir hD
    obtain ⟨q, hq⟩ := h.dirAddr_inode? f.dir
    have hset : (s.atChild part f).2.KeepsPositions (s.childSet part f p' v') := by
      refine Fs.KeepsPositions.setVol.trans (.updInode ?_)
      intro g i hg _
      have hfiles : (s.atChild part f).2.fileTable = (s.atDir part f.dir).2.fileTable :=
        Fs.opened_fileTable
      dsimp only at hg
      rw [hfiles, Fs.atChild_dirInode] at hg
      exact absurd hg (hat.slot_ne hq (by rw [(h.parent hD hq).1]; exact hD))
    exact ((hchild.trans hset).trans .closed).trans (.dirClosed close)

end Calls

section Writes

variable {buf : Mem} {count : UInt32}

theorem writeLoop_fdPos {blocks : Nat → UInt32} {fuel : Nat} {first : Bool} {c : fileWrite.Cursor}
    {r : fileWrite.Cursor × Vol}
    (h : (fileWrite.writeLoop blocks buf count fuel first c).run v = .ok r)
    (hc : c.fdPos = c.inode.iSize - 1)
    : r.1.fdPos = r.1.inode.iSize - 1 := by
  induction fuel generalizing c first v with
  | zero => exact absurd h Cmd.throw_run
  | succ fuel ih =>
    unfold fileWrite.writeLoop at h
    split at h
    . rw [Cmd.bind_run] at h
      obtain ⟨c', v', h1, h2⟩ := h
      apply ih h2
      simp only [fileWrite.writeChunk, Cmd.bind_run, Cmd.pure_run] at h1
      obtain ⟨_, _, -, _, _, -, _, _, -, h3⟩ := h1
      rw [Prod.mk.injEq] at h3
      rw [h3.1]
      dsimp only [Inode.grow]
      rw [hc]
      grind
    . rw [Cmd.pure_run] at h
      rw [h]
      exact hc

theorem fileWrite_fdPos {fdPos : UInt32} (hS : FileShape part lim (v.image part) ino)
    (hfree : (v.image part).FreeBelow part lim) {r : (Int × UInt32 × Inode) × Vol}
    (h : (fileWrite part fdPos ino buf count).run v = .ok r)
    : (r.1.2.1 = fdPos ∧ r.1.2.2 = ino)
        ∨ r.1.2.1 = r.1.2.2.iSize - 1 ∧ r.1.2.2.iSize.toNat = ino.iSize.toNat + count.toNat := by
  by_cases hlong : 512 * 140 < ino.iSize + count
  . left
    rw [fileWrite_refused hlong] at h
    cases h
    exact ⟨rfl, rfl⟩
  . right
    obtain ⟨-, a', hW, -, -⟩ := fileWrite_wrote hS hfree hlong h
    refine ⟨?_, hW.size⟩
    unfold fileWrite fileWriteWith at h
    rw [if_neg hlong] at h
    simp only [Cmd.bind_run] at h
    obtain ⟨⟨ok1, ino1⟩, v1, h1, h2⟩ := h
    have hok1 := (firstBlock_run hS hfree h1).1
    dsimp only at hok1
    rw [hok1] at h2
    simp only [Cmd.bind_run, Cmd.assert_run] at h2
    obtain ⟨_, _, ⟨-, h3⟩, ⟨ok2, blocks, ino2⟩, v2, h4, h5⟩ := h2
    cases h3
    have hok2 := (collect_ok h4).1
    dsimp only at hok2
    rw [hok2] at h5
    simp only [Cmd.bind_run, Cmd.pure_run] at h5
    obtain ⟨c, v3, h6, _, v4, -, h8⟩ := h5
    rw [h8]
    exact writeLoop_fdPos h6 (by rw [(collect_ok h4).2])

theorem Fs.PositionsIn.wrote {ino' : Inode} {pos : UInt32} (h : s.PositionsIn)
    (hi : s.inode? addr = some ino) (hg : (s.fileTable g).fdInode = some addr)
    (hgrow : ino.iSize.toNat ≤ ino'.iSize.toNat) (hpos : pos.toNat ≤ ino'.iSize.toNat)
    : (Fs.setFile (Fs.updInode { s with vol := v } addr fun _ => ino') g { s.fileTable g with
        fdPos := pos }).PositionsIn := by
  intro g' a i' hg' hi'
  have hfile :
      (Fs.setFile (Fs.updInode { s with vol := v } addr fun _ => ino') g { s.fileTable g with
      fdPos := pos }).fileTable g'
      = if g' = g then { s.fileTable g with fdPos := pos } else s.fileTable g' :=
          Function.update_apply _ _ _ _
  have hinode : (Fs.updInode { s with vol := v } addr fun _ => ino').inode? a = some i' := hi'
  rw [Fs.inode?_updInode] at hinode
  rw [hfile] at hg' ⊢
  split at hg'
  . next heq =>
    rw [if_pos heq]
    dsimp only at hg' ⊢
    rw [hg, Option.some.injEq] at hg'
    rw [if_pos hg'.symm, Option.map_eq_some_iff] at hinode
    obtain ⟨_, -, rfl⟩ := hinode
    exact hpos
  . next hne =>
    rw [if_neg hne]
    split at hinode
    . next ha =>
      rw [Option.map_eq_some_iff] at hinode
      obtain ⟨_, -, rfl⟩ := hinode
      rw [ha] at hg'
      exact (h g' addr ino hg' hi).trans hgrow
    . exact h g' a i' hg' hinode

theorem writeFile_positionsIn {r : Int × Fs} (hr : (writeFile part g buf count).run s = .ok r)
    (h : s.Holds part strict T) (hpos : s.PositionsIn)
    (hsome : count ≠ 0 ∨ ∀ addr ino, (s.fileTable g).fdInode = some addr
    → s.inode? addr = some ino →
      ino.iSize ≠ 0) : r.2.PositionsIn := by
  simp only [writeFile, Cmd.bind_run, Cmd.get_run] at hr
  obtain ⟨_, _, h1, h2⟩ := hr
  cases h1
  cases hfd : (s.fileTable g).fdInode with
  | none =>
    rw [hfd] at h2
    exact absurd h2 Cmd.throw_run
  | some addr =>
    rw [hfd] at h2
    simp only [Cmd.bind_run, onInode_run, Cmd.modify_run, Cmd.pure_run] at h2
    obtain ⟨q, s1, ⟨ino, ino', v, hino, ⟨w, v1, hw, heq⟩, hs1⟩, _, _, h3, h4⟩ := h2
    cases h3
    rw [Prod.mk.injEq, Prod.mk.injEq] at heq
    obtain ⟨⟨hq, hino'⟩, hv⟩ := heq
    have hreg := h.mirrors.files g addr ino hfd hino
    have hnode := h.mirrors.inode addr ino hino
    rw [h4, hs1]
    dsimp only
    have hle := hpos g addr ino hfd hino
    apply hpos.wrote hino hfd
    . obtain ⟨-, hsame⟩ | ⟨-, hsize⟩ :=
        fileWrite_fdPos (h.tree.fileShape hnode hreg) h.tree.tail.freeBelow hw
      . rw [hino', hsame]
      . dsimp only at hsize
        rw [hino']
        omega
    . rw [hq, hino']
      obtain ⟨hpos', hsame⟩ | ⟨hpos', hsize⟩ :=
        fileWrite_fdPos (h.tree.fileShape hnode hreg) h.tree.tail.freeBelow hw
      . dsimp only at hpos' hsame ⊢
        rw [hpos', hsame]
        exact hle
      . -- the file is not empty, so that the position before its end is inside of it
        dsimp only at hpos' hsize ⊢
        have hne : w.2.2.iSize.toNat ≠ 0 := by
          cases hsome with
          | inl hcount =>
            have := mt UInt32.toNat_inj.mp hcount
            rw [UInt32.toNat_zero] at this
            omega
          | inr hsize0 =>
            have := mt UInt32.toNat_inj.mp (hsize0 addr ino hfd hino)
            rw [UInt32.toNat_zero] at this
            omega
        have hlt := w.2.2.iSize.toNat_lt
        rw [hpos', UInt32.toNat_sub]
        have c1 : (1 : UInt32).toNat = 1 := rfl
        omega

end Writes

section Moves

theorem int32_toUInt32_le {size : UInt32} {pos : Int32} (hsmall : size.toNat < 71680)
    (h : ¬ (pos < 0 ∨ size.toInt32 - 1 < pos)) : pos.toUInt32.toNat ≤ size.toNat := by
  rw [not_or, Int32.lt_iff_toInt_lt, Int32.lt_iff_toInt_lt] at h
  have hpos : pos.toUInt32.toNat = pos.toBitVec.toNat := rfl
  have hint : pos.toInt = pos.toBitVec.toInt := rfl
  have hsub : (size.toInt32 - 1).toInt = (size.toBitVec - 1).toInt := rfl
  have hnat : size.toBitVec.toNat = size.toNat := rfl
  have h0 : (0 : Int32).toInt = 0 := rfl
  have h1 : (1 : BitVec 32).toNat = 1 := rfl
  rw [hint, hsub, h0, BitVec.toInt_eq_toNat_cond, BitVec.toInt_eq_toNat_cond, BitVec.toNat_sub,
    hnat, h1] at h
  rw [hpos]
  omega

theorem Fs.PositionsIn.setPos {pos : UInt32} (h : s.PositionsIn)
    (hg : (s.fileTable g).fdInode = some addr) (hi : s.inode? addr = some ino)
    (hpos : pos.toNat ≤ ino.iSize.toNat)
    : (s.setFile g { s.fileTable g with fdPos := pos }).PositionsIn := by
  intro g' a i' hg' hi'
  have hfile : (s.setFile g { s.fileTable g with fdPos := pos }).fileTable g'
      = if g' = g then { s.fileTable g with fdPos := pos } else s.fileTable g' :=
          Function.update_apply _ _ _ _
  have hinode : s.inode? a = some i' := hi'
  rw [hfile] at hg' ⊢
  split at hg'
  . next heq =>
    rw [if_pos heq]
    dsimp only at hg' ⊢
    rw [hg, Option.some.injEq] at hg'
    rw [← hg', hi, Option.some.injEq] at hinode
    rw [← hinode]
    exact hpos
  . next hne =>
    rw [if_neg hne]
    exact h g' a i' hg' hinode

theorem Fs.Moved.positionsIn (hm : s.Moved s') (h : s.Holds part strict T) (hpos : s.PositionsIn)
    : s'.PositionsIn := by
  cases hm with
  | stay => exact hpos
  | read slot inode read =>
    rename_i g addr ino buf count r v
    apply hpos.setPos slot inode
    have hS :=
      h.tree.fileShape (h.mirrors.inode addr ino inode) (h.mirrors.files g addr ino slot inode)
    have hle := hpos g addr ino slot inode
    have hD : FileData (s.vol.image part) ino (fileByte (s.vol.image part) ino) := ⟨fun _ _ => rfl⟩
    have hrun := fileRead_run hS hD hle (fileRead_no_wrap hle hS.small read) read
    have hsize : readSize ino (s.fileTable g).fdPos count
        ≤ ino.iSize.toNat - (s.fileTable g).fdPos.toNat := Nat.min_le_right _ _
    have hafter := hrun.2.2.2
    dsimp only at hafter
    omega
  | seek slot inode range =>
    rename_i g addr ino newPos
    apply hpos.setPos slot inode
    have hok :=
      h.tree.file _ _ (h.mirrors.inode addr ino inode) (h.mirrors.files g addr ino slot inode)
    exact int32_toUInt32_le hok.small range

end Moves

section Runs

def Fs.WritesSome (s : Fs) : TreeCall → Prop
  | .call (.write task fd _ count) => count = 0 → ∀ (i : Fin 8) (g : Fin 32) addr ino, fd = i.val →
    (s.tasks task).fdTable i = g.val → (s.fileTable g).fdInode = some addr
    → s.inode? addr = some ino → ino.iSize ≠ 0
  | _ => True

theorem sysWrite_positionsIn {buf : Mem} {count : UInt32} {fd : Int} {r : Int × Fs}
    (hr : (sysWrite part task fd buf count).run s = .ok r) (h : s.Holds part strict T)
    (hpos : s.PositionsIn)
    (hsome : s.WritesSome (.call (.write task fd buf count))) : r.2.PositionsIn := by
  cases sysWrite_run hr with
  | inl heq =>
    rw [heq.1]
    exact hpos
  | inr hw =>
    obtain ⟨i, g, hfd, hg, hw⟩ := hw
    apply writeFile_positionsIn hw h hpos
    by_cases hcount : count = 0
    . exact .inr fun addr ino hslot hino => hsome hcount i g addr ino hfd hg hslot hino
    . exact .inl hcount

theorem TreeCall.positionsIn {c : TreeCall} {x : Value} (h : s.HoldsTree part strict)
    (hpos : s.PositionsIn) (hallow : s.Allows part strict c) (hsome : s.WritesSome c)
    (hrun : (c.exec part).run s = .ok (x, s')) : s'.PositionsIn := by
  obtain ⟨T, hT, -⟩ := h
  obtain ⟨extra, hcount⟩ := hT.counted
  have hs := hT.searchable
  cases c with
  | call c =>
    cases c with
    | open_ task junk path flags =>
      simp only [TreeCall.exec, Call.exec, Cmd.map_run] at hrun
      obtain ⟨_, hrun, -⟩ := hrun
      exact hpos.keeps ((sysOpen_run hs hrun).keepsPositions hT hT.searched)
    | close task fd =>
      simp only [TreeCall.exec, Call.exec, Cmd.map_run] at hrun
      obtain ⟨_, hrun, -⟩ := hrun
      exact hpos.keeps (sysClose_keepsPositions hrun)
    | write task fd buf count =>
      simp only [TreeCall.exec, Call.exec, Cmd.map_run] at hrun
      obtain ⟨_, hrun, -⟩ := hrun
      exact sysWrite_positionsIn hrun hT hpos hsome
    | unlink junk path =>
      simp only [TreeCall.exec, Call.exec, Cmd.map_run] at hrun
      obtain ⟨_, hrun, -⟩ := hrun
      exact hpos.keeps ((sysUnlink_run hs hrun).keepsPositions hT hT.searched)
    | mkdir junk path =>
      simp only [TreeCall.exec, Call.exec, Cmd.map_run] at hrun
      obtain ⟨_, hrun, -⟩ := hrun
      exact hpos.keeps ((sysMkdir_run hs hrun).keepsPositions hT hT.searched)
    | rmdir junk path =>
      simp only [TreeCall.exec, Call.exec, Cmd.map_run] at hrun
      obtain ⟨_, hrun, -⟩ := hrun
      exact hpos.keeps ((sysRmdir_run hs hrun).keepsPositions hT hT.searched)
    | opendir junk path =>
      simp only [TreeCall.exec, Call.exec, Cmd.map_run] at hrun
      obtain ⟨_, hrun, -⟩ := hrun
      cases sysOpendir_run hs hrun with
      | inl hroot =>
        have heq : s' = s := congrArg Prod.snd hroot.2
        rw [heq]
        exact hpos
      | inr hopened => exact hpos.keeps (hopened.2.keepsPositions hcount)
    | closedir dir =>
      simp only [TreeCall.exec, Call.exec, Cmd.map_run] at hrun
      obtain ⟨_, hrun, -⟩ := hrun
      exact hpos.keeps (sysClosedir_keepsPositions hrun)
    | chdir task junk path =>
      simp only [TreeCall.exec, Call.exec, Cmd.map_run] at hrun
      obtain ⟨_, hrun, -⟩ := hrun
      cases sysChdir_run hs hrun with
      | inl heq =>
        have heq : s' = s := congrArg Prod.snd heq
        rw [heq]
        exact hpos
      | inr hex =>
        obtain ⟨no, -, heq⟩ := hex
        have heq := congrArg Prod.snd heq
        dsimp only at heq
        rw [heq]
        exact hpos.keeps .setTasks
    | stat junk path =>
      simp only [TreeCall.exec, Call.exec, Cmd.map_run] at hrun
      obtain ⟨_, hrun, -⟩ := hrun
      have heq := (sysStat_run hs hrun).1
      dsimp only at heq
      rw [heq]
      exact hpos
  | read task kbd fd buf count =>
    simp only [TreeCall.exec, Cmd.bind_run, Cmd.pure_run] at hrun
    obtain ⟨r, s1, hrun, heq⟩ := hrun
    rw [Prod.mk.injEq] at heq
    rw [heq.2]
    exact (sysRead_moved hrun).positionsIn hT hpos
  | lseek task fd offset whence =>
    rw [TreeCall.exec, Cmd.map_run] at hrun
    obtain ⟨_, hrun, -⟩ := hrun
    exact (sysLseek_moved hrun).positionsIn hT hpos
  | fork pages parent child =>
    simp only [TreeCall.exec, Cmd.bind_run, Cmd.pure_run] at hrun
    obtain ⟨ok, s1, hrun, heq⟩ := hrun
    rw [Prod.mk.injEq] at heq
    rw [heq.2]
    obtain rfl | rfl := forkFiles_of_closed hallow hrun
    . exact hpos
    . exact hpos.keeps .setTasks

variable {startLba secCnt : UInt32} {h1 : 611 ≤ secCnt.toNat}
  {h2 : startLba.toNat + secCnt.toNat ≤ 163840}

theorem holdsTree_positionsIn_of_reach (hlarge : 620 ≤ secCnt.toNat)
    (h : Formatted (.formatted startLba secCnt h1 h2) v s)
    (hr : Cmd.Reach (TreeCall.exec (.formatted startLba secCnt h1 h2))
      (fun s c => s.Allows (.formatted startLba secCnt h1 h2) strict c ∧ s.WritesSome c) s s')
    : s'.HoldsTree (.formatted startLba secCnt h1 h2) strict ∧ s'.PositionsIn := by
  apply Cmd.Reach.invariant (P := fun s => s.HoldsTree (.formatted startLba secCnt h1 h2) strict
    ∧ s.PositionsIn) _ _ hr
  . intro s c x s' hp hc hrun
    exact ⟨TreeCall.holdsTree hp.1 hc.1 hrun, TreeCall.positionsIn hp.1 hp.2 hc.1 hc.2 hrun⟩
  . refine ⟨h.holdsTree hlarge, ?_⟩
    intro g addr ino hg
    rw [h.mounted.eq] at hg
    exact absurd hg (by simp [Fs.init, Fs.pushInode])

/-- In every run of the calls that keep the tree, no position of an open file is past its end. -/
theorem positionsIn_of_reach (hlarge : 620 ≤ secCnt.toNat)
    (h : Formatted (.formatted startLba secCnt h1 h2) v s)
    (hr : Cmd.Reach (TreeCall.exec (.formatted startLba secCnt h1 h2))
      (fun s c => s.Allows (.formatted startLba secCnt h1 h2) strict c ∧ s.WritesSome c) s s')
    : s'.PositionsIn := (holdsTree_positionsIn_of_reach hlarge h hr).2

def positionCalls : List TreeCall :=
  [.call (.open_ 0 0 pathF 6), .call (.write 0 3 Mem.zero 2), .lseek 0 3 0 seekSet,
    .read 0 Mem.zero 3 Mem.zero 1]

def positionCalls.check (s : Fs) : TreeCall → Bool
  | .call (.open_ _ junk path _) =>
    s.hasRoom smallPartition (s.search smallPartition junk path.chars)
  | _ => true

theorem reach_positionCalls
    : Cmd.Reach (TreeCall.exec smallPartition) (fun s c => s.Allows smallPartition true c
        ∧ s.WritesSome c) smallFs
        (Cmd.afterAll (TreeCall.exec smallPartition) positionCalls smallFs) := by
  apply Cmd.reach_of_returnsWhile (k := positionCalls.check)
  . intro s c hc hcheck
    simp only [positionCalls, List.mem_cons, List.not_mem_nil, or_false] at hc
    obtain rfl | rfl | rfl | rfl := hc
    . exact ⟨fun _ _ => Fs.room_of_hasRoom hcheck, trivial⟩
    . exact ⟨trivial, fun h0 => absurd h0 (by decide)⟩
    . exact ⟨trivial, trivial⟩
    . exact ⟨trivial, trivial⟩
  . decide +kernel

theorem positionsIn_of_reach_positionCalls
    : (Cmd.afterAll (TreeCall.exec smallPartition) positionCalls smallFs).PositionsIn := by
  have hr := reach_positionCalls
  rw [smallPartition_eq] at hr ⊢
  exact positionsIn_of_reach (by decide) formatted_smallFs hr

end Runs

end RogOS
