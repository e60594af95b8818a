import Mathlib.Algebra.BigOperators.Group.Finset.Piecewise
import Mathlib.Data.Fintype.Basic
import RogOS.Fs.Lemmas.Format
import RogOS.Fs.Lemmas.Syscall
import RogOS.Fs.System

/-!
The open counts of the inodes in memory, and the places that refer to an inode: entries of the file
table, directories that were opened, and `root_dir`.
-/

namespace RogOS

variable {part : Partition} {s t : Fs} {extra : Nat → Nat} {addr : Nat} {n : UInt32} {ino : Inode}

section Refs

def Fs.slotCount (s : Fs) (addr : Nat) : Nat :=
  (Finset.univ.filter fun i => (s.fileTable i).fdInode = some addr).card

def Fs.dirCount (s : Fs) (addr : Nat) : Nat := s.dirs.countP fun d => d.2.inode = addr

def Fs.refCount (s : Fs) (addr : Nat) : Nat :=
  s.slotCount addr + s.dirCount addr + if addr = s.rootDir then 1 else 0

def Fs.openCnt (s : Fs) (addr : Nat) : Nat := ((s.inode? addr).map Inode.iOpenCnts).getD 0

theorem Fs.slotCount_setFile {i : Fin 32} {f : File} {a : Nat}
    : (s.setFile i f).slotCount a + (if (s.fileTable i).fdInode = some a then 1 else 0)
        =
      s.slotCount a + if f.fdInode = some a then 1 else 0 := by
  have hcard : ∀ x : Fs, x.slotCount a = ∑ j, if (x.fileTable j).fdInode = some a then 1 else 0 :=
    fun x => Finset.card_filter _ _
  have hi : i ∈ Finset.univ := Finset.mem_univ i
  have hrest : ∑ j ∈ Finset.univ.erase i, (if ((s.setFile i f).fileTable j).fdInode = some a then 1
      else 0)
      = ∑ j ∈ Finset.univ.erase i, if (s.fileTable j).fdInode = some a then 1 else 0 := by
    apply Finset.sum_congr rfl
    intro j hj
    have hj' : (s.setFile i f).fileTable j = s.fileTable j :=
      Function.update_of_ne (Finset.ne_of_mem_erase hj) _ _
    rw [hj']
  have hself : (s.setFile i f).fileTable i = f := Function.update_self _ _ _
  rw [hcard, hcard, ← Finset.add_sum_erase _ _ hi, ← Finset.add_sum_erase _ _ hi, hrest, hself]
  omega

end Refs

def pin (extra : Nat → Nat) (addr : Nat) : Nat → Nat := fun a => extra a + if a = addr then 1 else 0

structure Fs.Counted (s : Fs) (extra : Nat → Nat) : Prop where
  addrs : s.AddrNodup
  ids : Assoc.NodupKeys s.dirs
  pos : ∀ addr ino, s.inode? addr = some ino → 0 < ino.iOpenCnts
  count : ∀ addr, s.openCnt addr = s.refCount addr + extra addr

namespace Fs.Counted

theorem openCnt_of_some (h : s.inode? addr = some ino) : s.openCnt addr = ino.iOpenCnts := by
  rw [openCnt, h]
  rfl

theorem inode_of_pos (h : s.Counted extra) (hpos : 0 < s.refCount addr + extra addr)
    : ∃ ino, s.inode? addr = some ino := by
  rw [← h.count, openCnt] at hpos
  cases hino : s.inode? addr with
  | none =>
    rw [hino] at hpos
    contradiction
  | some ino => exact ⟨ino, rfl⟩

theorem inode_of_slot {g : Fin 32} (h : s.Counted extra) (hg : (s.fileTable g).fdInode = some addr)
    : ∃ ino, s.inode? addr = some ino := by
  apply h.inode_of_pos
  have hpos : 0 < s.slotCount addr := by
    apply Finset.card_pos.mpr
    exact ⟨g, Finset.mem_filter.mpr ⟨Finset.mem_univ g, hg⟩⟩
  unfold Fs.refCount
  omega

theorem searchable (h : s.Counted extra) : s.Searchable where
  addrs := h.addrs
  pos := h.pos
  root := by
    apply h.inode_of_pos
    rw [refCount, if_pos rfl]
    omega

theorem setVol {v : Vol} (h : s.Counted extra) : Fs.Counted { s with vol := v } extra :=
  ⟨h.addrs, h.ids, h.pos, h.count⟩

theorem openCnt_updInode {f : Inode → Inode} {a : Nat}
    : (s.updInode addr f).openCnt a
        =
      if a = addr then ((s.inode? a).map fun i => (f i).iOpenCnts).getD 0 else s.openCnt a := by
  unfold openCnt
  rw [inode?_updInode]
  split
  . rw [Option.map_map]
    rfl
  . rfl

theorem updInode {f : Inode → Inode} (h : s.Counted extra)
    (hf : ∀ ino, s.inode? addr = some ino → (f ino).iOpenCnts = ino.iOpenCnts)
    : (s.updInode addr f).Counted extra := by
  have hcnt : ∀ a, (s.updInode addr f).openCnt a = s.openCnt a := by
    intro a
    rw [openCnt_updInode]
    split
    . next ha =>
      unfold openCnt
      rw [ha]
      cases hino : s.inode? addr with
      | none => rfl
      | some ino =>
        rw [Option.map_some, hf ino hino]
        rfl
    . rfl
  have hpos : ∀ ino, s.inode? addr = some ino → 0 < (f ino).iOpenCnts := by
    intro ino hino
    rw [hf ino hino]
    exact h.pos addr ino hino
  refine ⟨h.addrs.updInode, h.ids, (h.searchable.updInode hpos).pos, ?_⟩
  intro a
  rw [hcnt]
  exact h.count a

theorem pushInode (h : s.Counted extra) (hone : ino.iOpenCnts = 1)
    : (s.pushInode s.newAddr ino).Counted (pin extra s.newAddr) := by
  have hnew := h.count s.newAddr
  rw [openCnt, inode?_newAddr, Option.map_none, Option.getD_none] at hnew
  refine ⟨h.addrs.pushInode, h.ids, (h.searchable.pushInode (by omega)).pos, ?_⟩
  intro a
  unfold openCnt pin
  rw [inode?_pushInode]
  split
  . next ha =>
    have href : (s.pushInode s.newAddr ino).refCount a = s.refCount a := rfl
    rw [href, ha, Option.map_some, Option.getD_some, hone]
    omega
  . exact h.count a

theorem bump (h : s.Counted extra) (hino : s.inode? addr = some ino)
    : (s.updInode addr fun i => { i with iOpenCnts := i.iOpenCnts + 1 }).Counted
        (pin extra addr) := by
  refine ⟨h.addrs.updInode, h.ids, (h.searchable.updInode fun _ _ => Nat.succ_pos _).pos, ?_⟩
  intro a
  rw [openCnt_updInode]
  have href : (s.updInode addr fun i => { i with iOpenCnts := i.iOpenCnts + 1 }).refCount a
      = s.refCount a := rfl
  rw [href, pin]
  have hcount := h.count a
  split
  . next ha =>
    subst ha
    rw [openCnt_of_some hino] at hcount
    rw [hino, Option.map_some, Option.getD_some]
    dsimp only
    omega
  . exact hcount

theorem opened (h : s.Counted extra)
    : (s.opened part n).2.Counted (pin extra (s.opened part n).1) := by
  unfold Fs.opened
  cases hfind : s.find? n with
  | none => exact h.pushInode rfl
  | some p => exact h.bump (h.addrs.find?_eq_some hfind).1

theorem closed (h : s.Counted (pin extra addr)) (hino : s.inode? addr = some ino)
    : (s.closed addr ino).Counted extra := by
  have hcount := h.count addr
  rw [openCnt_of_some hino, pin, if_pos rfl] at hcount
  unfold Fs.closed
  split
  . next h0 =>
    refine ⟨h.addrs.dropInode, h.ids, ?_, ?_⟩
    . intro a i hi
      rw [inode?_dropInode] at hi
      split at hi
      . contradiction
      . exact h.pos a i hi
    . intro a
      have href : (s.dropInode addr).refCount a = s.refCount a := rfl
      have hcount' := h.count a
      unfold openCnt
      rw [href, inode?_dropInode]
      split
      . next ha =>
        rw [ha, Option.map_none, Option.getD_none]
        omega
      . next ha =>
        rw [pin, if_neg ha] at hcount'
        exact hcount'
  . next h0 =>
    have hpos : ∀ i, s.inode? addr = some i
        → 0 < ({ i with iOpenCnts := i.iOpenCnts - 1 } : Inode).iOpenCnts := by
      intro i hi
      rw [hino, Option.some.injEq] at hi
      rw [← hi]
      dsimp only
      omega
    refine ⟨h.addrs.updInode, h.ids, (h.searchable.updInode hpos).pos, ?_⟩
    intro a
    have href : (s.updInode addr fun i => { i with iOpenCnts := i.iOpenCnts - 1 }).refCount a
        = s.refCount a := rfl
    have hcount' := h.count a
    rw [openCnt_updInode, href]
    split
    . next ha =>
      rw [ha, hino, Option.map_some, Option.getD_some]
      dsimp only
      omega
    . next ha =>
      rw [pin, if_neg ha] at hcount'
      exact hcount'

theorem setFile {i : Fin 32} {f : File} (h : s.Counted extra)
    (hf : f.fdInode = (s.fileTable i).fdInode)
    : (s.setFile i f).Counted extra := by
  refine ⟨h.addrs, h.ids, h.pos, ?_⟩
  intro a
  have hslot := @slotCount_setFile s i f a
  rw [hf] at hslot
  have hslot' : (s.setFile i f).slotCount a = s.slotCount a := by omega
  have hcount := h.count a
  unfold refCount at hcount ⊢
  rw [hslot']
  exact hcount

theorem takeSlot {i : Fin 32} {f : File} (h : s.Counted (pin extra addr))
    (hfree : (s.fileTable i).fdInode = none)
    (hf : f.fdInode = some addr) : (s.setFile i f).Counted extra := by
  refine ⟨h.addrs, h.ids, h.pos, ?_⟩
  intro a
  have hcount := h.count a
  have hslot := @slotCount_setFile s i f a
  rw [hfree, hf] at hslot
  have hopen : (s.setFile i f).openCnt a = s.openCnt a := rfl
  have hdir : (s.setFile i f).dirCount a = s.dirCount a := rfl
  have hroot : (s.setFile i f).rootDir = s.rootDir := rfl
  unfold refCount pin at hcount
  unfold refCount
  rw [hopen, hdir, hroot, hcount]
  by_cases ha : a = addr
  . simp only [ha, ↓reduceIte, reduceCtorEq] at hslot ⊢
    omega
  . have hne : ¬ addr = a := Ne.symm ha
    simp only [ha, ↓reduceIte, reduceCtorEq, Option.some.injEq, hne] at hslot ⊢
    omega

theorem leaveSlot {i : Fin 32} {f : File} (h : s.Counted extra)
    (hused : (s.fileTable i).fdInode = some addr)
    (hf : f.fdInode = none) : (s.setFile i f).Counted (pin extra addr) := by
  refine ⟨h.addrs, h.ids, h.pos, ?_⟩
  intro a
  have hcount := h.count a
  have hslot := @slotCount_setFile s i f a
  rw [hused, hf] at hslot
  have hopen : (s.setFile i f).openCnt a = s.openCnt a := rfl
  have hdir : (s.setFile i f).dirCount a = s.dirCount a := rfl
  have hroot : (s.setFile i f).rootDir = s.rootDir := rfl
  unfold refCount at hcount
  unfold refCount pin
  rw [hopen, hdir, hroot, hcount]
  by_cases ha : a = addr
  . simp only [ha, ↓reduceIte, reduceCtorEq] at hslot ⊢
    omega
  . have hne : ¬ addr = a := Ne.symm ha
    simp only [ha, ↓reduceIte, reduceCtorEq, Option.some.injEq, hne] at hslot ⊢
    omega

theorem pushDir {pos : UInt32} (h : s.Counted (pin extra addr))
    : Fs.Counted { s with dirs := (s.newDirId, ⟨addr, pos⟩) :: s.dirs } extra := by
  refine ⟨h.addrs, h.ids.cons_fresh, h.pos, ?_⟩
  intro a
  have hcount := h.count a
  have hdir : Fs.dirCount { s with dirs := (s.newDirId, ⟨addr, pos⟩) :: s.dirs } a
      = s.dirCount a + if addr = a then 1 else 0 := by
    unfold dirCount
    rw [List.countP_cons]
    simp
  have hopen : Fs.openCnt { s with dirs := (s.newDirId, ⟨addr, pos⟩) :: s.dirs } a = s.openCnt a :=
    rfl
  have hslot : Fs.slotCount { s with dirs := (s.newDirId, ⟨addr, pos⟩) :: s.dirs } a
      = s.slotCount a := rfl
  unfold refCount pin at hcount
  unfold refCount
  rw [hopen, hdir, hslot, hcount]
  dsimp only
  by_cases ha : a = addr
  . simp only [ha, ↓reduceIte]
    omega
  . have hne : ¬ addr = a := Ne.symm ha
    simp only [ha, hne, ↓reduceIte]
    omega

theorem eraseDir {id : Nat} {d : Dir} (h : s.Counted extra) (hd : s.dirs.lookup id = some d)
    : Fs.Counted { s with dirs := Assoc.erase s.dirs id } (pin extra d.inode) := by
  refine ⟨h.addrs, h.ids.erase, h.pos, ?_⟩
  intro a
  have hcount := h.count a
  have hdir : s.dirCount a
      = Fs.dirCount { s with dirs := Assoc.erase s.dirs id } a + if d.inode = a then 1 else 0 := by
    unfold dirCount
    rw [h.ids.countP_erase hd]
    simp
  have hopen : Fs.openCnt { s with dirs := Assoc.erase s.dirs id } a = s.openCnt a := rfl
  have hslot : Fs.slotCount { s with dirs := Assoc.erase s.dirs id } a = s.slotCount a := rfl
  unfold refCount at hcount
  rw [hdir] at hcount
  unfold refCount pin
  rw [hopen, hslot, hcount]
  dsimp only
  by_cases ha : a = d.inode
  . simp only [ha, ↓reduceIte]
    omega
  . have hne : ¬ d.inode = a := Ne.symm ha
    simp only [ha, hne, ↓reduceIte]
    omega

theorem setTasks {tasks : Nat → Task} (h : s.Counted extra)
    : Fs.Counted { s with tasks := tasks } extra :=
  ⟨h.addrs, h.ids, h.pos, h.count⟩

end Fs.Counted

section Calls

variable {dir : Option UInt32} {s' : Fs} {junk : UInt32} {path : CStr} {task : Nat} {flag : UInt8}
  {f : Found}

def Fs.pinDir (part : Partition) (s : Fs) (extra : Nat → Nat) : Option UInt32 → Nat → Nat
  | none => extra
  | some d => pin extra (s.opened part d).1

theorem Fs.pinDir_pin
    : s.pinDir part (pin extra addr) dir = pin (s.pinDir part extra dir) addr := by
  cases dir with
  | none => rfl
  | some d =>
    funext a
    simp only [Fs.pinDir, pin]
    omega

theorem Fs.Counted.atDir (h : s.Counted extra)
    : (s.atDir part dir).2.Counted (s.pinDir part extra dir) := by
  cases dir with
  | none => exact h
  | some d => exact h.opened

theorem Fs.Counted.dirClosed (h : t.Counted (s.pinDir part extra dir))
    (hc : s.DirClosed part dir t s')
    : s'.Counted extra := by
  obtain ⟨rfl, rfl⟩ | ⟨d, ino, rfl, hino, rfl⟩ := hc.cases
  . exact h
  . exact h.closed hino

theorem Fs.Counted.dirSet {p p' : Inode} {v : Vol} (h : s.Counted extra)
    (hp : (s.atDir part dir).2.inode? (s.dirAddr part dir) = some p) (hsame : p.SameOpen p')
    : (s.dirSet part dir p' v).Counted (s.pinDir part extra dir) := by
  apply Fs.Counted.updInode h.atDir.setVol
  intro ino hino
  have heq : some ino = some p := hino.symm.trans hp
  rw [Option.some.injEq] at heq
  rw [heq, hsame.2.1]

theorem Unlinked.counted {r : Int × Fs} (h : Unlinked part s f r) (hs : s.Counted extra)
    : r.2.Counted extra := by
  cases h with
  | quit => exact hs
  | done found nonzero file unused parent delete release close =>
    exact (hs.dirSet parent (deleteDirEntry_sameOpen _ _ delete)).dirClosed close

theorem DirMade.counted {r : Int × Fs} (h : DirMade part s f r) (hs : s.Counted extra)
    : r.2.Counted extra := by
  cases h with
  | quit => exact hs
  | done missing short name parent make close =>
    exact (hs.dirSet parent (makeDir_sameOpen _ _ make)).dirClosed close

theorem Fs.Counted.childSet {p p' : Inode} {v : Vol} (h : s.Counted extra)
    (hp : (s.atChild part f).2.inode? ((s.atChild part f).2.dirInode (s.atDir part f.dir).1)
      = some p)
    (hsame : p.SameOpen p')
    : (s.childSet part f p' v).Counted (pin (s.pinDir part extra f.dir) (s.atChild part f).1) := by
  apply Fs.Counted.updInode h.atDir.opened.setVol
  intro ino hino
  have heq := hino.symm.trans hp
  rw [Option.some.injEq] at heq
  rw [heq, ← hsame.2.1]

theorem DirRemoved.counted {r : Int × Fs} (h : DirRemoved part s f r) (hs : s.Counted extra)
    : r.2.Counted extra := by
  cases h with
  | quit => exact hs
  | done found nonzero dir child empty blocks parent delete release open_ close =>
    apply Fs.Counted.dirClosed _ close
    exact (hs.childSet parent (deleteDirEntry_sameOpen _ _ delete)).closed open_

theorem DirOpened.counted {r : Option DirPtr × Fs} (h : DirOpened part s f r) (hs : s.Counted extra)
    : r.2.Counted extra := by
  cases h with
  | quit => exact hs
  | done found dir close =>
    apply Fs.Counted.pushDir
    apply Fs.Counted.dirClosed _ close
    rw [Fs.pinDir_pin]
    exact hs.atDir.opened

theorem sysClosedir_counted {ptr : Option DirPtr} {r : Int × Fs}
    (h : (sysClosedir ptr).run s = .ok r) (hs : s.Counted extra) : r.2.Counted extra := by
  cases sysClosedir_run h with
  | inl heq =>
    rw [heq]
    exact hs
  | inr hex =>
    obtain ⟨id, d, ino, -, hd, hino, rfl⟩ := hex
    have hswap : { s.closed d.inode ino with dirs := Assoc.erase (s.closed d.inode ino).dirs id }
        = Fs.closed { s with dirs := Assoc.erase s.dirs id } d.inode ino := by
      unfold Fs.closed
      split <;> rfl
    rw [hswap]
    exact (hs.eraseDir hd).closed hino

theorem sysChdir_counted {r : Int × Fs} (h : (sysChdir part task junk path).run s = .ok r)
    (hs : s.Counted extra) : r.2.Counted extra := by
  cases sysChdir_run hs.searchable h with
  | inl heq =>
    rw [heq]
    exact hs
  | inr hex =>
    obtain ⟨no, -, rfl⟩ := hex
    exact hs.setTasks

theorem Fs.Counted.installed {fdIdx : Fin 32} (h : s.Counted extra)
    : (s.installed task fdIdx).2.Counted extra := by
  obtain ⟨-, heq⟩ | ⟨fd, -, heq⟩ := @Fs.installed_cases s task fdIdx
  . rw [heq]
    exact h
  . rw [heq]
    exact h.setTasks

theorem getFreeSlotInGlobal_eq_some {fdIdx : Fin 32} (h : getFreeSlotInGlobal s = some fdIdx)
    : 3 ≤ fdIdx.val ∧ (s.fileTable fdIdx).fdInode = none := by
  have := List.find?_some h
  simpa using this

theorem Fs.newAddr_updInode {g : Inode → Inode}
    : (s.updInode addr g).newAddr = s.newAddr := Assoc.fresh_adjust

theorem Fs.created_eq {parentDir : DirRef} {fdIdx : Fin 32} {p : Inode} {v : Vol}
    : s.created parentDir fdIdx flag n p v
        =
      Fs.setFile
        (Fs.pushInode (Fs.updInode { s with vol := v } (s.dirInode parentDir) fun _ => p)
          s.newAddr { inodeInit n with iOpenCnts := 1 })
        fdIdx ⟨0, flag, some s.newAddr⟩ :=
  rfl

theorem FileCreated.counted {parentDir : DirRef} {filename : List UInt8} {r : Int × Fs}
    (h : FileCreated part task parentDir filename flag s r) (hs : s.Counted extra)
    : r.2.Counted extra := by
  cases h with
  | noInode alloc => exact hs.setVol
  | noSlot alloc slot undo => exact hs.setVol
  | noEntry alloc slot parent entry undo =>
    rename_i n v v1 v' p p' fdIdx
    have hsame := syncDirEntryWith_sameOpen _ _ entry
    have hfree := (getFreeSlotInGlobal_eq_some slot).2
    have hset : Fs.Counted { s.setFile fdIdx ⟨0, 0, none⟩ with vol := v' } extra :=
      (hs.setFile (f := ⟨0, 0, none⟩) hfree.symm).setVol
    apply hset.updInode
    intro ino hino
    have heq := hino.symm.trans parent
    rw [Option.some.injEq] at heq
    rw [heq, ← hsame.2.1]
  | made alloc slot parent length entered =>
    rename_i n v v' p p' fdIdx
    obtain ⟨v1, v2, v3, hsync, -⟩ := entered.runs
    have hsame := syncDirEntryWith_sameOpen _ _ hsync
    apply Fs.Counted.installed
    rw [Fs.created_eq]
    have hupd : (Fs.updInode { s with vol := v' } (s.dirInode parentDir) fun _ =>
        p').Counted extra := by
      apply Fs.Counted.updInode hs.setVol
      intro ino hino
      have heq := hino.symm.trans parent
      rw [Option.some.injEq] at heq
      rw [heq, ← hsame.2.1]
    have hpush := hupd.pushInode (show ({ inodeInit n with iOpenCnts := 1 } : Inode).iOpenCnts
        = 1 from rfl)
    rw [Fs.newAddr_updInode] at hpush
    exact hpush.takeSlot (getFreeSlotInGlobal_eq_some slot).2 rfl

theorem Fs.Counted.taken {fdIdx : Fin 32} (h : s.Counted extra)
    (hslot : getFreeSlotInGlobal s = some fdIdx)
    : (s.taken part n fdIdx flag).Counted extra := by
  apply h.opened.takeSlot _ rfl
  have hfree := (getFreeSlotInGlobal_eq_some hslot).2
  unfold Fs.opened
  split <;> exact hfree

theorem FileOpened.counted {r : Int × Fs} (h : FileOpened part task n flag s r)
    (hs : s.Counted extra)
    : r.2.Counted extra := by
  cases h with
  | noSlot slot => exact hs
  | denied slot inode write deny => exact hs.taken slot
  | write slot inode write allow =>
    apply Fs.Counted.installed
    exact (hs.taken slot).updInode fun _ _ => rfl
  | read slot read => exact (hs.taken slot).installed

theorem SysOpened.counted {r : Int × Fs} (h : SysOpened part task path flag s f r)
    (hs : s.Counted extra)
    : r.2.Counted extra ∨ flag &&& oCreat = 0 ∧ r.2.Counted (s.pinDir part extra f.dir) := by
  cases h with
  | quit => exact .inl hs
  | create missing short type creat slash all name make close =>
    left
    exact Fs.Counted.dirClosed (make.counted hs.atDir) close
  | existing found type creat all open_ => exact .inr ⟨creat, open_.counted hs.atDir⟩

theorem Fs.Counted.fileClosed {fdIdx : Fin 32} (h : s.Counted extra)
    (hfd : (s.fileTable fdIdx).fdInode = some addr) (hino : s.inode? addr = some ino)
    : (s.fileClosed fdIdx addr ino).Counted extra := by
  have hswap : s.fileClosed fdIdx addr ino
      = Fs.closed ((s.updInode addr fun i => { i with writeDeny := false }).setFile fdIdx
          { s.fileTable fdIdx with fdInode := none }) addr { ino with writeDeny := false } := by
    unfold Fs.fileClosed Fs.closed
    split <;> rfl
  rw [hswap]
  have hupd : (s.updInode addr fun i => { i with writeDeny := false }).Counted extra :=
    h.updInode fun _ _ => rfl
  apply (hupd.leaveSlot (f := { s.fileTable fdIdx with fdInode := none }) hfd rfl).closed
  have hget : (s.updInode addr fun i => { i with writeDeny := false }).inode? addr
      = some { ino with writeDeny := false } := by
    rw [Fs.inode?_updInode, if_pos rfl, hino]
    rfl
  exact hget

theorem sysClose_counted {fd : Int} {r : Int × Fs} (h : (sysClose task fd).run s = .ok r)
    (hs : s.Counted extra) : r.2.Counted extra := by
  obtain heq | ⟨i, fdIdx, addr, ino, -, -, hfd, hino, heq⟩ := sysClose_run h
  . rw [heq]
    exact hs
  . rw [heq]
    exact (hs.fileClosed hfd hino).setTasks

end Calls

section Mount

theorem Mounted.eq {v : Vol} (h : Mounted part v s)
    : s = { (Fs.init v).pushInode 0 { (v.image part).slot 0 with iOpenCnts := 1 } with
        rootDir := 0 } := by
  simp only [Mounted, openRootDir, Cmd.bind_run, inodeOpen_run, Cmd.modify_run] at h
  obtain ⟨addr, s1, ⟨-, h1⟩, h2⟩ := h
  rw [Prod.mk.injEq] at h1 h2
  rw [h2.2, h1.1, h1.2, part.layout.rootNo]
  rfl

theorem Formatted.mounted {v : Vol} (h : Formatted part v s) : Mounted part s.vol s := by
  simp only [Formatted, filesysInit, Cmd.bind_run, onVol_run] at h
  obtain ⟨_, s1, ⟨v1, -, h1⟩, _, s2, ⟨v2, -, h2⟩, h3⟩ := h
  have hs2 : s2 = Fs.init v2 := by
    rw [h2, h1]
    rfl
  rw [hs2] at h3
  have hm : Mounted part v2 s := h3
  have hvol : s.vol = v2 := by
    rw [hm.eq]
    rfl
  rw [hvol]
  exact hm

theorem mounted_smallFs : Mounted smallPartition smallFs.vol smallFs :=
  Formatted.mounted filesysInit_smallFs

theorem Mounted.counted {v : Vol} (h : Mounted part v s) : s.Counted fun _ => 0 := by
  have hlook : ∀ a, s.inode? a = if a = 0 then some { (v.image part).slot 0 with iOpenCnts := 1 }
      else none := by
    intro a
    rw [h.eq]
    exact Assoc.lookup_cons
  refine ⟨?_, ?_, ?_, ?_⟩
  . rw [h.eq]
    exact List.nodup_singleton 0
  . rw [h.eq]
    exact List.nodup_nil
  . intro a ino hino
    rw [hlook] at hino
    split at hino
    . cases hino
      exact Nat.one_pos
    . contradiction
  . intro a
    have href : s.refCount a = if a = 0 then 1 else 0 := by
      rw [h.eq]
      simp [Fs.refCount, Fs.slotCount, Fs.dirCount, Fs.init, Fs.pushInode]
    unfold Fs.openCnt
    rw [href, hlook]
    split <;> rfl

end Mount

end RogOS
