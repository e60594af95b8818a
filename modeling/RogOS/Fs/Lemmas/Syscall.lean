import RogOS.Fs.Lemmas.Calls
import RogOS.Fs.Lemmas.Frame

/-!
The system calls that search for a path: the ways in which they return, with the state they leave.
Where a call gives up, it has closed what the search left open.
-/

namespace RogOS

variable {part : Partition} {s t : Fs} {junk : UInt32} {path : CStr} {addr task : Nat} {n : UInt32}

section Open

theorem Fs.closed_setVol {v : Vol} {ino : Inode}
    : Fs.closed { s with vol := v } addr ino = { s.closed addr ino with vol := v } := by
  unfold closed
  split <;> rfl

theorem Fs.closed_vol {ino : Inode} : (s.closed addr ino).vol = s.vol := by
  unfold closed
  split <;> rfl

theorem Fs.Searchable.setVol {v : Vol} (hs : s.Searchable) : Fs.Searchable { s with vol := v } :=
  ⟨hs.addrs, hs.pos, hs.root⟩

theorem Fs.Searchable.updInode (hs : s.Searchable) {f : Inode → Inode}
    (hf : ∀ ino, s.inode? addr = some ino → 0 < (f ino).iOpenCnts)
    : (s.updInode addr f).Searchable := by
  refine ⟨hs.addrs.updInode, ?_, ?_⟩
  . intro a ino h
    rw [Fs.inode?_updInode] at h
    split at h
    . next heq =>
      rw [Option.map_eq_some_iff] at h
      obtain ⟨ino0, h1, h2⟩ := h
      rw [← h2]
      rw [heq] at h1
      exact hf ino0 h1
    . exact hs.pos a ino h
  . obtain ⟨ino, hroot⟩ := hs.root
    by_cases heq : s.rootDir = addr
    . refine ⟨f ino, ?_⟩
      rw [Fs.inode?_updInode]
      exact (if_pos heq).trans
        (by rw [show (s.updInode addr f).rootDir = s.rootDir from rfl, hroot]; rfl)
    . refine ⟨ino, ?_⟩
      rw [Fs.inode?_updInode]
      exact (if_neg heq).trans hroot

theorem Fs.Searchable.pushInode (hs : s.Searchable) {ino : Inode} (hpos : 0 < ino.iOpenCnts)
    : (s.pushInode s.newAddr ino).Searchable := by
  refine ⟨hs.addrs.pushInode, ?_, ?_⟩
  . intro a i h
    rw [Fs.inode?_pushInode] at h
    split at h
    . cases h
      exact hpos
    . exact hs.pos a i h
  . obtain ⟨i, hroot⟩ := hs.root
    refine ⟨i, ?_⟩
    rw [Fs.inode?_pushInode, if_neg]
    . exact hroot
    . intro heq
      have hnew := @Fs.inode?_newAddr s
      rw [← heq] at hnew
      exact absurd (hroot.symm.trans hnew) (by simp)

theorem Fs.Searchable.opened (hs : s.Searchable) : (s.opened part n).2.Searchable := by
  unfold Fs.opened
  split
  . exact hs.updInode fun _ _ => Nat.succ_pos _
  . exact hs.pushInode Nat.one_pos

theorem Fs.Searchable.atDir (hs : s.Searchable) {dir : Option UInt32}
    : (s.atDir part dir).2.Searchable := by
  cases dir with
  | none => exact hs
  | some d => exact hs.opened

theorem inodeRelease_run (hs : s.Searchable) {r : Unit × Fs}
    (h : (inodeRelease part n).run s = .ok r)
    : ∃ v, (releaseInode part (s.view part n) n).run s.vol = .ok ((), v)
        ∧ r = ((), { s with vol := v }) := by
  simp only [inodeRelease, Cmd.bind_run, inodeOpen_run, derefInode_run, onVol_run,
    inodeClose_run] at h
  obtain ⟨addr, s1, ⟨-, h1⟩, ino, _, ⟨_, h2, h3⟩, _, s2, ⟨v, h4, h5⟩, ino', h6, h7⟩ := h
  cases h3
  rw [Prod.ext_iff] at h1
  dsimp only at h1
  rw [h1.1, h1.2] at h2
  obtain ⟨k, hk⟩ := @Fs.AddrNodup.opened_inode? part s n hs.addrs
  rw [h2, Option.some.injEq] at hk
  refine ⟨v, ?_, ?_⟩
  . rw [← h4, h1.2, Fs.opened_vol, hk]
    rfl
  . rw [h7, h5, Fs.closed_setVol, h1.1, h1.2]
    have h6' : (s.opened part n).2.inode? (s.opened part n).1 = some ino' := by
      rw [← h1.1, ← h1.2, ← h6, h5]
      rfl
    rw [hs.addrs.closed_opened hs.pos h6']

theorem Fs.Searchable.inodeClose_opened (hs : s.Searchable) {r : Unit × Fs}
    (h : (inodeClose (s.opened part n).1).run (s.opened part n).2 = .ok r) : r = ((), s) := by
  rw [inodeClose_run] at h
  obtain ⟨ino, h1, h2⟩ := h
  rw [h2, hs.addrs.closed_opened hs.pos h1]

end Open

section Dir

def Fs.dirAddr (part : Partition) (s : Fs) (dir : Option UInt32) : Nat :=
  (s.atDir part dir).2.dirInode (s.atDir part dir).1

def Fs.dirSet (part : Partition) (s : Fs) (dir : Option UInt32) (p : Inode) (v : Vol) : Fs :=
  Fs.updInode { (s.atDir part dir).2 with vol := v } (s.dirAddr part dir) fun _ => p

def Fs.DirClosed (part : Partition) (s : Fs) (dir : Option UInt32) (t s' : Fs) : Prop :=
  (dirClose (s.atDir part dir).1).run t = .ok ((), s')

theorem Fs.DirClosed.cases {dir : Option UInt32} {s' : Fs} (h : s.DirClosed part dir t s')
    : dir = none ∧ s' = t
      ∨ ∃ d ino, dir = some d ∧ t.inode? (s.opened part d).1 = some ino
          ∧ s' = t.closed (s.opened part d).1 ino := by
  cases dir with
  | none =>
    rw [Fs.DirClosed, Fs.atDir, dirClose, Cmd.pure_run, Prod.mk.injEq] at h
    exact .inl ⟨rfl, h.2⟩
  | some d =>
    rw [Fs.DirClosed, Fs.atDir, dirClose, inodeClose_run] at h
    obtain ⟨ino, h1, h2⟩ := h
    rw [Prod.mk.injEq] at h2
    exact .inr ⟨d, ino, rfl, h1, h2.2⟩

theorem Fs.DirClosed.fileTable {dir : Option UInt32} {s' : Fs} (h : s.DirClosed part dir t s')
    : s'.fileTable = t.fileTable := by
  obtain ⟨-, rfl⟩ | ⟨d, ino, -, -, rfl⟩ := h.cases
  . rfl
  . exact Fs.closed_fileTable

theorem dirClosed_vol {dir : Option UInt32} {s' : Fs} (h : s.DirClosed part dir t s')
    : s'.vol = t.vol := by
  obtain ⟨-, rfl⟩ | ⟨d, ino, -, -, rfl⟩ := h.cases
  . rfl
  . exact Fs.closed_vol

theorem Fs.Searchable.dirSet (hs : s.Searchable) {dir : Option UInt32} {p p' : Inode} {v : Vol}
    (hp : (s.atDir part dir).2.inode? (s.dirAddr part dir) = some p) (hsame : p.SameOpen p')
    : (s.dirSet part dir p' v).Searchable := by
  apply Fs.Searchable.updInode hs.atDir.setVol
  intro _ _
  rw [← hsame.2.1]
  exact hs.atDir.pos _ _ hp

end Dir

section Stat

theorem sysStat_run (hs : s.Searchable) {r : Option Stat × Fs}
    (h : (sysStat part junk path).run s = .ok r)
    : r.2 = s
      ∧ ∀ st, r.1 = some st → st.stIno ≠ notFound
          ∧ st.stIno = (s.search part junk path.chars).no := by
  unfold sysStat at h
  split at h
  . next hroot =>
    simp only [Cmd.bind_run, Cmd.get_run, derefInode_run, Cmd.pure_run] at h
    obtain ⟨_, _, h1, root, _, ⟨_, -, h2⟩, h3⟩ := h
    cases h1
    cases h2
    rw [h3]
    refine ⟨rfl, ?_⟩
    intro st hst
    cases hst
    rw [Fs.search, if_pos (show IsRootPath path.chars from hroot)]
    exact ⟨show (0 : UInt32) ≠ notFound by decide, rfl⟩
  . simp only [Cmd.bind_run] at h
    obtain ⟨⟨no, rec⟩, s1, h1, h2⟩ := h
    have hrun := searchFile_run hs h1
    generalize s.search part junk path.chars = f at hrun ⊢
    cases hrun
    dsimp only at h2
    split at h2
    . next hfound =>
      simp only [Cmd.bind_run, inodeOpen_run, derefInode_run, Cmd.pure_run] at h2
      obtain ⟨addr, s2, ⟨-, h3⟩, ino, _, ⟨_, -, h4⟩, _, s4, h5, _, s5, h6, h7⟩ := h2
      cases h4
      rw [Prod.ext_iff] at h3
      dsimp only at h3
      rw [h3.1, h3.2] at h5
      have h8 := hs.atDir.inodeClose_opened h5
      cases h8
      rw [h7]
      refine ⟨hs.dirClose_atDir h6, ?_⟩
      intro st hst
      cases hst
      exact ⟨hfound, rfl⟩
    . simp only [Cmd.bind_run, Cmd.pure_run] at h2
      obtain ⟨_, s2, h3, h4⟩ := h2
      rw [h4]
      refine ⟨hs.dirClose_atDir h3, ?_⟩
      intro st hst
      contradiction

end Stat

section Unlink

theorem fileInUse_run {l : List (Fin 32)} {r : Bool × Fs} (h : (fileInUse n l).run s = .ok r)
    : r.2 = s
      ∧ (r.1 = false → ∀ i ∈ l, ∀ addr, (s.fileTable i).fdInode = some addr →
          ∃ ino, s.inode? addr = some ino ∧ ino.iNo ≠ n) := by
  induction l with
  | nil =>
    rw [fileInUse, Cmd.pure_run] at h
    rw [h]
    exact ⟨rfl, fun _ i hi => absurd hi List.not_mem_nil⟩
  | cons j l ih =>
    simp only [fileInUse, Cmd.bind_run, Cmd.get_run] at h
    obtain ⟨_, _, h1, h2⟩ := h
    cases h1
    cases hfd : (s.fileTable j).fdInode with
    | none =>
      rw [hfd] at h2
      obtain ⟨h3, h4⟩ := ih h2
      refine ⟨h3, ?_⟩
      intro hfalse i hi addr haddr
      cases List.mem_cons.mp hi with
      | inl heq =>
        rw [heq, hfd] at haddr
        contradiction
      | inr hmem => exact h4 hfalse i hmem addr haddr
    | some a =>
      rw [hfd] at h2
      simp only [Cmd.bind_run, derefInode_run] at h2
      obtain ⟨ino, _, ⟨_, h3, h4⟩, h5⟩ := h2
      cases h4
      split at h5
      . rw [Cmd.pure_run] at h5
        rw [h5]
        exact ⟨rfl, fun h => absurd h (by simp)⟩
      . next hne =>
        obtain ⟨h6, h7⟩ := ih h5
        refine ⟨h6, ?_⟩
        intro hfalse i hi addr haddr
        cases List.mem_cons.mp hi with
        | inl heq =>
          rw [heq, hfd, Option.some.injEq] at haddr
          rw [← haddr]
          exact ⟨ino, h3, hne⟩
        | inr hmem => exact h7 hfalse i hmem addr haddr

inductive Unlinked (part : Partition) (s : Fs) (f : Found) : Int × Fs → Prop
  | quit : Unlinked part s f (-1, s)
  | done {p p' : Inode} {ok : Bool} {v v' : Vol} {s' : Fs} (found : f.no ≠ notFound)
      (nonzero : f.no ≠ 0)
      (file : f.fileType ≠ .directory)
      (unused : ∀ i addr, ((s.atDir part f.dir).2.fileTable i).fdInode = some addr →
        ∃ ino, (s.atDir part f.dir).2.inode? addr = some ino ∧ ino.iNo ≠ f.no)
      (parent : (s.atDir part f.dir).2.inode? (s.dirAddr part f.dir) = some p)
      (delete : (deleteDirEntry part p f.no).run s.vol = .ok ((ok, p'), v))
      (release : (releaseInode part ((s.dirSet part f.dir p' v).view part f.no) f.no).run v
        = .ok ((), v'))
      (close : s.DirClosed part f.dir (s.dirSet part f.dir p' v') s')
    : Unlinked part s f (0, s')

theorem sysUnlink_run (hs : s.Searchable) {r : Int × Fs}
    (h : (sysUnlink part junk path).run s = .ok r)
    : Unlinked part s (s.search part junk path.chars) r := by
  simp only [sysUnlink, Cmd.bind_run, Cmd.assert_run] at h
  obtain ⟨_, _, ⟨-, h0⟩, ⟨no, rec⟩, s1, h1, h2⟩ := h
  cases h0
  have hrun := searchFile_run hs h1
  generalize s.search part junk path.chars = f at hrun ⊢
  cases hrun
  dsimp only at h2
  obtain ⟨_, _, ⟨hzero, h3⟩, h4⟩ := h2
  cases h3
  have hquit : ∀ r : Int × Fs, (do dirClose (s.atDir part f.dir).1; pure (-1 : Int)).run
      (s.atDir part f.dir).2 = .ok r → Unlinked part s f r := by
    intro r hr
    simp only [Cmd.bind_run, Cmd.pure_run] at hr
    obtain ⟨_, s2, h5, h6⟩ := hr
    rw [h6, show s2 = s from hs.dirClose_atDir h5]
    exact .quit
  split at h4
  . exact hquit r h4
  . next hfound =>
    split at h4
    . exact hquit r h4
    . next hfile =>
      simp only [Cmd.bind_run] at h4
      obtain ⟨b, s2, h5, h6⟩ := h4
      obtain ⟨hs2, hunused⟩ := fileInUse_run h5
      dsimp only at hs2 hunused
      rw [hs2] at h6
      cases b with
      | true => exact hquit r h6
      | false =>
        simp only [Bool.false_eq_true, ↓reduceIte, Cmd.bind_run, Cmd.get_run, onInode_run,
          Cmd.pure_run] at h6
        obtain ⟨_, _, h7, ok, s3, ⟨p, p', v, h8, h9, h10⟩, _, s4, h11, _, s5, h12, h13⟩ := h6
        cases h7
        have hsame := deleteDirEntry_sameOpen _ _ h9
        rw [Fs.atDir_vol] at h9
        have hs3 : s3 = s.dirSet part f.dir p' v := h10
        rw [hs3] at h11
        obtain ⟨v', h14, h15⟩ := inodeRelease_run (hs.dirSet h8 hsame) h11
        cases h15
        rw [h13]
        exact .done hfound hzero hfile (fun i addr => hunused rfl i (List.mem_finRange i) addr) h8
          h9 h14 h12

end Unlink

section Quit

theorem Fs.Searchable.quit (hs : s.Searchable) {α : Type} {a : α} {dir : Option UInt32} {r : α × Fs}
    (h : (do dirClose (s.atDir part dir).1; pure a : FsM α).run (s.atDir part dir).2 = .ok r)
    : r = (a, s) := by
  simp only [Cmd.bind_run, Cmd.pure_run] at h
  obtain ⟨_, s2, h1, h2⟩ := h
  rw [h2, show s2 = s from hs.dirClose_atDir h1]

end Quit

section Mkdir

inductive DirMade (part : Partition) (s : Fs) (f : Found) : Int × Fs → Prop
  | quit : DirMade part s f (-1, s)
  | done {p p' : Inode} {ok : Bool} {v : Vol} {s' : Fs} {dirname : List UInt8}
      (missing : f.no = notFound)
      (short : ∀ x ∈ f.searched, x.length < 16)
      (name : ∃ t : Fs, (lastName (joinPath f.searched)).run t = .ok (dirname, t))
      (parent : (s.atDir part f.dir).2.inode? (s.dirAddr part f.dir) = some p)
      (make : (makeDir part (inodeBitmapAlloc part) (blockBitmapAlloc part) p dirname).run s.vol
        = .ok ((ok, p'), v))
      (close : s.DirClosed part f.dir (s.dirSet part f.dir p' v) s')
    : DirMade part s f (if ok then 0 else -1, s')

theorem pathDepthCnt_state {σ : Type} {x : σ} {p : List UInt8} {r : Nat × σ}
    (h : (pathDepthCnt p).run x = .ok r) : r.2 = x := by
  rw [pathDepthCnt_run h]

theorem lastName_state {σ : Type} {x : σ} {p : List UInt8} {r : List UInt8 × σ}
    (h : (lastName p).run x = .ok r) : r.2 = x := by
  simp only [lastName, Cmd.bind_run, Cmd.assert_run, Cmd.pure_run] at h
  obtain ⟨_, _, ⟨-, h1⟩, h2⟩ := h
  cases h1
  rw [h2]

inductive DirTried (part : Partition) (ialloc balloc : VolM (Option UInt32)) (s : Fs) (path : CStr)
    (f : Found)
    : Int × Fs → Prop
  | quit (refused : f.no ≠ notFound ∨ pathDepth path.chars ≠ pathDepth (joinPath f.searched))
    : DirTried part ialloc balloc s path f (-1, s)
  | tried {p p' : Inode} {ok : Bool} {v : Vol} {s' : Fs} {dirname : List UInt8}
      (missing : f.no = notFound)
      (depth : pathDepth path.chars = pathDepth (joinPath f.searched))
      (short : ∀ x ∈ f.searched, x.length < 16)
      (name : ∃ t : Fs, (lastName (joinPath f.searched)).run t = .ok (dirname, t))
      (parent : (s.atDir part f.dir).2.inode? (s.dirAddr part f.dir) = some p)
      (make : (makeDir part ialloc balloc p dirname).run s.vol = .ok ((ok, p'), v))
      (close : s.DirClosed part f.dir (s.dirSet part f.dir p' v) s')
    : DirTried part ialloc balloc s path f (if ok then 0 else -1, s')

theorem sysMkdirWith_run {ialloc balloc : VolM (Option UInt32)} (hs : s.Searchable) {r : Int × Fs}
    (h : (sysMkdirWith part ialloc balloc junk path).run s = .ok r)
    : DirTried part ialloc balloc s path (s.search part junk path.chars) r := by
  simp only [sysMkdirWith, Cmd.bind_run] at h
  obtain ⟨⟨no, rec⟩, s1, h1, h2⟩ := h
  have hrun := searchFile_run hs h1
  have hshort := searchFile_searched_short hs h1
  generalize s.search part junk path.chars = f at hrun hshort ⊢
  cases hrun
  dsimp only at h2
  split at h2
  . next hfound =>
    rw [hs.quit h2]
    exact .quit (.inl hfound)
  . next hfound =>
    simp only [Cmd.bind_run] at h2
    obtain ⟨d1, s2, h3, d2, s3, h4, h5⟩ := h2
    rw [(Prod.mk.inj (pathDepthCnt_run h4)).2, (Prod.mk.inj (pathDepthCnt_run h3)).2,
      (Prod.mk.inj (pathDepthCnt_run h4)).1, (Prod.mk.inj (pathDepthCnt_run h3)).1] at h5
    split at h5
    . next hdepth =>
      rw [hs.quit h5]
      exact .quit (.inr hdepth)
    . next hdepth =>
      simp only [Cmd.bind_run, Cmd.get_run, onInode_run, Cmd.pure_run] at h5
      obtain ⟨dirname, s4, h6, _, _, h7, ok, s5, ⟨p, p', v, h8, h9, h10⟩, _, s6, h11, h12⟩ := h5
      have hs4 : s4 = _ := lastName_state h6
      cases h7
      rw [hs4] at h6 h8 h9 h10
      rw [Fs.atDir_vol] at h9
      have hs5 : s5 = s.dirSet part f.dir p' v := h10
      rw [hs5] at h11
      rw [h12]
      exact .tried (by simpa using hfound) (by simpa using hdepth) hshort ⟨_, h6⟩ h8 h9 h11

theorem sysMkdir_run (hs : s.Searchable) {r : Int × Fs}
    (h : (sysMkdir part junk path).run s = .ok r)
    : DirMade part s (s.search part junk path.chars) r := by
  cases sysMkdirWith_run hs h with
  | quit => exact .quit
  | tried hmissing _ hshort hname hparent hmake hclose =>
    exact .done hmissing hshort hname hparent hmake hclose

end Mkdir

section Rmdir

def Fs.atChild (part : Partition) (s : Fs) (f : Found)
    : Nat × Fs := (s.atDir part f.dir).2.opened part f.no

def Fs.childSet (part : Partition) (s : Fs) (f : Found) (p : Inode) (v : Vol) : Fs :=
  Fs.updInode { (s.atChild part f).2 with
    vol := v } ((s.atChild part f).2.dirInode (s.atDir part f.dir).1)
    fun _ => p

inductive DirRemoved (part : Partition) (s : Fs) (f : Found) : Int × Fs → Prop
  | quit : DirRemoved part s f (-1, s)
  | done {c p p' c' : Inode} {ok : Bool} {v v' : Vol} {s' : Fs} (found : f.no ≠ notFound)
      (nonzero : f.no ≠ 0) (dir : f.fileType ≠ .regular)
      (child : (s.atChild part f).2.inode? (s.atChild part f).1 = some c)
      (empty : dirIsEmpty part c = true) (blocks : ∀ i < 12, c.sector (i + 1) = 0)
      (parent : (s.atChild part f).2.inode? ((s.atChild part f).2.dirInode (s.atDir part f.dir).1)
        = some p)
      (delete : (deleteDirEntry part p c.iNo).run s.vol = .ok ((ok, p'), v))
      (release : (releaseInode part ((s.childSet part f p' v).view part c.iNo) c.iNo).run v
        = .ok ((), v'))
      (open_ : (s.childSet part f p' v').inode? (s.atChild part f).1 = some c')
      (close : s.DirClosed part f.dir ((s.childSet part f p' v').closed (s.atChild part f).1 c') s')
    : DirRemoved part s f (0, s')

theorem sysRmdir_run (hs : s.Searchable) {r : Int × Fs}
    (h : (sysRmdir part junk path).run s = .ok r)
    : DirRemoved part s (s.search part junk path.chars) r := by
  simp only [sysRmdir, Cmd.bind_run, Cmd.assert_run] at h
  obtain ⟨⟨no, rec⟩, s1, h1, h2⟩ := h
  have hrun := searchFile_run hs h1
  generalize s.search part junk path.chars = f at hrun ⊢
  cases hrun
  dsimp only at h2
  obtain ⟨_, _, ⟨hzero, h3⟩, h4⟩ := h2
  cases h3
  split at h4
  . rw [hs.quit h4]
    exact .quit
  . next hfound =>
    split at h4
    . rw [hs.quit h4]
      exact .quit
    . next hdir =>
      simp only [Cmd.bind_run, inodeOpen_run, derefInode_run] at h4
      obtain ⟨addr, s2, ⟨-, h5⟩, c, _, ⟨_, h6, h7⟩, h8⟩ := h4
      cases h7
      rw [Prod.ext_iff] at h5
      dsimp only at h5
      rw [← Fs.atChild] at h5
      rw [h5.1, h5.2] at h6 h8
      split at h8
      . next hempty =>
        simp only [dirRemove, Cmd.bind_run, derefInode_run, Cmd.assert_run, Cmd.get_run,
          onInode_run, Cmd.pure_run, inodeClose_run] at h8
        obtain ⟨_, s3, ⟨c0, _, ⟨_, h9, h10⟩, _, _, ⟨hblocks, h11⟩, _, _, h12, ok, s4,
          ⟨p, p', v, h13, h14, h15⟩, h16⟩, _, s5, ⟨c', h17, h18⟩, _, s6, h19, h20⟩ := h8
        cases h10
        cases h11
        cases h12
        cases h18
        rw [h6, Option.some.injEq] at h9
        subst h9
        have hvol : (s.atChild part f).2.vol = s.vol := by
          rw [Fs.atChild, Fs.opened_vol, Fs.atDir_vol]
        have hsame := deleteDirEntry_sameOpen _ _ h14
        rw [hvol] at h14
        have hs4 : s4 = s.childSet part f p' v := h15
        have hsearch : (s.childSet part f p' v).Searchable := by
          apply Fs.Searchable.updInode hs.atDir.opened.setVol
          intro _ _
          rw [← hsame.2.1]
          exact hs.atDir.opened.pos _ _ h13
        rw [hs4] at h16
        obtain ⟨v', h21, h22⟩ := inodeRelease_run hsearch h16
        cases h22
        rw [h20]
        refine .done hfound hzero hdir h6 hempty ?_ h13 h14 h21 h17 h19
        intro i hi
        have := List.all_eq_true.mp hblocks i (List.mem_range.mpr hi)
        simpa using this
      . simp only [Cmd.bind_run, Cmd.pure_run] at h8
        obtain ⟨_, s3, h9, _, s4, h10, h11⟩ := h8
        have h12 := hs.atDir.inodeClose_opened h9
        cases h12
        rw [h11, show s4 = s from hs.dirClose_atDir h10]
        exact .quit

end Rmdir

section OpenDir

inductive DirOpened (part : Partition) (s : Fs) (f : Found) : Option DirPtr × Fs → Prop
  | quit : DirOpened part s f (none, s)
  | done {s' : Fs} (found : f.no ≠ notFound) (dir : f.fileType = .directory)
      (close : s.DirClosed part f.dir (s.atChild part f).2 s')
    : DirOpened part s f
        (some (.opened s'.newDirId), { s' with
          dirs := (s'.newDirId, ⟨(s.atChild part f).1, 0⟩) :: s'.dirs })

theorem sysOpendir_run (hs : s.Searchable) {r : Option DirPtr × Fs}
    (h : (sysOpendir part junk path).run s = .ok r)
    : (path.chars = [47] ∧ r = (some .root, s))
      ∨ path.chars ≠ [47] ∧ DirOpened part s (s.search part junk path.chars) r := by
  simp only [sysOpendir, Cmd.bind_run, Cmd.assert_run] at h
  obtain ⟨_, _, ⟨-, h0⟩, h1⟩ := h
  cases h0
  split at h1
  . next hroot =>
    rw [Cmd.pure_run] at h1
    exact .inl ⟨hroot, h1⟩
  . next hroot =>
    refine .inr ⟨hroot, ?_⟩
    simp only [Cmd.bind_run] at h1
    obtain ⟨⟨no, rec⟩, s1, h2, h3⟩ := h1
    have hrun := searchFile_run hs h2
    generalize s.search part junk path.chars = f at hrun ⊢
    cases hrun
    dsimp only at h3
    split at h3
    . next hfound =>
      simp only [Cmd.bind_run, inodeOpen_run, Cmd.get_run, Cmd.modify_run, Cmd.pure_run] at h3
      obtain ⟨addr, s2, ⟨-, h4⟩, _, s3, h5, _, _, h6, _, _, h7, h8⟩ := h3
      cases h6
      cases h7
      rw [Prod.ext_iff] at h4
      dsimp only at h4
      rw [← Fs.atChild] at h4
      rw [h4.2] at h5
      rw [h4.1] at h8
      rw [h8]
      exact .done hfound.1 hfound.2 h5
    . rw [hs.quit h3]
      exact .quit

theorem sysClosedir_run {dir : Option DirPtr} {r : Int × Fs} (h : (sysClosedir dir).run s = .ok r)
    : r.2 = s
      ∨ ∃ id d ino, dir = some (.opened id) ∧ s.dirs.lookup id = some d ∧ s.inode? d.inode
          = some ino
          ∧ r = (0, { s.closed d.inode ino with
              dirs := Assoc.erase (s.closed d.inode ino).dirs id }) := by
  unfold sysClosedir at h
  split at h
  . rw [Cmd.pure_run] at h
    rw [h]
    exact .inl rfl
  . rw [Cmd.pure_run] at h
    rw [h]
    exact .inl rfl
  . next id =>
    simp only [Cmd.bind_run, Cmd.get_run] at h
    obtain ⟨_, _, h1, h2⟩ := h
    cases h1
    split at h2
    . exact absurd h2 Cmd.throw_run
    . next d hd =>
      simp only [Cmd.bind_run, inodeClose_run, Cmd.modify_run, Cmd.pure_run] at h2
      obtain ⟨_, _, ⟨ino, h3, h4⟩, _, _, h5, h6⟩ := h2
      cases h4
      cases h5
      exact .inr ⟨id, d, ino, rfl, hd, h3, h6⟩

end OpenDir

section Chdir

theorem Fs.closed_setTasks {tasks : Nat → Task} {ino : Inode}
    : Fs.closed { s with tasks := tasks } addr ino = { s.closed addr ino with tasks := tasks } := by
  unfold closed
  split <;> rfl

theorem dirClose_setTasks {dir : DirRef} {tasks : Nat → Task} {r : Unit × Fs}
    (h : (dirClose dir).run { s with tasks := tasks } = .ok r)
    : ∃ s', (dirClose dir).run s = .ok ((), s') ∧ r = ((), { s' with tasks := tasks }) := by
  cases dir with
  | root =>
    rw [dirClose, Cmd.pure_run] at h
    exact ⟨s, Cmd.pure_run.mpr rfl, h⟩
  | opened a =>
    rw [dirClose, inodeClose_run] at h
    obtain ⟨ino, h1, h2⟩ := h
    refine ⟨s.closed a ino, ?_, ?_⟩
    . rw [dirClose, inodeClose_run]
      exact ⟨ino, h1, rfl⟩
    . rw [h2, Fs.closed_setTasks]

theorem sysChdir_run (hs : s.Searchable) {r : Int × Fs}
    (h : (sysChdir part task junk path).run s = .ok r)
    : r = (-1, s)
      ∨ ∃ no, (no = (s.search part junk path.chars).no ∧ no ≠ notFound
          ∧ (s.search part junk path.chars).fileType = .directory)
        ∧ r = (0, { s with tasks := Function.update s.tasks task { s.tasks task with
            cwdInodeNr := no } }) := by
  simp only [sysChdir, Cmd.bind_run] at h
  obtain ⟨⟨no, rec⟩, s1, h1, h2⟩ := h
  have hrun := searchFile_run hs h1
  generalize s.search part junk path.chars = f at hrun ⊢
  cases hrun
  dsimp only at h2
  split at h2
  . next hfound =>
    simp only [Cmd.bind_run, Cmd.modify_run, Cmd.pure_run] at h2
    obtain ⟨_, _, h3, _, s3, h4, h5⟩ := h2
    cases h3
    obtain ⟨s', h6, h7⟩ := dirClose_setTasks h4
    have hs' : s' = s := hs.dirClose_atDir h6
    cases h7
    right
    refine ⟨f.no, ⟨rfl, hfound⟩, ?_⟩
    have htasks : (s.atDir part f.dir).2.tasks = s.tasks := by
      cases f.dir with
      | none => rfl
      | some d =>
        simp only [Fs.atDir, Fs.opened]
        split <;> rfl
    rw [h5, hs', htasks]
  . exact .inl (hs.quit h2)

end Chdir

section SysOpen

def Found.Reaches (f : Found) (path : CStr) (flags : UInt8) : Prop :=
  f.fileType ≠ .directory ∧ f.searched = components path.chars
    ∧ (f.no = notFound ↔ flags &&& oCreat ≠ 0)

inductive SysOpened (part : Partition) (task : Nat) (path : CStr) (flags : UInt8) (s : Fs)
    (f : Found)
    : Int × Fs → Prop
  | quit : SysOpened part task path flags s f (-1, s)
  | create {filename : List UInt8} {fd : Int} {t s' : Fs} (missing : f.no = notFound)
      (short : ∀ x ∈ f.searched, x.length < 16)
      (type : f.fileType ≠ .directory) (creat : flags &&& oCreat ≠ 0)
      (slash : path.chars.getLast? ≠ some 47) (all : f.searched = components path.chars)
      (name : ∃ t : Fs, (lastName path.chars).run t = .ok (filename, t))
      (make : FileCreated part task (s.atDir part f.dir).1 filename flags (s.atDir part f.dir).2
        (fd, t))
      (close : s.DirClosed part f.dir t s')
    : SysOpened part task path flags s f (fd, s')
  | existing {r : Int × Fs} (found : f.no ≠ notFound) (type : f.fileType ≠ .directory)
      (creat : flags &&& oCreat = 0) (all : f.searched = components path.chars)
      (open_ : FileOpened part task f.no flags (s.atDir part f.dir).2 r)
    : SysOpened part task path flags s f r

theorem pathDepth_searched {names : List (List UInt8)} {p : List UInt8}
    (hpre : names <+: components p) (hne : names ≠ [])
    : pathDepth (joinPath names) = names.length - 1 := by
  have hnames : ∀ c ∈ names, c ≠ [] ∧ 47 ∉ c := by
    intro c hc
    have hmem := mem_components (hpre.subset hc)
    exact ⟨hmem.1, hmem.2.1⟩
  obtain ⟨hl1, hl2⟩ := hnames _ (List.getLast_mem hne)
  have hlast : (joinPath names).getLast? ≠ some 47 := by
    rw [← List.dropLast_append_getLast hne]
    exact joinPath_getLast? hl1 hl2
  rw [pathDepth_of_getLast? hlast, components_joinPath hnames]

theorem depth_eq_iff {names : List (List UInt8)} {p : List UInt8} (hpre : names <+: components p)
    (hne : names ≠ []) (hlast : p.getLast? ≠ some 47)
    : pathDepth p = pathDepth (joinPath names) ↔ names = components p := by
  rw [pathDepth_of_getLast? hlast, pathDepth_searched hpre hne]
  constructor
  . intro heq
    apply hpre.eq_of_length
    have hpos := List.length_pos_of_ne_nil hne
    have hle := hpre.length_le
    omega
  . intro heq
    rw [heq]

inductive OpenTried (part : Partition) (task : Nat) (path : CStr) (flags : UInt8) (s : Fs)
    (f : Found)
    : Int × Fs → Prop
  | refused (reason : path.chars.getLast? = some 47 ∨ ¬ f.Reaches path flags)
      : OpenTried part task path flags s f (-1, s)
  | create {filename : List UInt8} {fd : Int} {t s' : Fs} (slash : path.chars.getLast? ≠ some 47)
      (reaches : f.Reaches path flags) (missing : f.no = notFound)
      (short : ∀ x ∈ f.searched, x.length < 16)
      (name : ∃ t : Fs, (lastName path.chars).run t = .ok (filename, t))
      (make : FileCreated part task (s.atDir part f.dir).1 filename flags (s.atDir part f.dir).2
        (fd, t))
      (close : s.DirClosed part f.dir t s')
    : OpenTried part task path flags s f (fd, s')
  | existing {r : Int × Fs} (slash : path.chars.getLast? ≠ some 47) (reaches : f.Reaches path flags)
      (found : f.no ≠ notFound)
      (open_ : FileOpened part task f.no flags (s.atDir part f.dir).2 r)
    : OpenTried part task path flags s f r

theorem sysOpen_tried {flags : UInt8} (hs : s.Searchable) {r : Int × Fs}
    (h : (sysOpen part task junk path flags).run s = .ok r)
    : OpenTried part task path flags s (s.search part junk path.chars) r := by
  simp only [sysOpen, Cmd.bind_run, Cmd.assert_run] at h
  obtain ⟨_, _, ⟨-, h0⟩, h1⟩ := h
  cases h0
  split at h1
  . next hslash =>
    rw [Cmd.pure_run] at h1
    rw [h1]
    exact .refused (.inl hslash)
  . next hslash =>
    simp only [Cmd.bind_run, Cmd.assert_run] at h1
    obtain ⟨_, _, ⟨-, h2⟩, d1, s1, h3, ⟨no, rec⟩, s2, h4, h5⟩ := h1
    cases h2
    cases pathDepthCnt_run h3
    have hrun := searchFile_run hs h4
    have hsearched := @Fs.search_searched part s junk path.chars
    have hshort := searchFile_searched_short hs h4
    generalize s.search part junk path.chars = f at hrun hsearched hshort ⊢
    cases hrun
    dsimp only at h5
    split at h5
    . next htype =>
      rw [hs.quit h5]
      exact .refused (.inr fun hreach => hreach.1 htype)
    . next htype =>
      have hiff := depth_eq_iff hsearched.1 (hsearched.2 htype) hslash
      simp only [Cmd.bind_run] at h5
      obtain ⟨d2, s3, h6, h7⟩ := h5
      cases pathDepthCnt_run h6
      split at h7
      . next hdepth =>
        rw [hs.quit h7]
        exact .refused (.inr fun hreach => hdepth (hiff.mpr hreach.2.1))
      . next hdepth =>
        split at h7
        . next hnone =>
          rw [hs.quit h7]
          exact .refused (.inr fun hreach => hreach.2.2.mp hnone.1 hnone.2)
        . next hnone =>
          split at h7
          . next hsome =>
            rw [hs.quit h7]
            exact .refused (.inr fun hreach => hsome.1 (hreach.2.2.mpr hsome.2))
          . next hsome =>
            have hno : f.no = notFound ↔ flags &&& oCreat ≠ 0 :=
              ⟨fun hmiss hcreat => hnone ⟨hmiss, hcreat⟩,
                fun hcreat => by_contra fun hmiss => hsome ⟨hmiss, hcreat⟩⟩
            have hreach : f.Reaches path flags := ⟨htype, hiff.mp (by simpa using hdepth), hno⟩
            split at h7
            . next hcreat =>
              simp only [Cmd.bind_run, Cmd.pure_run] at h7
              obtain ⟨name, s4, h8, fd, s5, h9, _, s6, h10, h11⟩ := h7
              have hs4 : s4 = _ := lastName_state h8
              rw [hs4] at h8 h9
              rw [h11]
              exact .create hslash hreach (hno.mpr hcreat) hshort ⟨_, h8⟩ (fileCreate_run h9) h10
            . next hcreat =>
              exact .existing hslash hreach (fun hmiss => hcreat (hno.mp hmiss)) (fileOpen_run h7)

theorem sysOpen_run {flags : UInt8} (hs : s.Searchable) {r : Int × Fs}
    (h : (sysOpen part task junk path flags).run s = .ok r)
    : SysOpened part task path flags s (s.search part junk path.chars) r := by
  cases sysOpen_tried hs h with
  | refused => exact .quit
  | create hslash hreach hmiss hshort hname hmake hclose =>
    exact .create hmiss hshort hreach.1 (hreach.2.2.mp hmiss) hslash hreach.2.1 hname hmake hclose
  | existing hslash hreach hfound hopen =>
    exact .existing hfound hreach.1 (by_contra fun hcreat =>
      hfound (hreach.2.2.mpr hcreat)) hreach.2.1 hopen

end SysOpen

section SysWrite

theorem sysWrite_run {fd : Int} {buf : Mem} {count : UInt32} {r : Int × Fs}
    (h : (sysWrite part task fd buf count).run s = .ok r)
    : (r.2 = s ∧ (r.1 = -1 ∨ fd = 1))
      ∨ ∃ (i : Fin 8) (fdIdx : Fin 32), fd = i.val ∧ (s.tasks task).fdTable i = fdIdx.val
          ∧ (writeFile part fdIdx buf count).run s = .ok r := by
  unfold sysWrite at h
  split at h
  . rw [Cmd.pure_run] at h
    rw [h]
    exact .inl ⟨rfl, .inl rfl⟩
  . next hfd =>
    split at h
    . next hout =>
      simp only [Cmd.bind_run, Cmd.assert_run, Cmd.pure_run] at h
      obtain ⟨_, _, ⟨-, h1⟩, h2⟩ := h
      cases h1
      rw [h2]
      exact .inl ⟨rfl, .inr hout⟩
    . simp only [Cmd.bind_run, fdLocal2Global, Cmd.get_run] at h
      obtain ⟨fdIdx, s1, ⟨_, _, h1, h2⟩, _, _, h3, h4⟩ := h
      cases h1
      cases h3
      split at h2
      . next hlt =>
        split at h2
        . next hg =>
          rw [Cmd.pure_run, Prod.mk.injEq] at h2
          rw [h2.2] at h4
          split at h4
          . refine .inr ⟨⟨fd.toNat, hlt⟩, fdIdx, (Int.toNat_of_nonneg (by omega)).symm, ?_, h4⟩
            rw [h2.1]
            exact (Int.toNat_of_nonneg hg.1).symm
          . rw [Cmd.pure_run] at h4
            rw [h4]
            exact .inl ⟨rfl, .inl rfl⟩
        . exact absurd h2 Cmd.throw_run
      . exact absurd h2 Cmd.throw_run

end SysWrite

end RogOS
