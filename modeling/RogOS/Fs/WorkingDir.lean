import Mathlib.Data.List.Induction
import RogOS.Fs.PathLookup
import RogOS.Fs.Impl.Cwd
import RogOS.Lib.DirWalk

/-!
`sys_getcwd` after `sys_chdir`: the path that it puts together leads back to the working directory.
-/

namespace RogOS

open DirWalk (Path)

variable {part : Partition} {s t : Fs} {D : UInt32 → Prop} {d p q n : UInt32} {c rev : List UInt8}
  {st : List (List UInt8)} {e : DirEntry} {task : Nat} {path : CStr}

def Fs.FirstBlock (part : Partition) (s : Fs) (d : UInt32) (k : Nat) (c : List UInt8) (n : UInt32)
    : Prop :=
  ∃ e, (s.vol.image part).dirent (s.view part d) 0 k = some e ∧ e.HasName c
    ∧ e.fType = FileType.directory.code ∧ e.iNo = n

/--
The directory `n` is listed in `p` under the name `c`: behind `.` and `..`, no other slot of `p` has
its number or its name. Its own entry `..` names `p`.
-/
structure Fs.Subdir (part : Partition) (s : Fs) (p : UInt32) (c : List UInt8) (n : UInt32)
    : Prop where
  nonroot : n ≠ 0
  dotdot : s.FirstBlock part n 1 [46, 46] p
  name : IsName c ∧ 47 ∉ c ∧ c.length ≤ 15
  notDots : c ≠ [46] ∧ c ≠ [46, 46]
  slot : ∃ i < 140, ∃ k < 21,
    (∃ e, (s.vol.image part).dirent (s.view part p) i k = some e ∧ e.HasName c
      ∧ e.fType = FileType.directory.code ∧ e.iNo = n)
    ∧ (∀ j < 140, ∀ l < 21, ∀ e, ¬ (j = 0 ∧ l < 2) → (s.vol.image part).dirent (s.view part p) j l
        = some e →
      e.iNo = n → j = i ∧ l = k)
    ∧ ∀ j < 140, ∀ l < 21, (s.vol.image part).Named (s.view part p) c j l → j = i ∧ l = k

structure Fs.DotTree (part : Partition) (s : Fs) (D : UInt32 → Prop) : Prop where
  listing : s.Listing part D
  dot : ∀ d, D d → s.FirstBlock part d 0 [46] d
  root : s.FirstBlock part 0 1 [46, 46] 0

theorem Fs.FirstBlock.unique (h : s.FirstBlock part d 1 c p) (h' : s.FirstBlock part d 1 c q)
    : p = q := by
  obtain ⟨e, he, -, -, rfl⟩ := h
  obtain ⟨e', he', -, -, rfl⟩ := h'
  rw [he, Option.some.injEq] at he'
  rw [he']

def Fs.DotTree.tree (hT : s.DotTree part D) : DirWalk.Tree (List UInt8) UInt32 where
  root := 0
  Sub p c n := D p ∧ D n ∧ s.Subdir part p c n
  Parent n p := s.FirstBlock part n 1 [46, 46] p
  parent_root _ h := h.unique hT.root
  parent_sub _ _ _ _ h h' := h'.unique h.2.2.dotdot

section Climb

theorem opened_ok (hs : s.Searchable) (hd : d.toNat < 4096)
    : ∃ addr ino t, (inodeOpen part d).run s = .ok (addr, t) ∧ (derefInode addr).run t
        = .ok (ino, t)
        ∧ (inodeClose addr).run t = .ok ((), s) ∧ t.vol = s.vol
            ∧ ino.sector = (s.view part d).sector
        ∧ (s.vol.image part).block ino = (s.vol.image part).block (s.view part d) := by
  obtain ⟨k, hk⟩ := @Fs.AddrNodup.opened_inode? part s d hs.addrs
  refine ⟨(s.opened part d).1, _, (s.opened part d).2, inodeOpen_run.mpr ⟨fun _ => hd, rfl⟩,
    derefInode_run.mpr ⟨_, hk, rfl⟩, ?_, Fs.opened_vol, rfl, rfl⟩
  rw [inodeClose_run]
  exact ⟨_, hk, by rw [hs.addrs.closed_opened hs.pos hk]⟩

theorem getParentDirInodeNr_ok (hs : s.Searchable) (hL : s.Listing part D) (hd : D d) (hp : D p)
    (h : s.FirstBlock part d 1 [46, 46] p) : (getParentDirInodeNr part d).run s = .ok (p, s) := by
  obtain ⟨e, he, -, hdir, rfl⟩ := h
  obtain ⟨addr, ino, t, hopen, hderef, hclose, -, hsec, -⟩ := @opened_ok part s d hs (hL.lt d hd)
  have hfirst : (s.vol.image part).block (s.view part d) 0 = ino.sector 0 := by
    rw [hsec]
    exact Image.block_of_lt (by omega)
  have h0 : (s.vol.image part).block (s.view part d) 0 ≠ 0 := by
    intro h0
    rw [Image.dirent, Image.ref_of_lt (by omega), h0, if_pos rfl] at he
    contradiction
  have harea := (hL.inBlocks d hd).block 0 (by omega) h0
  rw [Image.dirent_of_ne_zero (by omega) h0, Option.some.injEq, Image.entry, Image.blockSec,
    hfirst] at he
  rw [hfirst] at harea
  have hread : (onVol (ideRead (ino.sector 0) 1)).run s
      = .ok ((s.vol.image part).sec (ino.sector 0).toNat, s) := by
    rw [onVol_run]
    exact ⟨_, ideRead_block harea, rfl⟩
  have hlba : part.sb.dataStartLba ≤ ino.sector 0 := harea.isData
  rw [getParentDirInodeNr, Cmd.exec_bind hopen, Cmd.exec_bind hderef]
  dsimp only
  rw [Cmd.exec_assert_bind, if_pos hlba, Cmd.exec_bind hclose, Cmd.exec_bind hread,
    Cmd.exec_assert_bind, he, if_pos ⟨hL.lt _ hp, hdir⟩]
  rfl

theorem getChildDirName.addName_ok {σ : Type} {x : σ} {buf : Mem} {k : Nat} (hk : k < 21)
    (hc : 0 ∉ c) (hlen : c.length ≤ 15) (hname : nameEq buf k c = true)
    (hfit : rev.length + (c.length + 1) < 512)
    : (addName rev buf k).run x = .ok (rev ++ 47 :: c, x) := by
  have hoff : k * DirEntry.size ≤ 480 := by
    rw [DirEntry.size]
    omega
  have hchars : buf.chars (k * DirEntry.size) (512 - k * DirEntry.size) = c := by
    apply Mem.chars_of_strEq hc hname
    omega
  have h1 : (rev ++ [47]).length < 512 := by
    rw [List.length_append, List.length_singleton]
    omega
  have h2 : (rev ++ [47] ++ c).length < 512 := by
    rw [List.length_append, List.length_append, List.length_singleton]
    omega
  rw [addName, Cmd.exec_bind (strcat_ok h1)]
  dsimp only
  rw [hchars, Cmd.exec_assert_bind, if_pos (by omega), strcat_ok h2, List.append_assoc,
    List.singleton_append]

theorem getChildDirName.go_ok {v : Vol} {ino : Inode} {m b i k : Nat}
    (hino : (v.image part).InBlocks part ino) (hm : b + m ≤ 140) (hb : b ≤ i) (hi : i < b + m)
    (hk : k < 21) (hent : (v.image part).dirent ino i k = some e) (hno : e.iNo = n)
    (hname : e.HasName c) (hproper : e.fType ≤ 2) (hc : 0 ∉ c) (hlen : c.length ≤ 15)
    (honly : ∀ j < 140, ∀ l < 21, ∀ e', (v.image part).dirent ino j l = some e' → e'.iNo = n → j = i
      ∧ l = k)
    (hfit : rev.length + (c.length + 1) < 512)
    : (go part n rev ((v.image part).block ino) m b).run v = .ok (some (rev ++ 47 :: c), v) := by
  have hi0 : (v.image part).block ino i ≠ 0 := by
    intro h0
    rw [Image.dirent, Image.ref_of_lt (by omega), h0, if_pos rfl] at hent
    contradiction
  induction m generalizing b with
  | zero => omega
  | succ m ih =>
    rw [go]
    split
    . next h0 =>
      rw [Cmd.exec_bind (ideRead_block (hino.block b (by omega) h0)), Partition.entriesPerSec_eq]
      have hslot : ∀ l < 21,
          ((DirEntry.at ((v.image part).sec ((v.image part).block ino b).toNat) l).iNo == n) = true
          →
          b = i ∧ l = k := by
        intro l hl hln
        exact honly b (by omega) l hl _ (Image.dirent_of_ne_zero (by omega) h0) (beq_iff_eq.mp hln)
      cases hfind :
        findSlot (fun k =>
        (DirEntry.at ((v.image part).sec ((v.image part).block ino b).toNat) k).iNo == n) 21 0 with
      | some l =>
        obtain ⟨-, hl, hln, -⟩ := findSlot_eq_some hfind
        obtain ⟨rfl, rfl⟩ := hslot l (by omega) hln
        rw [Image.dirent_of_ne_zero (by omega) h0, Option.some.injEq, Image.entry,
          Image.blockSec] at hent
        have hhit :=
          (DirEntry.nameEq_iff hc (by rw [hent]; exact hproper)).mpr (by rw [hent]; exact hname)
        dsimp only
        rw [Cmd.exec_bind (addName_ok hk hc hlen hhit hfit)]
        rfl
      | none =>
        rw [findSlot_eq_none] at hfind
        apply ih (by omega) _ (by omega)
        by_contra hlt
        have hbi : b = i := by omega
        subst hbi
        have hno' := hfind k (by omega) (by omega)
        rw [Image.dirent_of_ne_zero (by omega) h0, Option.some.injEq, Image.entry,
          Image.blockSec] at hent
        rw [hent, hno, beq_self_eq_true] at hno'
        contradiction
    . next h0 =>
      rw [not_not] at h0
      apply ih (by omega) _ (by omega)
      by_contra hlt
      have hbi : b = i := by omega
      rw [hbi] at h0
      exact hi0 h0

theorem getChildDirName_ok (hs : s.Searchable) (hT : s.DotTree part D) (hp : D p)
    (hsub : s.Subdir part p c n) (hnp : n ≠ p) (hup : s.FirstBlock part p 1 [46, 46] q)
    (hnq : q ≠ n) (hfit : rev.length + (c.length + 1) < 512)
    : (getChildDirName part p n rev).run s = .ok (some (rev ++ 47 :: c), s) := by
  have hL := hT.listing
  obtain ⟨addr, ino, t, hopen, hderef, hclose, hvol, hsec, hblock⟩ :=
    @opened_ok part s p hs (hL.lt p hp)
  obtain ⟨i, hi, k, hk, ⟨e, hent, hname, hdir, hno⟩, honce, -⟩ := hsub.slot
  have hblocks : (onVol (allBlocks ino)).run t = .ok ((s.vol.image part).block (s.view part p),
      t) := by
    rw [onVol_run]
    refine ⟨t.vol, ?_, rfl⟩
    rw [hvol, ← hblock]
    apply allBlocks_run
    rw [hsec]
    exact (hL.inBlocks p hp).table
  have hlt : i < if ino.sector 12 ≠ 0 then 140 else 12 := by
    split
    . exact hi
    . next h12 =>
      by_contra hge
      rw [hsec, not_not] at h12
      rw [Image.dirent, Image.ref_of_lt hi, Image.block_of_ge (by omega), h12] at hent
      contradiction
  have honly : ∀ j < 140, ∀ l < 21, ∀ e', (s.vol.image part).dirent (s.view part p) j l = some e'
      → e'.iNo = n →
      j = i ∧ l = k := by
    intro j hj l hl e' he' hno'
    by_cases hjl : j = 0 ∧ l < 2
    . exfalso
      obtain ⟨rfl, hl2⟩ := hjl
      cases l with
      | zero =>
        obtain ⟨x, hx, -, -, hxno⟩ := hT.dot p hp
        rw [he', Option.some.injEq] at hx
        rw [hx, hxno] at hno'
        exact hnp hno'.symm
      | succ l =>
        obtain ⟨x, hx, -, -, hxno⟩ := hup
        have hl0 : l = 0 := by omega
        rw [hl0, hx, Option.some.injEq] at he'
        apply hnq
        rw [← hxno, he', hno']
    . exact honce j hj l hl e' hjl he' hno'
  have hcnt : 0 + (if ino.sector 12 ≠ 0 then 140 else 12) ≤ 140 := by
    split <;> omega
  have hgo := @getChildDirName.go_ok part n c rev e s.vol (s.view part p) _ 0 i k
    (hL.inBlocks p hp) hcnt
    (Nat.zero_le i) (by rw [Nat.zero_add]; exact hlt) hk hent hno hname
      (hL.proper p hp i hi k hk e hent).1
    hsub.name.1.2 hsub.name.2.2 honly hfit
  rw [getChildDirName, Cmd.exec_bind hopen, Cmd.exec_bind hderef, Cmd.exec_bind hblocks]
  dsimp only
  rw [Cmd.exec_bind hclose, onVol_run]
  exact ⟨_, hgo, rfl⟩

theorem sysGetcwd.climb_ok (hs : s.Searchable) (hT : s.DotTree part D) {fuel : Nat}
    (hpath : Path hT.tree st d) (hfuel : st.length < fuel)
    (hfit : rev.length + (joinPath st).length < 512)
    : (climb part fuel d rev).run s = .ok (some (rev ++ joinPath st), s) := by
  have hroot : ∀ d c, ¬ hT.tree.Sub d c hT.tree.root := fun _ _ h => h.2.2.nonroot rfl
  have hparent : ∀ d c e, hT.tree.Sub d c e → hT.tree.Parent e d := fun _ _ _ h => h.2.2.dotdot
  induction hpath generalizing fuel rev with
  | root =>
    cases fuel with
    | zero => omega
    | succ fuel =>
      rw [climb, if_pos (show hT.tree.root = 0 from rfl), joinPath, List.flatMap_nil,
        List.append_nil]
      rfl
  | push path sub ih =>
    rename_i st c p n
    cases fuel with
    | zero => omega
    | succ fuel =>
      have hpush : Path hT.tree (c :: st) n := .push path sub
      have hnp : n ≠ p := by
        rintro rfl
        have := path.length_eq hroot hparent hpush
        rw [List.length_cons] at this
        omega
      -- neither `.` nor `..` of the parent is taken for the directory
      obtain ⟨q, hup, hnq⟩ : ∃ q, s.FirstBlock part p 1 [46, 46] q ∧ q ≠ n := by
        cases path with
        | root => exact ⟨0, hT.root, Ne.symm sub.2.2.nonroot⟩
        | push path' sub' =>
          rename_i st' c' q
          refine ⟨q, sub'.2.2.dotdot, ?_⟩
          rintro rfl
          have := path'.length_eq hroot hparent hpush
          rw [List.length_cons, List.length_cons] at this
          omega
      rw [length_joinPath_cons] at hfit
      rw [List.length_cons] at hfuel
      rw [climb, if_neg sub.2.2.nonroot,
        Cmd.exec_bind (getParentDirInodeNr_ok hs hT.listing sub.2.1 sub.1 sub.2.2.dotdot),
        Cmd.exec_bind (getChildDirName_ok hs hT sub.1 sub.2.2 hnp hup hnq (by omega))]
      dsimp only
      rw [ih (by omega) (by rw [List.length_append, List.length_cons]; omega), List.append_assoc]
      rfl

end Climb

section Turn

theorem length_joinPath_reverse : (joinPath st.reverse).length = (joinPath st).length := by
  induction st with
  | nil => rfl
  | cons c st ih =>
    rw [List.reverse_cons, joinPath_concat, List.length_append, List.length_cons,
      length_joinPath_cons, ih]
    omega

theorem sysGetcwd.turn_ok {σ : Type} {x : σ} {size fuel : Nat} {buf : List UInt8}
    (hst : ∀ c ∈ st, 47 ∉ c) (hfuel : st.length < fuel)
    (hfit : buf.length + (joinPath st).length < size)
    : (turn size fuel (joinPath st) buf).run x = .ok (buf ++ joinPath st.reverse, x) := by
  induction st using List.reverseRecOn generalizing fuel buf with
  | nil =>
    cases fuel with
    | zero => omega
    | succ fuel =>
      rw [turn, joinPath, List.flatMap_nil, Str.strrchr_of_not_mem List.not_mem_nil,
        List.reverse_nil, joinPath, List.flatMap_nil, List.append_nil]
      rfl
  | append_singleton st c ih =>
    cases fuel with
    | zero => omega
    | succ fuel =>
      have hc : 47 ∉ c := hst c (by simp)
      rw [joinPath_concat, List.length_append] at hfit
      rw [List.length_append, List.length_singleton] at hfuel
      rw [turn, joinPath_concat, Str.strrchr_append hc]
      dsimp only
      rw [List.drop_left, List.take_left, Cmd.exec_assert_bind,
        if_pos (by rw [List.length_append]; omega),
        ih (fun c hc => hst c (List.mem_append_left _ hc)) (by omega)
          (by rw [List.length_append]; omega),
        List.append_assoc, List.reverse_append, List.reverse_singleton, List.singleton_append]
      rfl

end Turn

section Path

theorem Fs.Subdir.look (h : s.Subdir part p c n) (hL : s.Listing part D) (hp : D p)
    : ∃ e, s.look part p c = some e ∧ e.fType = FileType.directory.code ∧ e.iNo = n := by
  obtain ⟨i, hi, k, hk, ⟨e, hent, hname, hdir, hno⟩, -, hunique⟩ := h.slot
  refine ⟨e, ?_, hdir, hno⟩
  apply hL.look_of_unique hp h.name.1 ⟨i, hi, k, hk, hent, hname⟩
  rintro e' ⟨j, hj, l, hl, hent', hname'⟩
  obtain ⟨rfl, rfl⟩ := hunique j hj l hl ⟨e', hent', hname'⟩
  rw [hent, Option.some.injEq] at hent'
  exact hent'.symm

theorem Fs.DotTree.walks (hT : s.DotTree part D) (hpath : Path hT.tree st d)
    : s.Walks part 0 st.reverse d := by
  induction hpath with
  | root => exact .nil
  | push path sub ih =>
    obtain ⟨e, hlook, hdir, rfl⟩ := sub.2.2.look hT.listing sub.1
    rw [List.reverse_cons]
    exact ih.snoc hlook hdir

theorem Fs.DotTree.names (hT : s.DotTree part D) (hpath : Path hT.tree st d)
    : ∀ c ∈ st, (IsName c ∧ 47 ∉ c ∧ c.length ≤ 15) ∧ c ≠ [46] ∧ c ≠ [46, 46] := by
  induction hpath with
  | root => exact fun c hc => absurd hc List.not_mem_nil
  | push path sub ih =>
    intro x hx
    cases List.mem_cons.mp hx with
    | inl hx =>
      rw [hx]
      exact ⟨sub.2.2.name, sub.2.2.notDots⟩
    | inr hx => exact ih x hx

theorem Fs.DotTree.components_pathOf (hT : s.DotTree part D) (hpath : Path hT.tree st d)
    : components (pathOf st) = st.reverse :=
  RogOS.components_pathOf fun c hc => ⟨(hT.names hpath c hc).1.1.1, (hT.names hpath c hc).1.2.1⟩

theorem Fs.DotTree.wellFormed (hT : s.DotTree part D) (hpath : Path hT.tree st d)
    (hlen : (pathOf st).length < 512)
    : WellFormed (pathOf st) := by
  have hcs := hT.components_pathOf hpath
  have hnames := hT.names hpath
  constructor
  . cases st with
    | nil => rfl
    | cons c st =>
      rw [pathOf_cons]
      cases hst : st.reverse with
      | nil => rfl
      | cons x xs => rfl
  . exact hlen
  . cases st with
    | nil => exact .inl (.inl rfl)
    | cons c st =>
      right
      rw [hcs]
      exact List.reverse_ne_nil_iff.mpr (List.cons_ne_nil _ _)
  . rw [hcs]
    exact fun c hc => (hnames c (List.mem_reverse.mp hc)).1.2.2
  . unfold pathOf
    split
    . decide
    . intro h0
      obtain ⟨c, hc, h0⟩ := List.mem_flatMap.mp h0
      cases List.mem_cons.mp h0 with
      | inl h0 => contradiction
      | inr h0 => exact (hnames c (List.mem_reverse.mp hc)).1.1.2 h0

theorem Fs.DotTree.search (hT : s.DotTree part D) (hpath : Path hT.tree st d)
    (hlen : (pathOf st).length < 512) (junk : UInt32)
    : (s.search part junk (pathOf st)).no = d ∧ (s.search part junk (pathOf st)).fileType
        = .directory := by
  have hcs := hT.components_pathOf hpath
  have hp := hT.wellFormed hpath hlen
  cases hpath with
  | root => exact ⟨rfl, rfl⟩
  | push path sub =>
    rename_i st c p
    obtain ⟨e, hlook, hdir, hno⟩ := sub.2.2.look hT.listing sub.1
    rw [List.reverse_cons] at hcs
    have hroot := not_isRootPath hcs sub.2.2.notDots.1 sub.2.2.notDots.2
    obtain ⟨dir, h1, h2⟩ := @Fs.Listing.search _ _ _ junk _ _ _ _ hT.listing hp hroot hcs
      (hT.walks path)
    rw [h2, Fs.foundIn, h1, hlook]
    dsimp only
    rw [if_pos hdir]
    exact ⟨hno, rfl⟩

end Path

section Frame

variable {ts : Nat → Task}

theorem Fs.Listing.setTasks (hL : s.Listing part D) : Fs.Listing part { s with tasks := ts } D where
  root := hL.root
  rootDir := hL.rootDir
  iNo := hL.iNo
  lt := hL.lt
  inBlocks := hL.inBlocks
  proper := hL.proper
  child := hL.child

theorem Fs.DotTree.setTasks (hT : s.DotTree part D) : Fs.DotTree part { s with tasks := ts } D where
  listing := hT.listing.setTasks
  dot := hT.dot
  root := hT.root

theorem Fs.Subdir.setTasks (h : s.Subdir part p c n)
    : Fs.Subdir part { s with tasks := ts } p c n where
  nonroot := h.nonroot
  dotdot := h.dotdot
  name := h.name
  notDots := h.notDots
  slot := h.slot

theorem Fs.DotTree.path_setTasks (hT : s.DotTree part D) (h : Path hT.tree st d)
    : Path (@Fs.DotTree.setTasks part s D ts hT).tree st d := by
  induction h with
  | root => exact .root
  | push path sub ih => exact .push ih ⟨sub.1, sub.2.1, sub.2.2.setTasks⟩

end Frame

/--
After a `sys_chdir` to the directory `d`, `sys_getcwd` returns the names between the root directory
and `d`, none of them `.` or `..`, and `search_file` finds `d` under this path.
-/
theorem sysGetcwd_of_sysChdir (hs : s.Searchable) (hT : s.DotTree part D)
    (hpath : Path hT.tree st d) (hlen : (pathOf st).length < 512) {junk : UInt32}
    (hchdir : (sysChdir part task junk path).run s = .ok (0, t))
    (hcwd : (t.tasks task).cwdInodeNr = d) (junk' : UInt32)
    : ∃ r, (sysGetcwd part task 512).run t = .ok (some (pathOf st), t)
        ∧ components (pathOf st) = st.reverse ∧ (∀ c ∈ st, c ≠ [46] ∧ c ≠ [46, 46])
        ∧ (searchFile part junk' (pathOf st)).run t = .ok r ∧ r.1.1 = d ∧ r.1.2.fileType
            = .directory := by
  obtain ⟨ts, rfl⟩ : ∃ ts, t = { s with tasks := ts } := by
    cases sysChdir_run hs hchdir with
    | inl h => cases h
    | inr h =>
      obtain ⟨no, -, h⟩ := h
      cases h
      exact ⟨_, rfl⟩
  have hs' : Fs.Searchable { s with tasks := ts } := ⟨hs.addrs, hs.pos, hs.root⟩
  have hT' : Fs.DotTree part { s with tasks := ts } D := hT.setTasks
  have hpath' : Path hT'.tree st d := hT.path_setTasks hpath
  have hfind := hT'.search hpath' hlen junk'
  refine ⟨_, ?_, hT.components_pathOf hpath, fun c hc => (hT.names hpath c hc).2,
    hT'.listing.searchFile_run hs' (hT'.wellFormed hpath' hlen), hfind.1, hfind.2⟩
  have hd : D d := by
    cases hpath with
    | root => exact hT.listing.root
    | push path sub => exact sub.2.1
  rw [sysGetcwd, Cmd.exec_get_bind, hcwd]
  dsimp only
  rw [Cmd.exec_assert_bind, if_pos (hT.listing.lt d hd)]
  cases hpath' with
  | root => rfl
  | push path sub =>
    rename_i st c p
    have hpath' := Path.push path sub
    rw [pathOf, if_neg (List.cons_ne_nil _ _), length_joinPath_reverse] at hlen
    have hcount := @length_joinPath (c :: st)
    have hclimb := @sysGetcwd.climb_ok part _ D d [] (c :: st) hs' hT' 512 hpath' (by omega)
      (by rw [List.length_nil]; omega)
    have hturn := @sysGetcwd.turn_ok (c :: st) Fs { s with tasks := ts } 512 512 []
      (fun x hx => (hT'.names hpath' x hx).1.2.1) (by omega) (by rw [List.length_nil]; omega)
    rw [if_neg sub.2.2.nonroot, Cmd.exec_bind hclimb]
    dsimp only
    rw [List.nil_append, Cmd.exec_assert_bind, if_pos (by omega), Cmd.exec_bind hturn,
      List.nil_append, pathOf, if_neg (List.cons_ne_nil _ _)]
    rfl

section Fixed

theorem firstBlock_nestedFs {d n : UInt32} {c : List UInt8} {k : Nat}
    (hd : d ∈ ([0, 1, 2] : List UInt32)) (hk : k < 21)
    (hx : (nestedSlots d)[k]? = some (c, n, .directory))
    (hname : (DirEntry.new c n .directory).HasName c)
    : nestedFs.FirstBlock smallPartition d k c n :=
  ⟨_, (slotsOk_nestedFs d hd).dirent hk hx, hname, rfl, rfl⟩

theorem dotTree_nestedFs : nestedFs.DotTree smallPartition (· ∈ ([0, 1, 2] : List UInt32)) where
  listing := listing_nestedFs
  dot d hd := by
    have hself : ∀ d ∈ ([0, 1, 2] : List UInt32),
        (nestedSlots d)[0]? = some ([46], d, .directory) :=
      forall_mem_nestedFs rfl rfl rfl
    exact ⟨_, (slotsOk_nestedFs d hd).dirent (by omega) (hself d hd), rfl, rfl, rfl⟩
  root := firstBlock_nestedFs (by decide) (by omega) rfl rfl

theorem subdir_nestedFs {p n : UInt32} {c : List UInt8} (hp : p ∈ ([0, 1, 2] : List UInt32))
    (hn : n ≠ 0) (hdotdot : nestedFs.FirstBlock smallPartition n 1 [46, 46] p)
    (hname : IsName c ∧ 47 ∉ c ∧ c.length ≤ 15) (hdots : c ≠ [46] ∧ c ≠ [46, 46])
    (hslot : nestedFs.FirstBlock smallPartition p 2 c n)
    (hone : ∀ l < 21, ¬ l < 2 →
      (((nestedSlots p)[l]?).elim DirEntry.blank fun x => DirEntry.new x.1 x.2.1 x.2.2).iNo = n
        → l = 2)
    : nestedFs.Subdir smallPartition p c n where
  nonroot := hn
  dotdot := hdotdot
  name := hname
  notDots := hdots
  slot := by
    refine ⟨0, by decide, 2, by decide, hslot, ?_, ?_⟩
    . intro j hj l hl e hjl hent hno
      rw [(slotsOk_nestedFs p hp).slots j hj l hl] at hent
      split at hent
      . next h0 =>
        rw [Option.some.injEq] at hent
        rw [← hent] at hno
        exact ⟨h0, hone l hl (fun h => hjl ⟨h0, h⟩) hno⟩
      . cases hent
    . intro j hj l hl hnamed
      obtain ⟨e, hent, hhas, -⟩ := hslot
      exact Fs.uniqueNames_of_slots slotsOk_nestedFs p hp c hname.1 j hj l hl 0 (by decide) 2
        (by decide) hnamed ⟨e, hent, hhas⟩

theorem sysGetcwd_of_sysChdir_pathAB
    : ∃ t r, (sysChdir smallPartition 0 7 ⟨[47, 97, 47, 98], by decide⟩).run nestedFs = .ok (0, t)
        ∧ (sysGetcwd smallPartition 0 512).run t = .ok (some [47, 97, 47, 98], t)
        ∧ (searchFile smallPartition 8 [47, 97, 47, 98]).run t = .ok r ∧ r.1.1 = 2 ∧ r.1.2.fileType
            = .directory := by
  have hret : (sysChdir smallPartition 0 7 ⟨[47, 97, 47, 98], by decide⟩).returns nestedFs (fun k =>
      k == 0) = true := by
    decide +kernel
  have hcwd :
      (((sysChdir smallPartition 0 7 ⟨[47, 97, 47, 98], by decide⟩).after nestedFs).tasks
      0).cwdInodeNr = 2 := by
    decide +kernel
  obtain ⟨k, hrun, hk⟩ := Cmd.run_of_returns hret
  rw [beq_iff_eq] at hk
  rw [hk] at hrun
  have hsubA : nestedFs.Subdir smallPartition 0 [97] 1 := by
    apply subdir_nestedFs (by decide) (by decide) _ ⟨⟨by decide, by decide⟩, by decide, by
      decide⟩ (by decide)
    . exact firstBlock_nestedFs (by decide) (by omega) rfl rfl
    . decide
    . exact firstBlock_nestedFs (by decide) (by omega) rfl rfl
  have hsubB : nestedFs.Subdir smallPartition 1 [98] 2 := by
    apply subdir_nestedFs (by decide) (by decide) _ ⟨⟨by decide, by decide⟩, by decide, by
      decide⟩ (by decide)
    . exact firstBlock_nestedFs (by decide) (by omega) rfl rfl
    . decide
    . exact firstBlock_nestedFs (by decide) (by omega) rfl rfl
  have hpath : Path dotTree_nestedFs.tree [[98], [97]] 2 :=
    .push (.push .root ⟨by decide, by decide, hsubA⟩) ⟨by decide, by decide, hsubB⟩
  obtain ⟨r, h1, -, -, h2, h3, h4⟩ :=
    sysGetcwd_of_sysChdir searchable_nestedFs dotTree_nestedFs hpath (by decide) hrun
    hcwd 8
  exact ⟨_, r, hrun, h1, h2, h3, h4⟩

end Fixed

end RogOS
