import RogOS.Fs.System
import RogOS.Fs.Impl.InodeHeap
import RogOS.Fs.Invariant.Count

/-!
Which inodes in memory are in the heap of the kernel.
-/

namespace RogOS

variable {part : Partition} {task addr : Nat} {junk : UInt32} {path : CStr} {flags : UInt8}
  {p p' : PooledFs}
  {pool : Nat → PoolFlag} {α β : Type}

def Fs.InKernel (pool : Nat → PoolFlag) (s : Fs) : Prop := ∀ q ∈ s.openInodes, pool q.1 = .kernel

def PooledFs.InKernel (p : PooledFs) : Prop := p.fs.InKernel p.pool

def PooledFs.Frees (p : PooledFs) : Prop :=
  ∀ q ∈ p.fs.openInodes, ∀ task, ∃ r, (Pooled.asKernel task (Pooled.sysFree task q.1)).run p = .ok r

section Stable

theorem Fs.InKernel.upd {s : Fs} {f : Inode → Inode} (h : s.InKernel pool)
    : (s.updInode addr f).InKernel pool := by
  intro q hq
  have hkey : q.1 ∈ (s.updInode addr f).openInodes.map Prod.fst := List.mem_map_of_mem hq
  rw [Fs.updInode, Assoc.keys_adjust] at hkey
  obtain ⟨q', hq', heq⟩ := List.mem_map.mp hkey
  rw [← heq]
  exact h q' hq'

theorem Fs.InKernel.drop {s : Fs} (h : s.InKernel pool) : (s.dropInode addr).InKernel pool :=
  fun q hq => h q (List.mem_of_mem_filter hq)

theorem stable_inodeClose : Cmd.Stable (Fs.InKernel pool) (RogOS.inodeClose addr) := by
  intro s r hs h
  obtain ⟨ino, -, rfl⟩ := inodeClose_run.mp h
  unfold Fs.closed
  split
  . exact hs.drop
  . exact hs.upd

theorem stable_onVol {x : VolM α} : Cmd.Stable (Fs.InKernel pool) (onVol x) := by
  intro s r hs h
  obtain ⟨v, -, heq⟩ := onVol_run.mp h
  rw [heq]
  exact hs

theorem stable_derefInode : Cmd.Stable (Fs.InKernel pool) (derefInode addr) := by
  intro s r hs h
  obtain ⟨ino, -, rfl⟩ := derefInode_run.mp h
  exact hs

theorem stable_pcbFdInstall {fdIdx : Fin 32}
    : Cmd.Stable (Fs.InKernel pool) (pcbFdInstall task fdIdx) := by
  intro s r hs h
  rw [pcbFdInstall_run.mp h, Fs.installed]
  split
  . exact hs
  . exact hs

theorem fileCreate_inKernel {s : Fs} {parentDir : DirRef} {filename : List UInt8} {r : Int × Fs}
    (hs : s.InKernel pool) (hnew : pool s.newAddr = .kernel)
    (h : (RogOS.fileCreate part task parentDir filename flags).run s = .ok r)
    : r.2.InKernel pool := by
  cases fileCreate_run h with
  | noInode => exact hs
  | noSlot => exact hs
  | noEntry => exact Fs.InKernel.upd hs
  | made =>
    rename_i n _ v' _ ino' fdIdx _ _ _ _ _
    have hcreated : (s.created parentDir fdIdx flags n ino' v').InKernel pool := by
      intro q hq
      obtain rfl | hq := List.mem_cons.mp hq
      . exact hnew
      . exact Fs.InKernel.upd (s := { s.setFile fdIdx ⟨0, flags, some s.newAddr⟩ with vol := v' })
          hs q hq
    unfold Fs.installed
    split
    . exact hcreated
    . exact hcreated

end Stable

namespace Pooled

variable {g : Nat → Bool}

def Kept (g : Nat → Bool) (p : PooledFs) : Prop := p.InKernel ∧ p.pgdir = g

theorem onFs_run {x : FsM α} {r : α × PooledFs}
    : (onFs x).run p = .ok r ↔ ∃ s, x.run p.fs = .ok (r.1, s) ∧ r.2 = { p with fs := s } := by
  unfold onFs
  exact Cmd.zoom_run

theorem stable_onFs {x : FsM α} (hx : ∀ pool, Cmd.Stable (Fs.InKernel pool) x)
    : Cmd.Stable (Kept g) (onFs x) := by
  intro p r hp h
  obtain ⟨s, hrun, heq⟩ := onFs_run.mp h
  rw [heq]
  exact ⟨hx p.pool _ _ hp.1 hrun, hp.2⟩

theorem asKernel_sysMalloc {r : Unit × PooledFs}
    (h : (asKernel task (sysMalloc task addr)).run p = .ok r)
    : r.2 = { p with pool := Function.update p.pool addr .kernel } := by
  simp only [asKernel, sysMalloc, Cmd.bind_run, Cmd.get_run, Cmd.modify_run] at h
  obtain ⟨_, _, h1, _, _, h2, _, _, h3, h4⟩ := h
  cases h1
  cases h2
  cases h3
  rw [h4]
  simp

theorem asKernel_sysFree {r : Unit × PooledFs}
    (h : (asKernel task (sysFree task addr)).run p = .ok r) : r.2 = p := by
  simp only [asKernel, sysFree, Cmd.bind_run, Cmd.get_run, Cmd.modify_run, Cmd.assert_run] at h
  obtain ⟨_, _, h1, _, _, h2, _, _, ⟨_, _, h3, -, h4⟩, h5⟩ := h
  cases h1
  cases h2
  cases h3
  cases h4
  rw [h5]
  simp

theorem opened_keys {s : Fs} {n : UInt32} {q : Nat × Inode}
    (hq : q ∈ (s.opened part n).2.openInodes)
    : q.1 = (s.opened part n).1 ∨ ∃ q' ∈ s.openInodes, q'.1 = q.1 := by
  unfold Fs.opened at hq ⊢
  split at hq
  . right
    have hkey := List.mem_map_of_mem (f := Prod.fst) hq
    rw [Fs.updInode, Assoc.keys_adjust] at hkey
    exact List.mem_map.mp hkey
  . obtain rfl | hq := List.mem_cons.mp hq
    . exact .inl rfl
    . exact .inr ⟨q, hq, rfl⟩

theorem frees_of_inKernel (hp : p.InKernel) : p.Frees := by
  intro q hq task
  refine ⟨((), p), ?_⟩
  simp only [asKernel, sysFree, Cmd.bind_run, Cmd.get_run, Cmd.modify_run, Cmd.assert_run]
  refine ⟨p, p, rfl, (), _, rfl, (), _, ⟨_, _, rfl, fun _ => hp q hq, rfl⟩, ?_⟩
  simp

theorem stable_inodeOpen {n : UInt32} : Cmd.Stable (Kept g) (inodeOpen part task n) := by
  intro p r hp h
  simp only [inodeOpen, Cmd.bind_run, Cmd.get_run, onFs_run, inodeOpen_run] at h
  obtain ⟨_, _, h1, addr, p1, ⟨_, ⟨-, h2⟩, h3⟩, h4⟩ := h
  cases h1
  rw [Prod.ext_iff] at h2
  dsimp only at h2 h3
  obtain ⟨rfl, rfl⟩ := h2
  rw [h3] at h4
  split at h4
  . simp only [Cmd.bind_run, Cmd.pure_run] at h4
    obtain ⟨_, p2, h5, h6⟩ := h4
    have hp2 := asKernel_sysMalloc h5
    dsimp only at hp2
    rw [h6, hp2]
    refine ⟨?_, hp.2⟩
    intro q hq
    dsimp only
    rw [Function.update_apply]
    split
    . rfl
    . next hne =>
      obtain heq | ⟨q', hq', heq⟩ := opened_keys hq
      . exact absurd heq hne
      . rw [← heq]
        exact hp.1 q' hq'
  . next hsome =>
    rw [Cmd.pure_run] at h4
    rw [h4]
    refine ⟨?_, hp.2⟩
    intro q hq
    obtain heq | ⟨q', hq', heq⟩ := opened_keys hq
    . obtain ⟨ino, hino⟩ := Option.ne_none_iff_exists'.mp hsome
      rw [heq]
      exact hp.1 _ (Assoc.mem_of_lookup hino)
    . rw [← heq]
      exact hp.1 q' hq'

theorem stable_inodeClose : Cmd.Stable (Kept g) (inodeClose task addr) := by
  refine Cmd.stable_bind (stable_onFs fun _ => RogOS.stable_inodeClose) fun _ => ?_
  refine Cmd.stable_bind Cmd.stable_get fun p => ?_
  split
  . intro p r hp h
    rw [asKernel_sysFree h]
    exact hp
  . exact Cmd.stable_pure

theorem stable_dirOpen {n : UInt32} : Cmd.Stable (Kept g) (dirOpen part task n) :=
  Cmd.stable_bind stable_inodeOpen fun _ => Cmd.stable_pure

theorem stable_dirClose {dir : DirRef} : Cmd.Stable (Kept g) (dirClose task dir) := by
  cases dir with
  | root => exact Cmd.stable_pure
  | opened addr => exact stable_inodeClose

theorem stable_parseName {q : Option (List UInt8)}
    : Cmd.Stable (Kept g) (RogOS.searchFile.parseName q) := by
  unfold RogOS.searchFile.parseName
  split
  . exact Cmd.stable_pure
  . exact Cmd.stable_bind Cmd.stable_assert fun _ => Cmd.stable_pure

theorem searchFile.stable_go {n : Nat} {c : RogOS.searchFile.Cursor}
    : Cmd.Stable (Kept g) (searchFile.go part task n c) := by
  induction n generalizing c with
  | zero => exact Cmd.stable_throw
  | succ n ih =>
    unfold searchFile.go
    split
    . exact Cmd.stable_bind stable_dirClose fun _ => Cmd.stable_bind stable_dirOpen fun _ =>
        Cmd.stable_pure
    . refine Cmd.stable_bind Cmd.stable_assert fun _ => ?_
      refine Cmd.stable_bind Cmd.stable_assert fun _ => ?_
      refine Cmd.stable_bind Cmd.stable_get fun _ => ?_
      refine Cmd.stable_bind (stable_onFs fun _ => stable_derefInode) fun _ => ?_
      refine Cmd.stable_bind (stable_onFs fun _ => stable_onVol) fun o => ?_
      cases o with
      | none => exact Cmd.stable_pure
      | some dirE =>
        refine Cmd.stable_bind stable_parseName fun ⟨name, subPath⟩ => ?_
        dsimp only
        split
        . exact Cmd.stable_bind stable_dirClose fun _ => Cmd.stable_bind stable_dirOpen fun _ => ih
        . split
          . exact Cmd.stable_pure
          . exact ih

theorem stable_searchFile {chars : List UInt8}
    : Cmd.Stable (Kept g) (searchFile part task junk chars) := by
  unfold searchFile
  split
  . exact Cmd.stable_pure
  . refine Cmd.stable_bind Cmd.stable_assert fun _ => ?_
    exact Cmd.stable_bind stable_parseName fun _ => searchFile.stable_go

theorem stable_fileOpen {n : UInt32} : Cmd.Stable (Kept g) (fileOpen part task n flags) := by
  refine Cmd.stable_bind Cmd.stable_get fun p => ?_
  split
  . exact Cmd.stable_pure
  . refine Cmd.stable_bind stable_inodeOpen fun addr => stable_onFs fun pool => ?_
    refine Cmd.stable_bind (Cmd.stable_modify fun s hs => hs) fun _ => ?_
    split
    . refine Cmd.stable_bind stable_derefInode fun ino => ?_
      split
      . exact Cmd.stable_pure
      . exact Cmd.stable_bind (Cmd.stable_modify fun s hs => hs.upd) fun _ => stable_pcbFdInstall
    . exact stable_pcbFdInstall

theorem stable_fileClose {fdIdx : Fin 32} : Cmd.Stable (Kept g) (fileClose task fdIdx) := by
  refine Cmd.stable_bind Cmd.stable_get fun p => ?_
  split
  . exact Cmd.stable_throw
  . refine Cmd.stable_bind (stable_onFs fun _ => Cmd.stable_modify fun s hs => hs.upd) fun _ => ?_
    exact Cmd.stable_bind stable_inodeClose fun _ => stable_onFs fun _ =>
      Cmd.stable_modify fun s hs => hs

theorem stable_sysClose {fd : Int} : Cmd.Stable (Kept g) (sysClose task fd) := by
  unfold sysClose
  split
  . have hlocal : ∀ pool, Cmd.Stable (Fs.InKernel pool) (fdLocal2Global task fd.toNat) := by
      intro pool
      refine Cmd.stable_bind Cmd.stable_get fun s => ?_
      split
      . dsimp only
        split
        . exact Cmd.stable_pure
        . exact Cmd.stable_throw
      . exact Cmd.stable_throw
    refine Cmd.stable_bind (stable_onFs hlocal) fun _ => ?_
    refine Cmd.stable_bind stable_fileClose fun _ => ?_
    exact Cmd.stable_bind (stable_onFs fun _ => Cmd.stable_modify fun s hs => hs) fun _ =>
      Cmd.stable_pure
  . split
    . exact Cmd.stable_throw
    . exact Cmd.stable_pure

theorem stable_sysOpendir : Cmd.Stable (Kept g) (sysOpendir part task junk path) := by
  refine Cmd.stable_bind Cmd.stable_assert fun _ => ?_
  split
  . exact Cmd.stable_pure
  . refine Cmd.stable_bind stable_searchFile fun ⟨n, rec⟩ => ?_
    dsimp only
    split
    . refine Cmd.stable_bind stable_inodeOpen fun _ => ?_
      refine Cmd.stable_bind stable_dirClose fun _ => ?_
      refine Cmd.stable_bind Cmd.stable_get fun _ => ?_
      exact Cmd.stable_bind (stable_onFs fun _ => Cmd.stable_modify fun s hs => hs) fun _ =>
        Cmd.stable_pure
    . exact Cmd.stable_bind stable_dirClose fun _ => Cmd.stable_pure

theorem stable_sysClosedir {dir : Option DirPtr} : Cmd.Stable (Kept g) (sysClosedir task dir) := by
  unfold sysClosedir
  split
  . exact Cmd.stable_pure
  . exact Cmd.stable_pure
  . refine Cmd.stable_bind Cmd.stable_get fun p => ?_
    split
    . exact Cmd.stable_throw
    . refine Cmd.stable_bind stable_inodeClose fun _ => ?_
      exact Cmd.stable_bind (stable_onFs fun _ => Cmd.stable_modify fun s hs => hs) fun _ =>
        Cmd.stable_pure

end Pooled

section Calls

def PooledFs.Creates (part : Partition) (p : PooledFs) (task : Nat) (junk : UInt32) (path : CStr)
    (flags : UInt8) : Prop :=
  path.chars.getLast? ≠ some 47 ∧ flags &&& oCreat ≠ 0
    ∧ ∃ rec t depth, (Pooled.searchFile part task junk path.chars).run p = .ok ((notFound, rec), t)
        ∧ rec.fileType ≠ .directory ∧ (pathDepthCnt path.chars).run p = .ok (depth, p)
        ∧ (pathDepthCnt rec.searchedPath).run t = .ok (depth, t)

inductive InodeCall where
  | open_ (task : Nat) (junk : UInt32) (pathname : CStr) (flags : UInt8)
  | close (task : Nat) (fd : Int)
  | opendir (task : Nat) (junk : UInt32) (name : CStr)
  | closedir (task : Nat) (dir : Option DirPtr)

def InodeCall.exec (part : Partition) : InodeCall → PooledM Value
  | .open_ task junk pathname flags => do
      pure (.int (← Pooled.sysOpen part task junk pathname flags))
  | .close task fd => do pure (.int (← Pooled.sysClose task fd))
  | .opendir task junk name => do pure (.dir (← Pooled.sysOpendir part task junk name))
  | .closedir task dir => do pure (.int (← Pooled.sysClosedir task dir))

def PooledFs.KernelCreates (part : Partition) (p : PooledFs) : InodeCall → Prop
  | .open_ task junk path flags => p.Creates part task junk path flags → p.pgdir task = false
  | _ => True

theorem Pooled.sysOpen_kept {g : Nat → Bool} {r : Int × PooledFs} (hp : Pooled.Kept g p)
    (hk : p.Creates part task junk path flags → p.pgdir task = false)
    (h : (Pooled.sysOpen part task junk path flags).run p = .ok r) : Pooled.Kept g r.2 := by
  have hclose : ∀ {dir : DirRef} {fd : Int},
      Cmd.Stable (Pooled.Kept g) (do Pooled.dirClose task dir; pure fd) :=
    Cmd.stable_bind Pooled.stable_dirClose fun _ => Cmd.stable_pure
  simp only [Pooled.sysOpen, Cmd.bind_run, Cmd.assert_run] at h
  obtain ⟨_, _, ⟨-, h1⟩, h2⟩ := h
  cases h1
  split at h2
  . exact Cmd.stable_pure p r hp h2
  . next hslash =>
    simp only [Cmd.bind_run, Cmd.assert_run] at h2
    obtain ⟨_, _, ⟨-, h3⟩, depth, p1, h4, ⟨n, rec⟩, p2, h5, h6⟩ := h2
    cases h3
    have hp1 : p1 = p := pathDepthCnt_state h4
    rw [hp1] at h4 h5
    have hp2 : Pooled.Kept g p2 := Pooled.stable_searchFile p _ hp h5
    dsimp only at h6
    split at h6
    . exact hclose p2 r hp2 h6
    . next hdir =>
      simp only [Cmd.bind_run] at h6
      obtain ⟨depth', p3, h7, h8⟩ := h6
      have hp3 : p3 = p2 := pathDepthCnt_state h7
      rw [hp3] at h7 h8
      split at h8
      . exact hclose p2 r hp2 h8
      . next hdepth =>
        split at h8
        . exact hclose p2 r hp2 h8
        . split at h8
          . exact hclose p2 r hp2 h8
          . next hfound =>
            split at h8
            . next hcreat =>
              have hn : n = notFound := by
                by_contra hn
                exact hfound ⟨hn, hcreat⟩
              rw [hn] at h5
              have hkernel : p.pgdir task = false := by
                apply hk
                refine ⟨hslash, hcreat, rec, p2, depth, h5, hdir, h4, ?_⟩
                rw [not_not.mp hdepth]
                exact h7
              simp only [Pooled.fileCreate, Pooled.sysMalloc, Cmd.bind_run, Cmd.get_run,
                Cmd.modify_run, Pooled.onFs_run] at h8
              obtain ⟨filename, p4, h9, fd, p5, ⟨_, _, h10, _, _, h11, s', h12, h13⟩, h14⟩ := h8
              have hp4 : p4 = p2 := lastName_state h9
              rw [hp4] at h10
              cases h10
              cases h11
              refine hclose p5 r ?_ (Cmd.bind_run.mpr h14)
              have hpg : p2.pgdir task = false := by
                rw [hp2.2, ← hp.2, hkernel]
              dsimp only at h12 h13
              rw [hpg] at h13
              rw [h13]
              refine ⟨?_, hp2.2⟩
              have hkernel' : p2.fs.InKernel (Function.update p2.pool p2.fs.newAddr .kernel) := by
                intro q hq
                rw [Function.update_apply]
                split
                . rfl
                . exact hp2.1 q hq
              exact fileCreate_inKernel hkernel' (Function.update_self _ _ _) h12
            . exact Pooled.stable_fileOpen p2 r hp2 h8

def Pooled.Mounted (part : Partition) (v : Vol) (pgdir : Nat → Bool) (p : PooledFs) : Prop :=
  ∃ task pool, (Pooled.openRootDir part task).run ⟨Fs.init v, pgdir, pool⟩ = .ok ((), p)

theorem Pooled.Mounted.kept {v : Vol} {pgdir : Nat → Bool} (hp : Pooled.Mounted part v pgdir p)
    : Pooled.Kept pgdir p := by
  obtain ⟨task, pool, h⟩ := hp
  have hstable : Cmd.Stable (Pooled.Kept pgdir) (Pooled.openRootDir part task) :=
    Cmd.stable_bind Pooled.stable_inodeOpen fun _ => Pooled.stable_onFs fun _ =>
      Cmd.stable_modify fun s hs => hs
  apply hstable _ _ _ h
  refine ⟨?_, rfl⟩
  intro q hq
  contradiction

/-- As long as no process creates a file, every inode is in the heap of the kernel. -/
theorem inKernel_of_reach {v : Vol} {pgdir : Nat → Bool} (hp : Pooled.Mounted part v pgdir p)
    (hr : Cmd.Reach (InodeCall.exec part) (PooledFs.KernelCreates part) p p')
    : p'.InKernel ∧ p'.Frees := by
  have hkept : Pooled.Kept pgdir p' := by
    apply Cmd.Reach.invariant (P := Pooled.Kept pgdir) _ _ hr
    . intro p call x p' hp hcall hrun
      cases call with
      | open_ task junk path flags =>
        rw [InodeCall.exec, Cmd.map_run] at hrun
        obtain ⟨fd, hrun, -⟩ := hrun
        exact Pooled.sysOpen_kept hp hcall hrun
      | close task fd =>
        rw [InodeCall.exec, Cmd.map_run] at hrun
        obtain ⟨_, hrun, -⟩ := hrun
        exact Pooled.stable_sysClose p _ hp hrun
      | opendir task junk name =>
        rw [InodeCall.exec, Cmd.map_run] at hrun
        obtain ⟨_, hrun, -⟩ := hrun
        exact Pooled.stable_sysOpendir p _ hp hrun
      | closedir task dir =>
        rw [InodeCall.exec, Cmd.map_run] at hrun
        obtain ⟨_, hrun, -⟩ := hrun
        exact Pooled.stable_sysClosedir p _ hp hrun
    . exact hp.kept
  exact ⟨hkept.1, Pooled.frees_of_inKernel hkept.1⟩

def smallPgdir : Nat → Bool := fun task => task == 1

def smallPooled
    : PooledFs := Cmd.after (Pooled.openRootDir smallPartition 0) ⟨Fs.init smallFs.vol, smallPgdir,
        fun _ => .user⟩

theorem mounted_smallPooled : Pooled.Mounted smallPartition smallFs.vol smallPgdir smallPooled := by
  obtain ⟨a, hrun, -⟩ := Cmd.run_of_returns (x := Pooled.openRootDir smallPartition 0)
    (s := ⟨Fs.init smallFs.vol, smallPgdir, fun _ => .user⟩) (p := fun _ =>
      true) (by decide +kernel)
  exact ⟨0, fun _ => .user, hrun⟩

theorem inKernel_of_reach_create
    : (Cmd.afterAll (InodeCall.exec smallPartition)
        [.open_ 0 0 pathF 4] smallPooled).fs.openInodes.length = 2
      ∧ (Cmd.afterAll (InodeCall.exec smallPartition) [.open_ 0 0 pathF 4] smallPooled).InKernel
      ∧ (Cmd.afterAll (InodeCall.exec smallPartition) [.open_ 0 0 pathF 4] smallPooled).Frees := by
  refine ⟨by decide +kernel, ?_⟩
  apply inKernel_of_reach mounted_smallPooled
  apply Cmd.reach_of_returnsWhile (k := fun p _ => p.pgdir 0 == false)
  . intro p call hcall hp
    rw [List.mem_singleton.mp hcall]
    intro _
    exact beq_iff_eq.mp hp
  . decide +kernel

instance : Decidable p.InKernel := inferInstanceAs (Decidable (∀ q ∈ p.fs.openInodes, _))

/-- A process creates a file: the inode is in the heap of the process. -/
theorem not_inKernel
    : ¬ ∀ (part : Partition) (v : Vol) (pgdir : Nat → Bool) (p p' : PooledFs),
        Pooled.Mounted part v pgdir p →
        Cmd.Reach (InodeCall.exec part) (fun _ _ => True) p p' → p'.InKernel ∧ p'.Frees := by
  intro h
  have hr : Cmd.Reach (InodeCall.exec smallPartition) (fun _ _ => True) smallPooled
      (Cmd.afterAll (InodeCall.exec smallPartition) [.open_ 1 0 pathF 4] smallPooled) := by
    apply Cmd.reach_of_returnsAll
    . intro call hcall s
      trivial
    . decide +kernel
  have hkernel := (h smallPartition _ smallPgdir smallPooled _ mounted_smallPooled hr).1
  revert hkernel
  decide +kernel

end Calls

end RogOS
