import Mathlib.Algebra.Group.Pi.Basic
import Mathlib.Tactic.Abel
import RogOS.Fs.Impl.HeapCalls
import RogOS.Fs.Lemmas.Calls
import RogOS.Lib.Ledger

/-!
The account of the heap under the file system: the blocks that are allocated and are not the inode
of an entry of `open_inodes`. What each function adds to it, as far as it depends on the result
only.
-/

namespace RogOS

open Cmd

variable {part : Partition} {task addr : Nat} {n : UInt32} {h : HeapedFs} {s : Fs} {b : Block}
  {α β : Type}

def Block.one (b : Block) : Block → ℤ := Pi.single b 1

theorem Block.one_apply {b' : Block} : b.one b' = if b' = b then 1 else 0 := Pi.single_apply b 1 b'

def Fs.opens (s : Fs) : Block → ℤ
  | .inode addr => if (s.inode? addr).isSome then 1 else 0
  | .other _ => 0

def HeapedFs.net (h : HeapedFs) : Block → ℤ := fun b => h.live.count b - h.fs.opens b

def HeapedFs.malloced (h : HeapedFs) (b : Block) : HeapedFs :=
  { h with live := if h.grants 0 then b :: h.live else h.live, grants := fun n => h.grants (n + 1) }

def Heaped.StructDir.owned : Heaped.StructDir → Block → ℤ
  | .root => 0
  | .opened _ block => block.one

section Opens

variable {f : Inode → Inode} {ino : Inode}

theorem Fs.opens_updInode : (s.updInode addr f).opens = s.opens := by
  funext b
  cases b with
  | inode a =>
    simp only [Fs.opens, Fs.inode?_updInode]
    split
    . rw [Option.isSome_map]
    . rfl
  | other => rfl

theorem Fs.opens_pushInode (ha : s.inode? addr = none)
    : (s.pushInode addr ino).opens = s.opens + (Block.inode addr).one := by
  funext b
  rw [Pi.add_apply, Block.one_apply]
  cases b with
  | inode a =>
    simp only [Fs.opens, Fs.inode?_pushInode, Block.inode.injEq]
    by_cases heq : a = addr
    . rw [if_pos heq, if_pos heq, heq, ha]
      rfl
    . rw [if_neg heq, if_neg heq, add_zero]
  | other => simp [Fs.opens]

theorem Fs.opens_dropInode (ha : s.inode? addr = some ino)
    : (s.dropInode addr).opens = s.opens - (Block.inode addr).one := by
  funext b
  rw [Pi.sub_apply, Block.one_apply]
  cases b with
  | inode a =>
    simp only [Fs.opens, Fs.inode?_dropInode, Block.inode.injEq]
    by_cases heq : a = addr
    . rw [if_pos heq, if_pos heq, heq, ha]
      rfl
    . rw [if_neg heq, if_neg heq, sub_zero]
  | other => simp [Fs.opens]

theorem opens_onVol {x : VolM α} : Cmd.Keeps Fs.opens (onVol x) := by
  intro s r hr
  obtain ⟨v, -, heq⟩ := onVol_run.mp hr
  rw [heq]
  rfl

theorem opens_derefInode : Cmd.Keeps Fs.opens (derefInode addr) := by
  intro s r hr
  obtain ⟨ino, -, rfl⟩ := derefInode_run.mp hr
  rfl

theorem opens_onInode {f : Inode → VolM (α × Inode)} : Cmd.Keeps Fs.opens (onInode addr f) := by
  intro s r hr
  obtain ⟨ino, ino', v, -, -, heq⟩ := onInode_run.mp hr
  rw [heq, Fs.opens_updInode]
  rfl

theorem opens_setFile {fdIdx : Fin 32} {file : File}
    : Cmd.Keeps Fs.opens (modify fun s => s.setFile fdIdx file : FsM Unit) :=
  keeps_modify fun _ => rfl

theorem opens_pcbFdInstall {fdIdx : Fin 32} : Cmd.Keeps Fs.opens (pcbFdInstall task fdIdx) := by
  intro s r hr
  rw [pcbFdInstall_run.mp hr, Fs.installed]
  split <;> rfl

theorem opens_fdLocal2Global {fd : Nat} : Cmd.Keeps Fs.opens (fdLocal2Global task fd) := by
  unfold fdLocal2Global
  apply keeps_bind keeps_get
  intro s
  split
  . dsimp only
    split
    . exact keeps_pure
    . exact keeps_throw
  . exact keeps_throw

theorem opens_fileInUse {l : List (Fin 32)} : Cmd.Keeps Fs.opens (fileInUse n l) := by
  induction l with
  | nil => exact keeps_pure
  | cons fileIdx rest ih =>
    unfold fileInUse
    apply keeps_bind keeps_get
    intro s
    split
    . exact ih
    . apply keeps_bind opens_derefInode
      intro inode
      split
      . exact keeps_pure
      . exact ih

theorem opens_writeFile {fdIdx : Fin 32} {buf : Mem} {count : UInt32}
    : Cmd.Keeps Fs.opens (writeFile part fdIdx buf count) := by
  unfold writeFile
  apply keeps_bind keeps_get
  intro s
  split
  . exact keeps_throw
  . apply keeps_bind opens_onInode
    intro r
    exact keeps_bind (keeps_modify fun _ => rfl) fun _ => keeps_pure

theorem opens_readFile {fdIdx : Fin 32} {buf : Mem} {count : UInt32}
    : Cmd.Keeps Fs.opens (readFile fdIdx buf count) := by
  unfold readFile
  apply keeps_bind keeps_get
  intro s
  split
  . exact keeps_throw
  . apply keeps_bind opens_derefInode
    intro inode
    apply keeps_bind opens_onVol
    intro r
    exact keeps_bind (keeps_modify fun _ => rfl) fun _ => keeps_pure

end Opens

namespace Heaped

section Run

theorem onFs_run {x : FsM α} {r : α × HeapedFs}
    : (onFs x).run h = .ok r ↔ ∃ s, x.run h.fs = .ok (r.1, s) ∧ r.2 = { h with fs := s } := by
  unfold onFs
  exact zoom_run

theorem sysMallocAt_run {r : Option Block × HeapedFs}
    : (sysMallocAt b).run h = .ok r ↔ r = (if h.grants 0 then some b else none, h.malloced b) := by
  simp only [sysMallocAt, bind_run, get_run, modify_run, pure_run]
  constructor
  . rintro ⟨_, _, h1, _, _, h2, h3⟩
    cases h1
    cases h2
    exact h3
  . intro hr
    exact ⟨h, h, rfl, (), _, rfl, hr⟩

theorem sysMalloc_run {r : Option Block × HeapedFs}
    : sysMalloc.run h = .ok r
        ↔
      r = (if h.grants 0 then some h.newBlock else none, h.malloced h.newBlock) := by
  simp only [sysMalloc, bind_run, get_run, sysMallocAt_run]
  constructor
  . rintro ⟨_, _, h1, h2⟩
    cases h1
    exact h2
  . intro hr
    exact ⟨h, h, rfl, hr⟩

theorem deref_run {ptr : Option Block} {r : Block × HeapedFs}
    : (deref ptr).run h = .ok r ↔ ptr = some r.1 ∧ r.2 = h := by
  cases ptr with
  | none => exact iff_of_false throw_run fun hr => by simpa using hr.1
  | some block =>
    rw [deref, pure_run, Prod.ext_iff, Option.some.injEq, eq_comm (a := r.1)]

theorem mustMallocAt_run {r : Block × HeapedFs}
    : (mustMallocAt b).run h = .ok r ↔ h.grants 0 = true ∧ r = (b, h.malloced b) := by
  simp only [mustMallocAt, bind_run, sysMallocAt_run, deref_run]
  constructor
  . rintro ⟨_, _, h1, h2, h3⟩
    rw [Prod.mk.injEq] at h1
    rw [h1.1] at h2
    split at h2
    . next hgrant =>
      rw [Option.some.injEq] at h2
      exact ⟨hgrant, Prod.ext h2.symm (h3.trans h1.2)⟩
    . contradiction
  . rintro ⟨hgrant, rfl⟩
    exact ⟨_, _, rfl, if_pos hgrant, rfl⟩

theorem mustMalloc_run {r : Block × HeapedFs}
    : mustMalloc.run h = .ok r ↔ h.grants 0 = true ∧ r = (h.newBlock, h.malloced h.newBlock) := by
  rw [← mustMallocAt_run]
  simp only [mustMalloc, mustMallocAt, bind_run, sysMalloc_run, sysMallocAt_run]

theorem sysFree_run {r : Unit × HeapedFs}
    : (sysFree b).run h = .ok r ↔ b ∈ h.live ∧ r = ((), { h with live := h.live.erase b }) := by
  simp only [sysFree, bind_run, get_run, assert_run, modify_run]
  constructor
  . rintro ⟨_, _, h1, _, _, ⟨hmem, h2⟩, h3⟩
    cases h1
    cases h2
    exact ⟨hmem, h3⟩
  . rintro ⟨hmem, hr⟩
    exact ⟨h, h, rfl, (), h, ⟨hmem, rfl⟩, hr⟩

end Run

section Net

theorem net_setFs {s' : Fs}
    : HeapedFs.net { h with fs := s' } = h.net + (h.fs.opens - s'.opens) := by
  funext b
  simp only [HeapedFs.net, Pi.add_apply, Pi.sub_apply]
  omega

theorem net_malloced : (h.malloced b).net = h.net + if h.grants 0 then b.one else 0 := by
  funext b'
  rw [Pi.add_apply, HeapedFs.malloced, HeapedFs.net]
  cases h.grants 0 with
  | false => simp [HeapedFs.net]
  | true =>
    simp only [↓reduceIte, HeapedFs.net, List.count_cons, Block.one_apply, beq_iff_eq,
      eq_comm (a := b)]
    split <;> push_cast <;> omega

theorem net_freed (hb : b ∈ h.live)
    : HeapedFs.net { h with live := h.live.erase b } = h.net - b.one := by
  funext b'
  have hpos : 0 < h.live.count b := List.count_pos_iff.mpr hb
  simp only [HeapedFs.net, Pi.sub_apply, Block.one_apply, List.count_erase, beq_iff_eq,
    eq_comm (a := b)]
  split
  . next heq =>
    rw [heq]
    omega
  . omega

theorem moves_onFs {x : FsM α} (hx : Cmd.Keeps Fs.opens x)
    : Moves HeapedFs.net (onFs x) fun _ => 0 := by
  apply moves_of_keeps
  intro h r hr
  obtain ⟨s, hrun, heq⟩ := onFs_run.mp hr
  have hopens : s.opens = h.fs.opens := hx _ _ hrun
  rw [heq, net_setFs, hopens, sub_self, add_zero]

theorem moves_sysMallocAt
    : Moves HeapedFs.net (sysMallocAt b) fun o => o.elim 0 fun _ => b.one := by
  intro h r hr
  rw [sysMallocAt_run.mp hr, net_malloced]
  dsimp only
  split <;> rfl

theorem moves_sysMalloc : Moves HeapedFs.net sysMalloc fun o => o.elim 0 Block.one := by
  intro h r hr
  rw [sysMalloc_run.mp hr, net_malloced]
  dsimp only
  split <;> rfl

theorem moves_deref {ptr : Option Block}
    : Moves HeapedFs.net (deref ptr) fun b => b.one - ptr.elim 0 Block.one := by
  cases ptr with
  | none => exact moves_throw
  | some block => exact moves_pure (sub_self _)

theorem moves_mustMalloc : Moves HeapedFs.net mustMalloc Block.one :=
  moves_bind moves_sysMalloc fun _ => moves_deref

theorem moves_sysFree : Moves HeapedFs.net (sysFree b) fun _ => -b.one := by
  intro h r hr
  obtain ⟨hb, rfl⟩ := sysFree_run.mp hr
  rw [net_freed hb, sub_eq_add_neg]

end Net

section Dir

theorem net_opened (hfind : h.fs.find? n = none)
    : HeapedFs.net { h with fs := (h.fs.opened part n).2 }
        = h.net - (Block.inode h.fs.newAddr).one := by
  rw [net_setFs, Fs.opened, hfind]
  dsimp only
  rw [Fs.opens_pushInode Fs.inode?_newAddr, sub_add_cancel_left, sub_eq_add_neg]

theorem moves_inodeOpen : Moves HeapedFs.net (inodeOpen part n) fun _ => 0 := by
  intro h r hr
  simp only [inodeOpen, bind_run, get_run] at hr
  obtain ⟨_, _, h1, hr⟩ := hr
  cases h1
  rw [← Fs.find?] at hr
  cases hfind : h.fs.find? n with
  | some p =>
    rw [hfind] at hr
    obtain ⟨s, hrun, heq⟩ := onFs_run.mp hr
    have hs : s = (h.fs.opened part n).2 := congrArg Prod.snd (inodeOpen_run.mp hrun).2
    rw [heq, net_setFs, hs, Fs.opened, hfind]
    dsimp only
    rw [Fs.opens_updInode, sub_self]
  | none =>
    rw [hfind] at hr
    simp only [bind_run, pure_run, mustMallocAt_run, mustMalloc_run, onFs_run, inodeOpen_run,
      sysFree_run] at hr
    obtain ⟨_, _, ⟨hgrant, h1⟩, inodeBuf, h2, ⟨hgrant', h3⟩, a, h4, ⟨s, ⟨-, hs⟩, h5⟩, _, _,
        ⟨hmem, h6⟩, hr⟩ := hr
    cases h1
    cases h6
    rw [Prod.mk.injEq] at h3
    -- the inode and `inode_buf` are allocated
    have hfs : h2.fs = h.fs := by rw [h3.2]; rfl
    have hnet : h2.net = h.net + (Block.inode h.fs.newAddr).one + inodeBuf.one := by
      rw [h3.1, h3.2, net_malloced, if_pos hgrant', net_malloced, if_pos hgrant]
    have hopen := @net_opened part n h2 (by rw [hfs]; exact hfind)
    rw [← hs] at hopen
    rw [hr, net_freed hmem, h5, hopen, hnet, hfs]
    abel

theorem moves_inodeClose : Moves HeapedFs.net (inodeClose addr) fun _ => 0 := by
  intro h r hr
  simp only [inodeClose, bind_run, get_run, onFs_run, inodeClose_run] at hr
  obtain ⟨_, _, ⟨s, ⟨ino, hino, heq⟩, h1⟩, _, _, h2, hr⟩ := hr
  cases h2
  rw [Prod.mk.injEq] at heq
  rw [h1, heq.2] at hr
  dsimp only at hr
  rw [add_zero]
  unfold Fs.closed at hr
  split at hr
  . -- the last one to close it
    rw [if_pos (by rw [Fs.inode?_dropInode, if_pos rfl])] at hr
    obtain ⟨hmem, rfl⟩ := sysFree_run.mp hr
    have hnet := net_freed (h := { h with fs := h.fs.dropInode addr }) hmem
    rw [hnet, net_setFs, Fs.opens_dropInode hino, sub_sub_cancel, add_sub_cancel_right]
  . rw [if_neg (by simp [Fs.inode?_updInode, hino])] at hr
    rw [pure_run] at hr
    rw [hr, net_setFs, Fs.opens_updInode, sub_self, add_zero]

theorem moves_inodeRelease : Moves HeapedFs.net (inodeRelease part n) fun _ => 0 := by
  apply moves_seq moves_inodeOpen
  intro addr
  apply moves_seq (moves_onFs opens_derefInode)
  intro inode
  apply moves_bind moves_mustMalloc
  intro ioBuf
  apply moves_seq (moves_onFs opens_onVol)
  intro _
  apply moves_bind moves_sysFree
  intro _
  apply moves_inodeClose.congr
  intro _
  abel

theorem moves_dirOpen : Moves HeapedFs.net (dirOpen part n) StructDir.owned := by
  apply moves_bind moves_mustMalloc
  intro pdir
  apply moves_seq moves_inodeOpen
  intro addr
  exact moves_pure (sub_self _)

theorem moves_dirClose {dir : StructDir}
    : Moves HeapedFs.net (dirClose dir) fun _ => -dir.owned := by
  cases dir with
  | root => exact moves_pure neg_zero
  | opened addr block => exact moves_seq moves_inodeClose fun _ => moves_sysFree

theorem moves_dirClose_pure {dir : StructDir} {a : α}
    : Moves HeapedFs.net (do dirClose dir; pure a) fun _ => -dir.owned :=
  moves_bind moves_dirClose fun _ => moves_pure (sub_self _)

theorem moves_searchDirEntry {inode : Inode} {name : List UInt8}
    : Moves HeapedFs.net (searchDirEntry part inode name) fun _ => 0 := by
  apply moves_bind moves_sysMalloc
  intro o
  cases o with
  | none => exact moves_pure (sub_self _)
  | some allBlocks =>
    apply moves_bind moves_mustMalloc
    intro buf
    apply moves_seq (moves_onFs opens_onVol)
    intro dirE
    apply moves_bind moves_sysFree
    intro _
    apply moves_bind moves_sysFree
    intro _
    apply moves_pure
    dsimp only [Option.elim_some]
    abel

theorem keeps_parseName {γ : Type} {f : HeapedFs → γ} {subPath : Option (List UInt8)}
    : Cmd.Keeps f (RogOS.searchFile.parseName subPath) := by
  cases subPath with
  | none => exact keeps_pure
  | some p => exact keeps_bind keeps_assert fun _ => keeps_pure

theorem keeps_createDirEntry {γ : Type} {f : HeapedFs → γ} {name : List UInt8} {ty : FileType}
    : Cmd.Keeps f (createDirEntry name n ty) :=
  keeps_bind keeps_assert fun _ => keeps_pure

theorem searchFile.moves_go {fuel : Nat} {c : searchFile.Cursor}
    : Moves HeapedFs.net (searchFile.go part fuel c) fun r =>
        r.2.parentDir.owned - c.parentDir.owned := by
  induction fuel generalizing c with
  | zero => exact moves_throw
  | succ fuel ih =>
    unfold searchFile.go
    split
    . -- the path is used up
      apply moves_bind moves_dirClose
      intro _
      apply moves_bind moves_dirOpen
      intro parentDir
      apply moves_pure
      abel
    . apply moves_assert_bind
      apply moves_assert_bind
      apply moves_get_bind
      intro h
      apply moves_seq (moves_onFs opens_derefInode)
      intro parent
      apply moves_seq moves_searchDirEntry
      intro o
      cases o with
      | none => exact moves_pure (sub_self _)
      | some dirE =>
        apply moves_seq (moves_of_keeps keeps_parseName)
        rintro ⟨name, subPath⟩
        dsimp only
        split
        . apply moves_bind moves_dirClose
          intro _
          apply moves_bind moves_dirOpen
          intro parentDir
          apply ih.congr
          intro r
          abel
        . split
          . exact moves_pure (sub_self _)
          . exact ih

theorem moves_searchFile {junk : UInt32} {path : List UInt8}
    : Moves HeapedFs.net (searchFile part junk path) fun r => r.2.parentDir.owned := by
  unfold searchFile
  split
  . exact moves_pure rfl
  . apply moves_assert_bind
    apply moves_seq (moves_of_keeps keeps_parseName)
    rintro ⟨name, subPath⟩
    apply searchFile.moves_go.congr
    intro r
    exact sub_zero _

end Dir

section File

variable {fdIdx : Fin 32} {flag : UInt8} {dir : StructDir} {buf : Mem} {count : UInt32}

theorem moves_fileOpen : Moves HeapedFs.net (fileOpen part task n flag) fun _ => 0 := by
  apply moves_get_bind
  intro h
  split
  . exact moves_pure rfl
  . apply moves_seq moves_inodeOpen
    intro addr
    apply moves_onFs
    refine keeps_bind (keeps_modify fun _ => rfl) fun _ => ?_
    split
    . apply keeps_bind opens_derefInode
      intro inode
      split
      . exact keeps_pure
      . apply keeps_bind (keeps_modify fun _ => Fs.opens_updInode)
        intro _
        exact opens_pcbFdInstall
    . exact opens_pcbFdInstall

theorem inodeBitmapAlloc_isSome : Yields (inodeBitmapAlloc part) fun o => o.isSome = true := by
  intro v r hr
  simp only [inodeBitmapAlloc, bind_run, pure_run] at hr
  obtain ⟨o, v1, h1, h2⟩ := hr
  obtain ⟨b, rfl, -⟩ := bitAlloc_run h1
  rw [h2]
  rfl

theorem yields_onVol {x : VolM α} {P : α → Prop} (hx : Yields x P) : Yields (onVol x) P := by
  intro s r hr
  obtain ⟨v, hrun, -⟩ := onVol_run.mp hr
  exact hx _ _ hrun

theorem yields_onFs {x : FsM α} {P : α → Prop} (hx : Yields x P) : Yields (onFs x) P := by
  intro h r hr
  obtain ⟨s, hrun, -⟩ := onFs_run.mp hr
  exact hx _ _ hrun

def Vacant (addr : Nat) (h : HeapedFs) : Prop := h.fs.opens (.inode addr) = 0

theorem vacant_newAddr : Vacant h.fs.newAddr h := by
  simp [Vacant, Fs.opens, Fs.inode?_newAddr]

theorem movesFrom_onFs_seq {x : FsM α} {f : α → HeapedM β} {k : β → Block → ℤ}
    (hx : Cmd.Keeps Fs.opens x) (hf : ∀ a, MovesFrom (Vacant addr) HeapedFs.net (f a) k)
    : MovesFrom (Vacant addr) HeapedFs.net (onFs x >>= f) k := by
  refine movesFrom_seq ?_ (moves_onFs hx) hf
  intro h r hh hr
  obtain ⟨s, hrun, heq⟩ := onFs_run.mp hr
  rw [Vacant, heq]
  dsimp only
  rw [hx _ _ hrun]
  exact hh

theorem stable_sysMallocAt : Stable (Vacant addr) (sysMallocAt b) := by
  intro h r hh hr
  rw [sysMallocAt_run.mp hr]
  exact hh

theorem moves_push {ino : Inode} : MovesFrom (Vacant addr) HeapedFs.net
    (onFs (modify fun s => s.pushInode addr ino)) fun _ => -(Block.inode addr).one := by
  intro h r hh hr
  obtain ⟨s, hrun, heq⟩ := onFs_run.mp hr
  have hs : s = h.fs.pushInode addr ino := congrArg Prod.snd (modify_run.mp hrun)
  have hnone : h.fs.inode? addr = none := by
    simp only [Vacant, Fs.opens] at hh
    split at hh
    . contradiction
    . next hnone => simpa using hnone
  rw [heq, net_setFs, hs, Fs.opens_pushInode hnone, sub_add_cancel_left]

theorem movesFrom_created {a : Nat} {ioBuf : Block} {ino : Inode}
    : MovesFrom (Vacant addr) HeapedFs.net (do
        onFs do
          let parent ← derefInode a
          onVol (inodeSync part 1024 parent)
          onVol (inodeSync part 1024 (inodeInit n))
          onVol (bitmapSync part n.toNat .inode)
        onFs (modify fun s => s.pushInode addr ino)
        sysFree ioBuf
        onFs (pcbFdInstall task fdIdx)) fun _ => -(Block.inode addr).one - ioBuf.one := by
  apply movesFrom_onFs_seq
  . apply keeps_bind opens_derefInode
    intro parent
    exact keeps_bind opens_onVol fun _ => keeps_bind opens_onVol fun _ => opens_onVol
  . intro _
    apply movesFrom_last moves_push
    intro _
    apply moves_bind moves_sysFree
    intro _
    apply (moves_onFs opens_pcbFdInstall).congr
    intro _
    abel

theorem moves_fileCreate {filename : List UInt8}
    : Moves HeapedFs.net (fileCreate part task dir filename flag) fun _ => 0 := by
  apply moves_bind moves_sysMalloc
  intro o
  cases o with
  | none => exact moves_pure (sub_self _)
  | some ioBuf =>
    apply moves_seq_of_yields (moves_onFs opens_onVol)
      (yields_onFs (yields_onVol inodeBitmapAlloc_isSome))
    rintro (_ | inodeNo) hsome
    . contradiction
    . apply moves_get_bind_from (Q := fun s => Vacant s.fs.newAddr) fun _ => vacant_newAddr
      intro s
      apply movesFrom_bind stable_sysMallocAt moves_sysMallocAt
      intro o
      cases o with
      | none =>
        apply Moves.movesFrom
        apply moves_seq (moves_onFs opens_onVol)
        intro _
        apply moves_bind moves_sysFree
        intro _
        apply moves_pure
        dsimp only [Option.elim_none, Option.elim_some]
        abel
      | some _ =>
        dsimp only
        split
        . apply Moves.movesFrom
          apply moves_bind moves_sysFree
          intro _
          apply moves_seq (moves_onFs opens_onVol)
          intro _
          apply moves_bind moves_sysFree
          intro _
          apply moves_pure
          dsimp only [Option.elim_some]
          abel
        . apply movesFrom_onFs_seq opens_setFile
          intro _
          apply movesFrom_seq (stable_of_keeps keeps_createDirEntry)
            (moves_of_keeps keeps_createDirEntry)
          intro newDirEntry
          apply movesFrom_onFs_seq opens_onInode
          intro ok
          split
          . apply movesFrom_created.congr
            intro _
            dsimp only [Option.elim_some]
            abel
          . apply Moves.movesFrom
            apply moves_seq (moves_onFs opens_setFile)
            intro _
            apply moves_bind moves_sysFree
            intro _
            apply moves_seq (moves_onFs opens_onVol)
            intro _
            apply moves_bind moves_sysFree
            intro _
            apply moves_pure
            dsimp only [Option.elim_some]
            abel

theorem moves_fileClose : Moves HeapedFs.net (fileClose fdIdx) fun _ => 0 := by
  apply moves_get_bind
  intro h
  split
  . exact moves_throw
  . apply moves_seq (moves_onFs (keeps_modify fun _ => Fs.opens_updInode))
    intro _
    apply moves_seq moves_inodeClose
    intro _
    exact moves_onFs (keeps_modify fun _ => rfl)

theorem moves_dirRemove : Moves HeapedFs.net (dirRemove part dir addr) fun _ => 0 := by
  apply moves_seq (moves_onFs opens_derefInode)
  intro child
  apply moves_assert_bind
  apply moves_bind moves_sysMalloc
  intro o
  cases o with
  | none => exact moves_pure (sub_self _)
  | some ioBuf =>
    apply moves_get_bind
    intro h
    apply moves_seq (moves_onFs opens_onInode)
    intro _
    apply moves_seq moves_inodeRelease
    intro _
    apply moves_bind moves_sysFree
    intro _
    apply moves_pure
    dsimp only [Option.elim_some]
    abel

theorem moves_getParentDirInodeNr : Moves HeapedFs.net (getParentDirInodeNr part n) fun _ => 0 := by
  apply moves_seq moves_inodeOpen
  intro addr
  apply moves_seq (moves_onFs opens_derefInode)
  intro childDirInode
  apply moves_assert_bind
  apply moves_seq moves_inodeClose
  intro _
  apply moves_seq (moves_onFs opens_onVol)
  intro ioBuf
  apply moves_assert_bind
  exact moves_pure rfl

theorem moves_getChildDirName {c : UInt32} {path : List UInt8}
    : Moves HeapedFs.net (getChildDirName part n c path) fun _ => 0 := by
  apply moves_seq moves_inodeOpen
  intro addr
  apply moves_seq (moves_onFs opens_derefInode)
  intro parentDirInode
  apply moves_seq (moves_onFs opens_onVol)
  intro blocks
  apply moves_seq moves_inodeClose
  intro _
  exact moves_onFs opens_onVol

theorem moves_climb {fuel : Nat} {path : List UInt8}
    : Moves HeapedFs.net (sysGetcwd.climb part fuel n path) fun _ => 0 := by
  induction fuel generalizing n path with
  | zero => exact moves_throw
  | succ fuel ih =>
    unfold sysGetcwd.climb
    split
    . exact moves_pure rfl
    . apply moves_seq moves_getParentDirInodeNr
      intro parentInodeNr
      apply moves_seq moves_getChildDirName
      intro o
      cases o with
      | none => exact moves_pure rfl
      | some fullPathReverse => exact ih

end File

end Heaped

end RogOS
