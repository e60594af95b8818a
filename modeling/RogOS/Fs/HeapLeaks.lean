import RogOS.Fs.DescriptorArgs
import RogOS.Fs.Lemmas.HeapSearch
import RogOS.Fs.PathResolution

/-!
Which system calls give back the memory that they allocate, and when.
-/

namespace RogOS

open Cmd

variable {part : Partition} {task : Nat} {n : UInt32} {h : HeapedFs} {junk : UInt32} {path : CStr}
  {flags : UInt8}
  {fd : Int} {α : Type} {g : Fin 32} {buf : Mem} {count : UInt32} {ino : Inode}
  {alloc : VolM (Option UInt32)}

def HeapedFs.OneOfTwo (h : HeapedFs) : Prop := h.grants 0 = true ∧ h.grants 1 = false

theorem not_oneOfTwo (hh : h.grants 0 = false ∨ h.grants 1 = true) : ¬ h.OneOfTwo := by
  rintro ⟨h0, h1⟩
  rw [h0, h1] at hh
  simp at hh

instance : Decidable (h.OneOfTwo) := inferInstanceAs (Decidable (_ ∧ _))

def Fs.AtEnd (s : Fs) (g : Fin 32) (ino : Inode) (count : UInt32) : Prop :=
  ino.iSize < (s.fileTable g).fdPos + count ∧ ino.iSize - (s.fileTable g).fdPos = 0

instance {s : Fs} : Decidable (s.AtEnd g ino count) := inferInstanceAs (Decidable (_ ∧ _))

section Blocks

/-! `file_write` returns early for want of a block only, which `bitmap_scan` does not report. -/

theorem blockBitmapAlloc_isSome : Yields (blockBitmapAlloc part) fun o => o.isSome = true := by
  intro v r hr
  obtain ⟨b, -, rfl⟩ := blockBitmapAlloc_run.mp hr
  rfl

theorem firstBlock_yields (ha : Yields alloc fun o => o.isSome = true)
    : Yields (fileWrite.firstBlock part alloc ino) fun r => r.1 = true := by
  unfold fileWrite.firstBlock
  split
  . refine yields_bind ha ?_
    rintro (_ | lba) hsome
    . contradiction
    . exact yields_seq fun _ => yields_seq fun _ => yields_pure rfl
  . exact yields_pure rfl

theorem allocBlocks_yields (ha : Yields alloc fun o => o.isSome = true) {k i : Nat}
    {blocks : Nat → UInt32}
    : Yields (fileWrite.allocBlocks part alloc k i blocks ino) fun r => r.1 = true := by
  induction k generalizing i blocks ino with
  | zero => exact yields_pure rfl
  | succ k ih =>
    refine yields_bind ha ?_
    rintro (_ | lba) hsome
    . contradiction
    . dsimp only
      split
      . exact yields_seq fun _ => yields_seq fun _ => ih
      . exact yields_seq fun _ => ih

theorem collect_yields (ha : Yields alloc fun o => o.isSome = true) {hasUsed willUse : UInt32}
    : Yields (fileWrite.collect part alloc hasUsed willUse ino) fun r => r.1 = true := by
  unfold fileWrite.collect
  dsimp only
  split
  . split
    . exact yields_pure rfl
    . exact yields_seq fun _ => yields_seq fun _ => yields_pure rfl
  . split
    . exact yields_seq fun _ => yields_seq fun _ => allocBlocks_yields ha
    . split
      . refine yields_bind ha ?_
        rintro (_ | lba) hsome
        . contradiction
        . apply yields_seq
          intro _
          refine yields_bind (allocBlocks_yields ha) ?_
          rintro ⟨_ | _, blocks, inode⟩ hok
          . contradiction
          . exact yields_seq fun _ => yields_pure rfl
      . apply yields_seq
        intro _
        apply yields_seq
        intro blocks
        refine yields_bind (allocBlocks_yields ha) ?_
        rintro ⟨_ | _, blocks, inode⟩ hok
        . contradiction
        . exact yields_seq fun _ => yields_pure rfl

theorem fileWrite_yields {fdPos : UInt32} (hsize : ¬ 512 * 140 < ino.iSize + count)
    : Yields (fileWrite part fdPos ino buf count) fun r => r.1 ≠ -1 := by
  unfold fileWrite fileWriteWith
  rw [if_neg hsize]
  refine yields_bind (firstBlock_yields blockBitmapAlloc_isSome) ?_
  rintro ⟨_ | _, inode⟩ hok
  . contradiction
  . dsimp only
    apply yields_seq
    intro _
    refine yields_bind (collect_yields blockBitmapAlloc_isSome) ?_
    rintro ⟨_ | _, blocks, inode⟩ hok
    . contradiction
    . apply yields_seq
      intro c
      apply yields_seq
      intro _
      apply yields_pure
      dsimp only
      omega

theorem writeFile_ne {s : Fs} {addr : Nat} (haddr : (s.fileTable g).fdInode = some addr)
    (hino : s.inode? addr = some ino) (hsize : ¬ 512 * 140 < ino.iSize + count) {r : Int × Fs}
    (hr : (writeFile part g buf count).run s = .ok r)
    : r.1 ≠ -1 := by
  simp only [writeFile, bind_run, get_run] at hr
  obtain ⟨_, _, h1, hr⟩ := hr
  cases h1
  rw [haddr] at hr
  simp only [bind_run, onInode_run, modify_run, pure_run] at hr
  obtain ⟨x, _, ⟨i, _, _, hi, ⟨y, _, hwrite, hx⟩, -⟩, _, _, -, hr⟩ := hr
  rw [hino, Option.some.injEq] at hi
  rw [← hi] at hwrite
  rw [hr]
  rw [Prod.mk.injEq, Prod.mk.injEq] at hx
  rw [hx.1.1]
  exact fileWrite_yields hsize _ _ hwrite

end Blocks

namespace Heaped

section Moves

variable {γ : Type} {f : HeapedFs → γ} {p : List UInt8}

theorem keeps_pathDepthCnt : Cmd.Keeps f (pathDepthCnt p) := by
  intro h r hr
  rw [pathDepthCnt_state hr]

theorem keeps_lastName : Cmd.Keeps f (lastName p) := by
  intro h r hr
  rw [lastName_state hr]

theorem keeps_turn {size fuel : Nat} {buf : List UInt8}
    : Cmd.Keeps f (RogOS.sysGetcwd.turn size fuel p buf) := by
  induction fuel generalizing p buf with
  | zero => exact keeps_throw
  | succ fuel ih =>
    unfold RogOS.sysGetcwd.turn
    split
    . exact keeps_pure
    . exact keeps_bind keeps_assert fun _ => ih

theorem moves_sysFree_pure {b : Block} {a : α}
    : Moves HeapedFs.net (do sysFree b; pure a) fun _ => -b.one :=
  moves_bind moves_sysFree fun _ => moves_pure (sub_self _)

theorem moves_sysFree_sysFree {b b' : Block} {a : α}
    : Moves HeapedFs.net (do sysFree b'; sysFree b; pure a) fun _ => -b'.one - b.one := by
  apply moves_bind moves_sysFree
  intro _
  apply moves_sysFree_pure.congr
  intro _
  abel

theorem moves_sysClose : Moves HeapedFs.net (sysClose task fd) fun _ => 0 := by
  unfold sysClose
  split
  . apply moves_seq (moves_onFs opens_fdLocal2Global)
    intro globalFd
    apply moves_seq moves_fileClose
    intro _
    refine moves_seq (moves_onFs (keeps_modify fun _ => rfl)) fun _ => ?_
    exact moves_pure rfl
  . split
    . exact moves_throw
    . exact moves_pure rfl

theorem moves_dirClose_found {dir : StructDir} {a : α}
    : Moves HeapedFs.net (do dirClose dir; pure a) fun _ => 0 - dir.owned := by
  apply moves_dirClose_pure.congr
  intro _
  exact (zero_sub _).symm

theorem moves_sysUnlink : Moves HeapedFs.net (sysUnlink part junk path) fun _ => 0 := by
  apply moves_assert_bind
  apply moves_bind moves_searchFile
  rintro ⟨inodeNo, rec⟩
  apply moves_assert_bind
  dsimp only
  split
  . exact moves_dirClose_found
  . split
    . exact moves_dirClose_found
    . apply moves_seq (moves_onFs opens_fileInUse)
      intro inUse
      split
      . exact moves_dirClose_found
      . apply moves_bind moves_sysMalloc
        intro o
        cases o with
        | none =>
          apply moves_dirClose_pure.congr
          intro _
          simp
        | some ioBuf =>
          apply moves_get_bind
          intro h
          apply moves_seq (moves_onFs opens_onInode)
          intro _
          apply moves_seq moves_inodeRelease
          intro _
          apply moves_bind moves_sysFree
          intro _
          apply moves_dirClose_pure.congr
          intro _
          dsimp only [Option.elim_some]
          abel

theorem moves_sysMkdir : Moves HeapedFs.net (sysMkdir part junk path) fun _ => 0 := by
  apply moves_bind moves_sysMalloc
  intro o
  cases o with
  | none => exact moves_pure (sub_self _)
  | some ioBuf =>
    have hundo {dir : StructDir} {a : Int} :
        Moves HeapedFs.net (do dirClose dir; sysFree ioBuf; pure a)
        fun _ => 0 - ioBuf.one - dir.owned := by
      apply moves_bind moves_dirClose
      intro _
      apply moves_bind moves_sysFree
      intro _
      apply moves_pure
      abel
    apply moves_bind moves_searchFile
    rintro ⟨inodeNo, rec⟩
    dsimp only [Option.elim_some]
    split
    . exact hundo
    . apply moves_seq (moves_of_keeps keeps_pathDepthCnt)
      intro pathnameDepth
      apply moves_seq (moves_of_keeps keeps_pathDepthCnt)
      intro pathSearchedDepth
      split
      . exact hundo
      . apply moves_seq (moves_of_keeps keeps_lastName)
        intro dirname
        apply moves_get_bind
        intro h
        apply moves_seq (moves_onFs opens_onInode)
        intro ok
        split
        . apply moves_bind moves_sysFree
          intro _
          apply moves_dirClose_pure.congr
          intro _
          abel
        . exact hundo

theorem moves_sysRmdir : Moves HeapedFs.net (sysRmdir part junk path) fun _ => 0 := by
  apply moves_bind moves_searchFile
  rintro ⟨inodeNo, rec⟩
  apply moves_assert_bind
  dsimp only
  split
  . exact moves_dirClose_found
  . split
    . exact moves_dirClose_found
    . apply moves_bind moves_dirOpen
      intro dir
      apply moves_get_bind
      intro h
      apply moves_seq (moves_onFs opens_derefInode)
      intro inode
      split
      . apply moves_seq moves_dirRemove
        intro removed
        apply moves_bind moves_dirClose
        intro _
        apply moves_dirClose_pure.congr
        intro _
        abel
      . apply moves_bind moves_dirClose
        intro _
        apply moves_dirClose_pure.congr
        intro _
        abel

theorem moves_sysChdir : Moves HeapedFs.net (sysChdir part task junk path) fun _ => 0 := by
  apply moves_bind moves_searchFile
  rintro ⟨inodeNo, rec⟩
  dsimp only
  split
  . refine moves_seq (moves_onFs (keeps_modify fun _ => rfl)) fun _ => ?_
    exact moves_dirClose_found
  . exact moves_dirClose_found

theorem moves_sysStat : Moves HeapedFs.net (sysStat part junk path) fun _ => 0 := by
  unfold sysStat
  split
  . apply moves_get_bind
    intro h
    apply moves_seq (moves_onFs opens_derefInode)
    intro root
    exact moves_pure rfl
  . apply moves_bind moves_searchFile
    rintro ⟨inodeNo, rec⟩
    dsimp only
    split
    . apply moves_seq moves_inodeOpen
      intro addr
      apply moves_seq (moves_onFs opens_derefInode)
      intro inode
      apply moves_seq moves_inodeClose
      intro _
      exact moves_dirClose_found
    . exact moves_dirClose_found

end Moves

section Leaking

theorem malloced_grants_zero {b : Block} : (h.malloced b).grants 0 = h.grants 1 := rfl

theorem moves_climb_free {b : Block} {no : UInt32} {size : Nat}
    : Moves HeapedFs.net (do
        match ← sysGetcwd.climb part 512 no [] with
        | none =>
          sysFree b
          pure none
        | some fullPathReverse =>
          Cmd.assert .panic (fullPathReverse.length ≤ size)
          let buf ← RogOS.sysGetcwd.turn size 512 fullPathReverse []
          sysFree b
          pure (some buf)) fun _ => -b.one := by
  apply moves_seq moves_climb
  intro o
  cases o with
  | none => exact moves_sysFree_pure
  | some fullPathReverse =>
    apply moves_assert_bind
    apply moves_seq (moves_of_keeps keeps_turn)
    intro buf
    exact moves_sysFree_pure

theorem net_sysGetcwd {size : Nat} {r : Option (List UInt8) × HeapedFs}
    (hr : (sysGetcwd part task size).run h = .ok r)
    : r.2.net = h.net
        + if (h.fs.tasks task).cwdInodeNr = 0 ∧ h.grants 0 = true then h.newBlock.one else 0 := by
  simp only [sysGetcwd, bind_run, sysMalloc_run] at hr
  obtain ⟨_, h1, ho, hr⟩ := hr
  rw [Prod.mk.injEq] at ho
  obtain ⟨rfl, rfl⟩ := ho
  cases hgrant : h.grants 0 with
  | false =>
    rw [hgrant, if_neg Bool.false_ne_true, pure_run] at hr
    rw [hr, if_neg fun hand => Bool.false_ne_true hand.2, net_malloced, hgrant,
      if_neg Bool.false_ne_true]
  | true =>
    rw [hgrant, if_pos rfl] at hr
    simp only [bind_run, get_run, assert_run] at hr
    obtain ⟨_, _, h1, _, _, ⟨-, h2⟩, hr⟩ := hr
    cases h1
    cases h2
    have hcwd : ((h.malloced h.newBlock).fs.tasks task).cwdInodeNr = (h.fs.tasks task).cwdInodeNr :=
      rfl
    rw [hcwd] at hr
    split at hr
    . next hroot =>
      simp only [bind_run, assert_run, pure_run] at hr
      obtain ⟨_, _, ⟨-, h3⟩, hr⟩ := hr
      cases h3
      rw [hr, if_pos ⟨hroot, rfl⟩, net_malloced, hgrant, if_pos rfl]
    . next hroot =>
      rw [moves_climb_free _ _ hr, if_neg fun hand => hroot hand.1, net_malloced, hgrant,
        if_pos rfl, add_neg_cancel_right, add_zero]

theorem onFs_derefInode_run {addr : Nat} {r : Inode × HeapedFs}
    : (onFs (derefInode addr)).run h = .ok r ↔ ∃ ino, h.fs.inode? addr = some ino
        ∧ r = (ino, h) := by
  simp only [onFs_run, derefInode_run]
  constructor
  . rintro ⟨s, ⟨ino, hino, h1⟩, h2⟩
    rw [Prod.mk.injEq] at h1
    exact ⟨ino, hino, Prod.ext h1.1 (by rw [h2, h1.2])⟩
  . rintro ⟨ino, hino, rfl⟩
    exact ⟨h.fs, ⟨ino, hino, rfl⟩, rfl⟩

theorem net_writeFile {r : Int × HeapedFs} (hr : (writeFile part g buf count).run h = .ok r)
    : ∃ ino, h.fs.fileInode? g = some ino
        ∧ r.2.net = h.net + if ¬ 512 * 140 < ino.iSize + count ∧ h.OneOfTwo then h.newBlock.one
            else 0 := by
  simp only [writeFile, bind_run, get_run] at hr
  obtain ⟨_, _, h1, hr⟩ := hr
  cases h1
  split at hr
  . exact absurd hr throw_run
  . next addr haddr =>
    obtain ⟨ino, _, hderef, hr⟩ := bind_run.mp hr
    obtain ⟨_, hino, h1⟩ := onFs_derefInode_run.mp hderef
    cases h1
    refine ⟨ino, Fs.fileInode?_eq_some.mpr ⟨addr, haddr, hino⟩, ?_⟩
    split at hr
    . next hsize =>
      rw [pure_run] at hr
      rw [hr, if_neg fun hand => hand.1 hsize, add_zero]
    . next hsize =>
      simp only [bind_run, sysMalloc_run] at hr
      obtain ⟨_, _, h1, hr⟩ := hr
      rw [Prod.mk.injEq] at h1
      obtain ⟨rfl, rfl⟩ := h1
      cases hgrant : h.grants 0 with
      | false =>
        rw [hgrant, if_neg Bool.false_ne_true, pure_run] at hr
        rw [hr, net_malloced, hgrant, if_neg Bool.false_ne_true, if_neg fun hand =>
          not_oneOfTwo (.inl hgrant) hand.2]
      | true =>
        rw [hgrant, if_pos rfl] at hr
        simp only [bind_run, sysMalloc_run] at hr
        obtain ⟨_, _, h1, hr⟩ := hr
        rw [Prod.mk.injEq, malloced_grants_zero] at h1
        obtain ⟨rfl, rfl⟩ := h1
        cases hgrant' : h.grants 1 with
        | false =>
          rw [hgrant', if_neg Bool.false_ne_true, pure_run] at hr
          rw [hr, if_pos ⟨hsize, hgrant, hgrant'⟩, net_malloced, malloced_grants_zero, hgrant',
            if_neg Bool.false_ne_true, net_malloced, hgrant, if_pos rfl, add_zero]
        | true =>
          rw [hgrant', if_pos rfl] at hr
          obtain ⟨w, h3, hwrite, hr⟩ := bind_run.mp hr
          have hkeep := moves_onFs opens_writeFile _ _ hwrite
          obtain ⟨s, hrun, -⟩ := onFs_run.mp hwrite
          have hne : w ≠ -1 := writeFile_ne haddr hino hsize hrun
          rw [if_neg hne] at hr
          rw [moves_sysFree_sysFree _ _ hr, hkeep, net_malloced, malloced_grants_zero, hgrant',
            if_pos rfl, net_malloced, hgrant, if_pos rfl,
            if_neg fun hand => not_oneOfTwo (.inr hgrant') hand.2]
          dsimp only
          abel

theorem net_readFile {r : (Int × Mem) × HeapedFs} (hr : (readFile g buf count).run h = .ok r)
    : ∃ ino, h.fs.fileInode? g = some ino
        ∧ r.2.net = h.net + if ¬ h.fs.AtEnd g ino count ∧ h.OneOfTwo then h.newBlock.one
            else 0 := by
  simp only [readFile, bind_run, get_run] at hr
  obtain ⟨_, _, h1, hr⟩ := hr
  cases h1
  split at hr
  . exact absurd hr throw_run
  . next addr haddr =>
    obtain ⟨ino, _, hderef, hr⟩ := bind_run.mp hr
    obtain ⟨_, hino, h1⟩ := onFs_derefInode_run.mp hderef
    cases h1
    refine ⟨ino, Fs.fileInode?_eq_some.mpr ⟨addr, haddr, hino⟩, ?_⟩
    split at hr
    . next hend =>
      rw [pure_run] at hr
      rw [hr, if_neg fun hand => hand.1 hend, add_zero]
    . next hend =>
      simp only [bind_run, sysMalloc_run] at hr
      obtain ⟨_, _, h1, _, _, h2, hr⟩ := hr
      rw [Prod.mk.injEq] at h1
      obtain ⟨rfl, rfl⟩ := h1
      rw [Prod.mk.injEq, malloced_grants_zero] at h2
      obtain ⟨rfl, rfl⟩ := h2
      cases hgrant' : h.grants 1 with
      | false =>
        rw [hgrant', if_neg Bool.false_ne_true, pure_run] at hr
        rw [hr, net_malloced, malloced_grants_zero, hgrant', if_neg Bool.false_ne_true,
          net_malloced, add_zero]
        cases hgrant : h.grants 0 with
        | false => rw [if_neg Bool.false_ne_true, if_neg fun hand =>
            not_oneOfTwo (.inl hgrant) hand.2]
        | true => rw [if_pos rfl, if_pos ⟨hend, hgrant, hgrant'⟩]
      | true =>
        rw [hgrant', if_pos rfl] at hr
        obtain ⟨w, h3, hread, hr⟩ := bind_run.mp hr
        have hkeep := moves_onFs opens_readFile _ _ hread
        have hfree : Moves HeapedFs.net (do
            sysFree (h.malloced h.newBlock).newBlock
            let ioBuf ← deref (if h.grants 0 = true then some h.newBlock else none)
            sysFree ioBuf
            pure w) fun _ => -(h.malloced h.newBlock).newBlock.one - if h.grants 0
              then h.newBlock.one else 0 := by
          apply moves_bind moves_sysFree
          intro _
          cases h.grants 0 with
          | false => exact moves_throw
          | true =>
            apply moves_sysFree_pure.congr
            intro _
            rw [if_pos rfl]
            abel
        have hno : ¬ (¬ h.fs.AtEnd g ino count ∧ h.OneOfTwo) := fun hand =>
          not_oneOfTwo (.inr hgrant') hand.2
        rw [if_neg hno, hfree _ _ hr, hkeep, net_malloced, malloced_grants_zero, hgrant',
          if_pos rfl, net_malloced]
        dsimp only
        abel

def Reopens (path : List UInt8) (flags : UInt8) (r : UInt32 × PathSearchRecord) : Prop :=
  r.2.fileType ≠ .directory ∧ pathDepth path = pathDepth r.2.searchedPath ∧ r.1 ≠ notFound
    ∧ flags &&& oCreat = 0

instance {p : List UInt8} {r : UInt32 × PathSearchRecord} : Decidable (Reopens p flags r) :=
  inferInstanceAs (Decidable (_ ∧ _))

theorem net_sysOpen {r : Int × HeapedFs} (hr : (sysOpen part task junk path flags).run h = .ok r)
    : path.chars.getLast? = some 47 ∧ r.2.net = h.net
      ∨ path.chars.getLast? ≠ some 47 ∧ ∃ r', (searchFile part junk path.chars).run h = .ok r'
          ∧ r.2.net = h.net + if Reopens path.chars flags r'.1 then r'.1.2.parentDir.owned
              else 0 := by
  simp only [sysOpen, bind_run, assert_run] at hr
  obtain ⟨_, _, ⟨-, h1⟩, hr⟩ := hr
  cases h1
  split at hr
  . next hslash =>
    rw [pure_run] at hr
    rw [hr]
    exact .inl ⟨hslash, rfl⟩
  . next hslash =>
    simp only [bind_run, assert_run] at hr
    obtain ⟨_, _, ⟨-, h1⟩, d1, h2, hd1, ⟨no, rec⟩, h3, hsearch, hr⟩ := hr
    cases h1
    cases pathDepthCnt_run hd1
    refine .inr ⟨hslash, _, hsearch, ?_⟩
    have hfound : h3.net = h.net + rec.parentDir.owned := moves_searchFile _ _ hsearch
    have hclose {h' : HeapedFs} {a : Int} {r : Int × HeapedFs}
        (hr : (do dirClose rec.parentDir; pure a : HeapedM Int).run h' = .ok r)
        : r.2.net = h'.net - rec.parentDir.owned := by
      rw [moves_dirClose_pure _ _ hr, sub_eq_add_neg]
    have hback {fd : Int} (hr : (do dirClose rec.parentDir; pure fd : HeapedM Int).run h3 = .ok r)
        (hre : ¬ Reopens path.chars flags (no, rec))
        : r.2.net = h.net + if Reopens path.chars flags (no, rec) then rec.parentDir.owned
            else 0 := by
      rw [hclose hr, hfound, if_neg hre, add_sub_cancel_right, add_zero]
    dsimp only at hr
    split at hr
    . next htype => exact hback hr fun hre => hre.1 htype
    . next htype =>
      obtain ⟨d2, h4, hd2, hr⟩ := bind_run.mp hr
      cases pathDepthCnt_run hd2
      split at hr
      . next hdepth => exact hback hr fun hre => hdepth hre.2.1
      . next hdepth =>
        split at hr
        . next hmissing => exact hback hr fun hre => hre.2.2.1 hmissing.1
        . next hmissing =>
          split at hr
          . next hexists => exact hback hr fun hre => hexists.2 hre.2.2.2
          . next hexists =>
            split at hr
            . next hcreat =>
              simp only [bind_run] at hr
              obtain ⟨filename, h5, hname, fd, h6, hcreate, hr⟩ := hr
              have h5 : h5 = h3 := lastName_state hname
              have hnew := moves_fileCreate _ _ hcreate
              rw [hclose (bind_run.mpr hr), hnew, h5, hfound, if_neg fun hre => hcreat hre.2.2.2]
              dsimp only
              abel
            . next hcreat =>
              -- `rec.parent_dir` is not closed
              have hcreat := not_not.mp hcreat
              have hno : no ≠ notFound := fun hno => hmissing ⟨hno, hcreat⟩
              rw [moves_fileOpen _ _ hr, hfound, if_pos ⟨htype, not_not.mp hdepth, hno, hcreat⟩,
                add_zero]

end Leaking

end Heaped

section Calls

inductive FileCall where
  | open_ (task : Nat) (junk : UInt32) (pathname : CStr) (flags : UInt8)
  | close (task : Nat) (fd : Int)
  | read (task : Nat) (kbd : Mem) (fd : Int) (buf : Mem) (count : UInt32)
  | write (task : Nat) (fd : Int) (buf : Mem) (count : UInt32)
  | mkdir (junk : UInt32) (pathname : CStr)
  | unlink (junk : UInt32) (pathname : CStr)
  | rmdir (junk : UInt32) (pathname : CStr)
  | getcwd (task size : Nat)
  | chdir (task : Nat) (junk : UInt32) (path : CStr)
  | stat (junk : UInt32) (path : CStr)

def FileCall.exec (part : Partition) : FileCall → HeapedM Unit
  | .open_ task junk pathname flags => forget (Heaped.sysOpen part task junk pathname flags)
  | .close task fd => forget (Heaped.sysClose task fd)
  | .read task kbd fd buf count => forget (Heaped.sysRead task kbd fd buf count)
  | .write task fd buf count => forget (Heaped.sysWrite part task fd buf count)
  | .mkdir junk pathname => forget (Heaped.sysMkdir part junk pathname)
  | .unlink junk pathname => forget (Heaped.sysUnlink part junk pathname)
  | .rmdir junk pathname => forget (Heaped.sysRmdir part junk pathname)
  | .getcwd task size => forget (Heaped.sysGetcwd part task size)
  | .chdir task junk path => forget (Heaped.sysChdir part task junk path)
  | .stat junk path => forget (Heaped.sysStat part junk path)

def HeapedFs.Balanced (h h' : HeapedFs) : Prop :=
  ∀ b, (h'.live.count b : ℤ) = h.live.count b + (h'.fs.opens b - h.fs.opens b)

def HeapedFs.FindsBelow (part : Partition) (h : HeapedFs) (junk : UInt32) (path : List UInt8)
    : Prop :=
  h.fs.lookupsGranted part h.grants none (components path) = true
    ∧ ∃ no d, no ≠ notFound ∧ h.fs.search part junk path = ⟨no, some d, components path, .regular⟩

def FileCall.Leaks (part : Partition) (h : HeapedFs) : FileCall → Prop
  | .open_ _ junk path flags =>
    path.chars.getLast? ≠ some 47 ∧ flags &&& oCreat = 0 ∧ h.FindsBelow part junk path.chars
  | .read task _ fd _ count => 2 < fd ∧ h.OneOfTwo ∧ h.fs.Names task fd fun g ino =>
    ¬ h.fs.AtEnd g ino count
  | .write task fd _ count =>
    fd ≠ 1 ∧ h.OneOfTwo
      ∧ h.fs.Names task fd fun g ino =>
          writes (h.fs.fileTable g).fdFlag = true ∧ ¬ 512 * 140 < ino.iSize + count
  | .getcwd task _ => (h.fs.tasks task).cwdInodeNr = 0 ∧ h.grants 0 = true
  | _ => False

variable {h' : HeapedFs} {c : Prop}

theorem balanced_iff_net : h.Balanced h' ↔ h'.net = h.net := by
  unfold HeapedFs.Balanced
  rw [funext_iff]
  apply forall_congr'
  intro b
  simp only [HeapedFs.net]
  omega

theorem balanced_iff_of_net [Decidable c] {x : Block → ℤ}
    (hnet : h'.net = h.net + if c then x else 0)
    : h.Balanced h' ↔ ¬ (c ∧ x ≠ 0) := by
  rw [balanced_iff_net, hnet, add_eq_left]
  split
  . next hc => simp [hc]
  . next hc => simp [hc]

theorem Block.one_ne_zero {b : Block} : b.one ≠ 0 := by
  intro hzero
  have happly := congrFun hzero b
  rw [Block.one_apply, if_pos rfl, Pi.zero_apply] at happly
  contradiction

theorem Heaped.StructDir.owned_ne_zero_iff {dir : Heaped.StructDir}
    : dir.owned ≠ 0 ↔ dir.ref ≠ .root := by
  cases dir with
  | root => simp [Heaped.StructDir.owned, Heaped.StructDir.ref]
  | opened addr block => exact iff_of_true Block.one_ne_zero DirRef.noConfusion

theorem Fs.resolve_unknown {s : Fs} {prev last : UInt32} {dir : Option UInt32}
    {done names : List (List UInt8)} (hno : (s.resolve part prev last dir done names).no ≠ notFound)
    : (s.resolve part prev last dir done names).fileType ≠ .unknown := by
  induction names generalizing prev last dir done with
  | nil => exact FileType.noConfusion
  | cons c cs ih =>
    simp only [Fs.resolve] at hno ⊢
    split
    . next hlook =>
      rw [hlook] at hno
      exact absurd rfl hno
    . next e hlook =>
      rw [hlook] at hno
      dsimp only at hno
      split
      . next hdir =>
        rw [if_pos hdir] at hno
        exact ih hno
      . next hdir =>
        rw [if_neg hdir] at hno
        split
        . exact FileType.noConfusion
        . next hreg =>
          rw [if_neg hreg] at hno
          exact ih hno

theorem Fs.search_regular {s : Fs} {p : List UInt8} (hno : (s.search part junk p).no ≠ notFound)
    (htype : (s.search part junk p).fileType ≠ .directory)
    : (s.search part junk p).fileType = .regular := by
  have hunknown : (s.search part junk p).fileType ≠ .unknown := by
    unfold Fs.search at hno ⊢
    split
    . exact FileType.noConfusion
    . next hroot =>
      rw [if_neg hroot] at hno
      exact Fs.resolve_unknown hno
  cases hft : (s.search part junk p).fileType with
  | unknown => exact absurd hft hunknown
  | regular => rfl
  | directory => exact absurd hft htype

theorem reopens_iff (hs : h.fs.Searchable) (hslash : path.chars.getLast? ≠ some 47)
    {r : (UInt32 × Heaped.PathSearchRecord) × HeapedFs}
    (hr : (Heaped.searchFile part junk path.chars).run h = .ok r)
    : Heaped.Reopens path.chars flags r.1 ∧ r.1.2.parentDir.owned ≠ 0
        ↔
      flags &&& oCreat = 0 ∧ h.FindsBelow part junk path.chars := by
  have hgranted := Heaped.searchFile_granted hs hr
  unfold HeapedFs.FindsBelow Heaped.Reopens
  rw [Heaped.StructDir.owned_ne_zero_iff]
  split at hgranted
  . next hlook =>
    obtain ⟨hno, hdir, hsearched, htype⟩ := hgranted
    have hall := @Fs.search_searched part h.fs junk path.chars
    have hregular := @Fs.search_regular part junk h.fs path.chars
    rw [hno, hdir, hsearched, htype]
    generalize h.fs.search part junk path.chars = f at *
    have hroot : (h.fs.atDir part f.dir).1 ≠ .root ↔ f.dir ≠ none := by
      cases f.dir with
      | none => exact iff_of_false (fun hne => hne rfl) fun hne => hne rfl
      | some d => exact iff_of_true DirRef.noConfusion (Option.some_ne_none d)
    rw [hroot]
    constructor
    . rintro ⟨⟨htype, hdepth, hno, hcreat⟩, hdir⟩
      obtain ⟨d, hd⟩ := Option.ne_none_iff_exists'.mp hdir
      have heq := (depth_eq_iff hall.1 (hall.2 htype) hslash).mp hdepth
      refine ⟨hcreat, hlook, f.no, d, hno, ?_⟩
      rw [← heq, ← hd, ← hregular hno htype]
    . rintro ⟨hcreat, -, no, d, hfound, rfl⟩
      refine ⟨⟨FileType.noConfusion, ?_, hfound, hcreat⟩, Option.some_ne_none d⟩
      exact (depth_eq_iff hall.1 (hall.2 FileType.noConfusion) hslash).mpr rfl
  . next hlook =>
    constructor
    . rintro ⟨⟨htype, -, hno, -⟩, -⟩
      exact absurd hgranted (by simp [hno, htype])
    . rintro ⟨-, hgrant, -⟩
      exact absurd hgrant hlook

theorem sysOpen_balanced_iff (hs : h.fs.Searchable) {r : Int × HeapedFs}
    (hr : (Heaped.sysOpen part task junk path flags).run h = .ok r)
    : h.Balanced r.2 ↔ ¬ (FileCall.open_ task junk path flags).Leaks part h := by
  dsimp only [FileCall.Leaks]
  obtain ⟨hslash, hnet⟩ | ⟨hslash, r', hsearch, hnet⟩ := Heaped.net_sysOpen hr
  . rw [balanced_iff_net]
    exact iff_of_true hnet fun hleak => hleak.1 hslash
  . rw [balanced_iff_of_net hnet, reopens_iff hs hslash hsearch]
    simp only [ne_eq, hslash, not_false_eq_true, true_and]

theorem Fs.names_iff {s : Fs} {P : Fin 32 → Inode → Prop} (hg : s.fileOf task fd = some g)
    (hino : s.fileInode? g = some ino)
    : s.Names task fd P ↔ P g ino := by
  constructor
  . rintro ⟨g', ino', hg', hino', hP⟩
    rw [hg, Option.some.injEq] at hg'
    rw [← hg', hino, Option.some.injEq] at hino'
    rw [hg', hino']
    exact hP
  . intro hP
    exact ⟨g, ino, hg, hino, hP⟩

theorem onFs_fdLocal2Global_run {n : Nat} {r : Fin 32 × HeapedFs}
    (hr : (Heaped.onFs (fdLocal2Global task n)).run h = .ok r)
    : h.fs.fileOf task n = some r.1 ∧ r.2 = h := by
  obtain ⟨s, hrun, heq⟩ := Heaped.onFs_run.mp hr
  obtain ⟨g, hg, hr⟩ := fdLocal2Global_run_iff.mp hrun
  rw [Prod.mk.injEq] at hr
  rw [heq, hr.1, hr.2]
  exact ⟨hg, rfl⟩

theorem sysWrite_balanced_iff {r : Int × HeapedFs}
    (hr : (Heaped.sysWrite part task fd buf count).run h = .ok r)
    : h.Balanced r.2 ↔ ¬ (FileCall.write task fd buf count).Leaks part h := by
  dsimp only [FileCall.Leaks]
  rw [Heaped.sysWrite] at hr
  split at hr
  . next hneg =>
    rw [pure_run] at hr
    rw [hr, balanced_iff_net]
    refine iff_of_true rfl ?_
    rintro ⟨-, -, g, ino, hg, -⟩
    rw [Fs.fileOf, dif_neg (by omega)] at hg
    contradiction
  . next hneg =>
    split at hr
    . next hone =>
      simp only [bind_run, assert_run, pure_run] at hr
      obtain ⟨_, _, ⟨-, h1⟩, hr⟩ := hr
      cases h1
      rw [hr, balanced_iff_net]
      exact iff_of_true rfl fun hleak => hleak.1 hone
    . next hone =>
      obtain ⟨g, h1, hlocal, hr⟩ := bind_run.mp hr
      obtain ⟨hg, hh1⟩ := onFs_fdLocal2Global_run hlocal
      dsimp only at hg hh1
      rw [Int.toNat_of_nonneg (by omega)] at hg
      rw [hh1, exec_get_bind] at hr
      split at hr
      . next hwrites =>
        obtain ⟨ino, hino, hnet⟩ := Heaped.net_writeFile hr
        rw [balanced_iff_of_net hnet, Fs.names_iff hg hino]
        simp only [ne_eq, Block.one_ne_zero, hone, hwrites]
        tauto
      . next hwrites =>
        rw [pure_run] at hr
        rw [hr, balanced_iff_net]
        refine iff_of_true rfl ?_
        rintro ⟨-, -, g', ino, hg', -, hwrites', -⟩
        rw [hg, Option.some.injEq] at hg'
        rw [hg'] at hwrites
        exact hwrites hwrites'

theorem sysRead_balanced_iff {kbd : Mem} {r : (Int × Mem) × HeapedFs}
    (hr : (Heaped.sysRead task kbd fd buf count).run h = .ok r)
    : h.Balanced r.2 ↔ ¬ (FileCall.read task kbd fd buf count).Leaks part h := by
  dsimp only [FileCall.Leaks]
  rw [Heaped.sysRead] at hr
  split at hr
  . next hstd =>
    rw [pure_run] at hr
    rw [hr, balanced_iff_net]
    exact iff_of_true rfl fun hleak => by omega
  . next hstd =>
    split at hr
    . next hzero =>
      rw [pure_run] at hr
      rw [hr, balanced_iff_net]
      exact iff_of_true rfl fun hleak => by omega
    . next hzero =>
      obtain ⟨g, h1, hlocal, hr⟩ := bind_run.mp hr
      obtain ⟨hg, hh1⟩ := onFs_fdLocal2Global_run hlocal
      dsimp only at hg hh1
      rw [Int.toNat_of_nonneg (by omega)] at hg
      rw [hh1] at hr
      obtain ⟨ino, hino, hnet⟩ := Heaped.net_readFile hr
      have hfd : 2 < fd := by omega
      rw [balanced_iff_of_net hnet, Fs.names_iff hg hino]
      simp only [ne_eq, Block.one_ne_zero, hfd]
      tauto

theorem sysGetcwd_balanced_iff {size : Nat} {r : Option (List UInt8) × HeapedFs}
    (hr : (Heaped.sysGetcwd part task size).run h = .ok r)
    : h.Balanced r.2 ↔ ¬ (FileCall.getcwd task size).Leaks part h := by
  dsimp only [FileCall.Leaks]
  rw [balanced_iff_of_net (Heaped.net_sysGetcwd hr)]
  simp only [ne_eq, Block.one_ne_zero, not_false_eq_true, and_true]

theorem balanced_of_moves {x : HeapedM α} (hx : Moves HeapedFs.net x fun _ => 0) {r : α × HeapedFs}
    (hr : x.run h = .ok r) : h.Balanced r.2 := by
  rw [balanced_iff_net, hx _ _ hr, add_zero]

/--
The calls that return free all the memory that they allocated but that of the inodes, with these
exceptions.
-/
theorem heapBalanced_iff (hs : h.fs.Searchable) (call : FileCall) {r : Unit × HeapedFs}
    (hr : (call.exec part).run h = .ok r) : h.Balanced r.2 ↔ ¬ call.Leaks part h := by
  cases call with
  | open_ task junk path flags =>
    obtain ⟨a, hr⟩ := forget_run.mp hr
    exact sysOpen_balanced_iff hs hr
  | close task fd =>
    obtain ⟨a, hr⟩ := forget_run.mp hr
    exact iff_of_true (balanced_of_moves Heaped.moves_sysClose hr) not_false
  | read task kbd fd buf count =>
    obtain ⟨a, hr⟩ := forget_run.mp hr
    exact sysRead_balanced_iff hr
  | write task fd buf count =>
    obtain ⟨a, hr⟩ := forget_run.mp hr
    exact sysWrite_balanced_iff hr
  | mkdir junk path =>
    obtain ⟨a, hr⟩ := forget_run.mp hr
    exact iff_of_true (balanced_of_moves Heaped.moves_sysMkdir hr) not_false
  | unlink junk path =>
    obtain ⟨a, hr⟩ := forget_run.mp hr
    exact iff_of_true (balanced_of_moves Heaped.moves_sysUnlink hr) not_false
  | rmdir junk path =>
    obtain ⟨a, hr⟩ := forget_run.mp hr
    exact iff_of_true (balanced_of_moves Heaped.moves_sysRmdir hr) not_false
  | getcwd task size =>
    obtain ⟨a, hr⟩ := forget_run.mp hr
    exact sysGetcwd_balanced_iff hr
  | chdir task junk path =>
    obtain ⟨a, hr⟩ := forget_run.mp hr
    exact iff_of_true (balanced_of_moves Heaped.moves_sysChdir hr) not_false
  | stat junk path =>
    obtain ⟨a, hr⟩ := forget_run.mp hr
    exact iff_of_true (balanced_of_moves Heaped.moves_sysStat hr) not_false

end Calls

section Fixed

def smallHeap : HeapedFs := ⟨smallFs, smallFs.openInodes.map fun p => .inode p.1, fun _ => true⟩

theorem heapBalanced_mkdir
    : smallHeap.Balanced (((FileCall.mkdir 0 pathA).exec smallPartition).after smallHeap) := by
  obtain ⟨a, hrun, -⟩ := run_of_returns (x := (FileCall.mkdir 0 pathA).exec smallPartition) (s :=
      smallHeap)
    (p := fun _ => true) (by decide +kernel)
  exact (@heapBalanced_iff smallPartition smallHeap searchable_smallFs (.mkdir 0 pathA) _ hrun).mpr
    not_false

/-- In the root directory `sys_getcwd` does not free its buffer. -/
theorem not_heapBalanced_getcwd
    : ¬ ∀ (part : Partition) (h : HeapedFs) (call : FileCall) (r : Unit × HeapedFs), h.fs.Searchable
        →
        (call.exec part).run h = .ok r → h.Balanced r.2 := by
  intro hall
  obtain ⟨a, hrun, -⟩ := run_of_returns (x := (FileCall.getcwd 0 512).exec smallPartition) (s :=
      smallHeap)
    (p := fun _ => true) (by decide +kernel)
  have hbalanced := hall smallPartition smallHeap (.getcwd 0 512) _ searchable_smallFs hrun
  obtain ⟨path, hrun⟩ := forget_run.mp hrun
  exact (sysGetcwd_balanced_iff hrun).mp hbalanced ⟨by decide +kernel, rfl⟩

end Fixed

end RogOS
