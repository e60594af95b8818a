import RogOS.Fs.Impl.Syscall

/-!
What the functions leave alone: the inode bitmap in memory, and the members of an inode that
`inode_open` and `inode_close` look at.
-/

namespace RogOS

variable {part : Partition} {lba : UInt32} {buf : Mem} {ino : Inode} {n i : Nat}

open Cmd

theorem ideRead_keeps : Keeps Vol.inodeBits (ideRead lba n) :=
  keeps_bind keeps_assert fun _ => keeps_bind keeps_get fun _ => keeps_pure

theorem ideWrite_keeps : Keeps Vol.inodeBits (ideWrite lba buf n) :=
  keeps_bind keeps_assert fun _ => keeps_modify fun _ => rfl

theorem bitmapSync_keeps {t : BitmapType} : Keeps Vol.inodeBits (bitmapSync part n t) :=
  keeps_bind keeps_get fun _ => ideWrite_keeps

theorem setBit_block_keeps {b : Bool} : Keeps Vol.inodeBits (setBit part .block n b) := by
  apply keeps_bind keeps_get
  intro v
  apply keeps_bind
  . exact keeps_bind keeps_assert fun _ => keeps_pure
  . intro btmp
    exact keeps_modify fun _ => rfl

theorem inodeUpdate_keeps {pos : InodePosition}
    : Keeps Vol.inodeBits (inodeUpdate part pos n buf) := by
  apply keeps_bind keeps_assert
  intro _
  apply keeps_bind keeps_assert
  intro _
  exact keeps_bind ideRead_keeps fun _ => ideWrite_keeps

theorem inodeLocate_keeps {no : UInt32} : Keeps Vol.inodeBits (inodeLocate part no) :=
  keeps_bind keeps_assert fun _ => keeps_pure

theorem inodeSync_keeps : Keeps Vol.inodeBits (inodeSync part n ino) :=
  keeps_bind inodeLocate_keeps fun _ => inodeUpdate_keeps

theorem inodeDelete_keeps {no : UInt32} : Keeps Vol.inodeBits (inodeDelete part n no) :=
  keeps_bind inodeLocate_keeps fun _ => inodeUpdate_keeps

theorem allBlocks_keeps : Keeps Vol.inodeBits (allBlocks ino) := by
  unfold allBlocks
  split
  . exact keeps_bind ideRead_keeps fun _ => keeps_pure
  . exact keeps_pure

theorem scan_keeps {no : UInt32} {sc : deleteDirEntry.Scan}
    : Keeps Vol.inodeBits (deleteDirEntry.scan no buf n i sc) := by
  induction n generalizing i sc with
  | zero => exact keeps_pure
  | succ n ih =>
    unfold deleteDirEntry.scan
    split
    . exact ih
    . split
      . exact ih
      . split
        . exact ih
        . split
          . exact keeps_bind keeps_assert fun _ => ih
          . exact ih

theorem unlink_keeps {blocks : Nat → UInt32}
    : Keeps Vol.inodeBits (deleteDirEntry.unlink part i blocks ino) := by
  unfold deleteDirEntry.unlink
  split
  . exact keeps_pure
  . split
    . exact keeps_throw
    . apply keeps_bind keeps_assert
      intro _
      split
      . exact keeps_bind ideWrite_keeps fun _ => keeps_pure
      . apply keeps_bind setBit_block_keeps
        intro _
        exact keeps_bind bitmapSync_keeps fun _ => keeps_pure

theorem remove_keeps {blocks : Nat → UInt32} {sc : deleteDirEntry.Scan} {k : Nat}
    : Keeps Vol.inodeBits (deleteDirEntry.remove part i blocks buf sc k ino) := by
  unfold deleteDirEntry.remove
  split
  . apply keeps_bind setBit_block_keeps
    intro _
    exact keeps_bind bitmapSync_keeps fun _ => unlink_keeps
  . exact keeps_bind ideWrite_keeps fun _ => keeps_pure

theorem deleteDirEntry.go_keeps {no : UInt32} {blocks : Nat → UInt32}
    : Keeps Vol.inodeBits (deleteDirEntry.go part no blocks ino n i) := by
  induction n generalizing i with
  | zero => exact keeps_pure
  | succ n ih =>
    unfold deleteDirEntry.go
    split
    . exact ih
    . apply keeps_bind ideRead_keeps
      intro buf
      apply keeps_bind scan_keeps
      intro sc
      split
      . exact ih
      . apply keeps_bind keeps_assert
        intro _
        apply keeps_bind remove_keeps
        intro _
        apply keeps_bind keeps_assert
        intro _
        exact keeps_bind inodeSync_keeps fun _ => keeps_pure

theorem deleteDirEntry_keeps {no : UInt32} : Keeps Vol.inodeBits (deleteDirEntry part ino no) :=
  keeps_bind allBlocks_keeps fun _ => deleteDirEntry.go_keeps

theorem releaseBlock_keeps : Keeps Vol.inodeBits (releaseBlock part lba) := by
  unfold releaseBlock
  split
  . apply keeps_bind keeps_assert
    intro _
    exact keeps_bind setBit_block_keeps fun _ => bitmapSync_keeps
  . exact keeps_pure

theorem releaseBlocks_keeps {blocks : Nat → UInt32}
    : Keeps Vol.inodeBits (releaseBlocks part blocks n i) := by
  induction n generalizing i with
  | zero => exact keeps_pure
  | succ n ih => exact keeps_bind releaseBlock_keeps fun _ => ih

def Inode.SameOpen (x y : Inode) : Prop :=
  x.iNo = y.iNo ∧ x.iOpenCnts = y.iOpenCnts ∧ x.writeDeny = y.writeDeny

theorem Inode.SameOpen.refl : ino.SameOpen ino := ⟨rfl, rfl, rfl⟩

theorem Inode.SameOpen.trans {x y z : Inode} (h1 : x.SameOpen y) (h2 : y.SameOpen z)
    : x.SameOpen z :=
  ⟨h1.1.trans h2.1, h1.2.1.trans h2.2.1, h1.2.2.trans h2.2.2⟩

section Insert

variable {alloc balloc : VolM (Option UInt32)} {e : DirEntry} {blocks : Nat → UInt32}

theorem newBlock_sameOpen
    : Yields (syncDirEntry.newBlock part alloc e i blocks ino) fun r => ino.SameOpen r.2 := by
  unfold syncDirEntry.newBlock
  apply yields_seq
  intro o
  cases o with
  | none => exact yields_pure .refl
  | some lba =>
    apply yields_seq
    intro _
    apply yields_seq
    intro _
    split
    . exact yields_seq fun _ => yields_pure ⟨rfl, rfl, rfl⟩
    . split
      . apply yields_seq
        intro o
        cases o with
        | none => exact yields_seq fun _ => yields_pure ⟨rfl, rfl, rfl⟩
        | some lba =>
          apply yields_seq
          intro _
          apply yields_seq
          intro _
          apply yields_seq
          intro _
          exact yields_seq fun _ => yields_pure ⟨rfl, rfl, rfl⟩
      . apply yields_seq
        intro _
        exact yields_seq fun _ => yields_pure ⟨rfl, rfl, rfl⟩

theorem fillSlot_sameOpen
    : Yields (syncDirEntry.fillSlot part e lba ino) fun r => ino.SameOpen r.2 := by
  unfold syncDirEntry.fillSlot
  apply yields_seq
  intro buf
  split
  . exact yields_seq fun _ => yields_pure ⟨rfl, rfl, rfl⟩
  . exact yields_pure .refl

theorem syncDirEntry.go_sameOpen
    : Yields (syncDirEntry.go part alloc e n i blocks ino) fun r => ino.SameOpen r.2 := by
  induction n generalizing i blocks ino with
  | zero => exact yields_pure .refl
  | succ n ih =>
    have hfill : ∀ (blocks : Nat → UInt32) (ino0 : Inode) (next : Bool × Inode
        → VolM (Bool × Inode)),
        (∀ ino1, next (true, ino1) = pure (true, ino1)) →
        (∀ ino1, next (false, ino1) = syncDirEntry.go part alloc e n (i + 1) blocks ino1)
          → ino.SameOpen ino0 →
        Yields (syncDirEntry.fillSlot part e (blocks i) ino0 >>= next) fun r =>
          ino.SameOpen r.2 := by
      intro blocks ino0 next hdone hnext h0
      refine yields_bind fillSlot_sameOpen ?_
      intro r hr
      obtain ⟨ok, ino1⟩ := r
      cases ok with
      | true =>
        rw [hdone]
        exact yields_pure (h0.trans hr)
      | false =>
        rw [hnext]
        intro v q hq
        exact (h0.trans hr).trans (ih v q hq)
    unfold syncDirEntry.go
    split
    . refine yields_bind newBlock_sameOpen ?_
      intro r hr
      obtain ⟨o, ino1⟩ := r
      cases o with
      | none => exact yields_pure hr
      | some blocks' => exact hfill blocks' ino1 _ (fun _ => rfl) (fun _ => rfl) hr
    . exact hfill blocks ino _ (fun _ => rfl) (fun _ => rfl) .refl

theorem syncDirEntryWith_sameOpen
    : Yields (syncDirEntryWith part alloc ino e) fun r => ino.SameOpen r.2 :=
  yields_seq fun _ => syncDirEntry.go_sameOpen

theorem makeDir_sameOpen {name : List UInt8}
    : Yields (makeDir part alloc balloc ino name) fun r => ino.SameOpen r.2 := by
  unfold makeDir
  apply yields_seq
  intro o
  cases o with
  | none => exact yields_pure .refl
  | some no =>
    apply yields_seq
    intro o
    cases o with
    | none => exact yields_seq fun _ => yields_pure .refl
    | some lba =>
      apply yields_seq
      intro _
      apply yields_seq
      intro _
      apply yields_seq
      intro _
      apply yields_seq
      intro e
      refine yields_bind syncDirEntryWith_sameOpen ?_
      intro r hr
      obtain ⟨ok, ino1⟩ := r
      cases ok with
      | false => exact yields_seq fun _ => yields_pure hr
      | true =>
        apply yields_seq
        intro _
        apply yields_seq
        intro _
        exact yields_seq fun _ => yields_pure hr

end Insert

section Delete

variable {blocks : Nat → UInt32} {no : UInt32}

theorem unlink_sameOpen
    : Yields (deleteDirEntry.unlink part i blocks ino) fun r => ino.SameOpen r := by
  unfold deleteDirEntry.unlink
  split
  . exact yields_pure ⟨rfl, rfl, rfl⟩
  . split
    . exact yields_throw
    . apply yields_seq
      intro _
      split
      . exact yields_seq fun _ => yields_pure .refl
      . apply yields_seq
        intro _
        exact yields_seq fun _ => yields_pure ⟨rfl, rfl, rfl⟩

theorem remove_sameOpen {sc : deleteDirEntry.Scan} {k : Nat}
    : Yields (deleteDirEntry.remove part i blocks buf sc k ino) fun r => ino.SameOpen r := by
  unfold deleteDirEntry.remove
  split
  . apply yields_seq
    intro _
    exact yields_seq fun _ => unlink_sameOpen
  . exact yields_seq fun _ => yields_pure .refl

theorem deleteDirEntry.go_sameOpen
    : Yields (deleteDirEntry.go part no blocks ino n i) fun r => ino.SameOpen r.2 := by
  induction n generalizing i with
  | zero => exact yields_pure .refl
  | succ n ih =>
    unfold deleteDirEntry.go
    split
    . exact ih
    . apply yields_seq
      intro buf
      apply yields_seq
      intro sc
      split
      . exact ih
      . apply yields_seq
        intro _
        refine yields_bind remove_sameOpen ?_
        intro ino1 h1
        apply yields_seq
        intro _
        exact yields_seq fun _ => yields_pure h1

theorem deleteDirEntry_sameOpen : Yields (deleteDirEntry part ino no) fun r => ino.SameOpen r.2 :=
  yields_seq fun _ => deleteDirEntry.go_sameOpen

end Delete

end RogOS
