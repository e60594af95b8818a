import RogOS.Fs.FileLimits
import RogOS.Fs.NameArray

/-!
The buffers through which `inode_sync` and `inode_delete` transfer the one or two sectors of an
inode.
-/

namespace RogOS

open Cmd

variable {part : Partition} {v : Vol} {s : Fs} {ino : Inode} {m n lba : UInt32} {buf : Mem}
  {count : UInt32}

section Sync

theorem inodeUpdate_overrun {pos : InodePosition} {bufSize : Nat} {src : Mem}
    (hpos : (inodeLocate part n).run v = .ok (pos, v)) (hsmall : ¬ 512 * pos.secCnt ≤ bufSize)
    : (inodeUpdate part pos bufSize src).run v = .error .overrun := by
  have hbig := (@inodeUpdate_run part v v src n pos 1024 _ hpos).mpr ⟨by omega, by omega, rfl⟩
  simp only [inodeUpdate, bind_run, assert_run] at hbig
  obtain ⟨_, _, ⟨hlba, -⟩, -⟩ := hbig
  rw [inodeUpdate, exec_assert_bind, if_pos hlba, exec_assert_bind, if_neg hsmall]

theorem inodeSync_overrun_iff
    : (inodeSync part 512 ino).run v = .error .overrun ↔ Straddles (ino.iNo.toNat % 256) := by
  constructor
  . intro h
    by_contra hstr
    have hrun := (@inodeSync_run part v ino 512 _).mpr ⟨fun h => absurd h hstr, by omega, rfl⟩
    rw [hrun] at h
    contradiction
  . intro hstr
    have hno : ino.iNo.toUInt8.toUInt32.toNat = ino.iNo.toNat % 256 := by simp
    have hpos := (@inodeLocate_run part Vol v ino.iNo.toUInt8.toUInt32 _).mpr ⟨by omega, rfl⟩
    rw [hno] at hpos
    rw [inodeSync, exec_bind hpos]
    apply inodeUpdate_overrun hpos
    rw [InodePosition.secCnt, if_pos (decide_eq_true (show 512 - _ * 76 % 512 < 76 from hstr))]
    omega

theorem inodeSync_avoids : Avoids .overrun (inodeSync part 1024 ino) := by
  intro v
  rw [(@inodeSync_run part v ino 1024 _).mpr ⟨by omega, by omega, rfl⟩]
  exact fun h => by contradiction

theorem inodeDelete_avoids : Avoids .overrun (inodeDelete part 1024 n) := by
  intro v
  by_cases hn : n.toNat < 4096
  . rw [(@inodeDelete_run part v n 1024 _).mpr ⟨hn, by omega, by omega, rfl⟩]
    exact fun h => by contradiction
  . rw [inodeDelete, inodeLocate, bind_assoc, exec_assert_bind, if_neg hn]
    exact fun h => by cases h

end Sync

section Bitmaps

variable {t : BitmapType} {b : Nat} {val : Bool}

theorem ideWrite_avoids {k : Nat} : Avoids .overrun (ideWrite lba buf k) :=
  avoids_bind (avoids_assert (.inr (by decide))) fun _ _ _ _ => avoids_modify _

theorem bitmapSync_avoids : Avoids .overrun (bitmapSync part b t) :=
  avoids_bind avoids_get fun _ _ _ _ => ideWrite_avoids _

theorem setBit_avoids (hb : part.HasBit b t) : Avoids .overrun (setBit part t b val) := by
  intro v
  have hlt : b / 8 < (v.bitmap part t).btmpBytesLen := by
    cases t with
    | inode =>
      have h : b < 4096 := hb
      show b / 8 < 512
      omega
    | block =>
      have h : b < 4096 * part.sb.blockBitmapSects.toNat := hb
      show b / 8 < part.sb.blockBitmapSects.toNat * 512
      omega
  rw [setBit_run.mpr ⟨hlt, rfl⟩]
  exact fun h => by contradiction

theorem bitAlloc_avoids : Avoids .overrun (bitAlloc part t) := by
  apply avoids_bind avoids_get
  rintro v _ v' hget
  cases get_run.mp hget
  apply bind_ne_error
  . unfold bitmapScan
    split
    . exact avoids_throw (by decide) _
    . exact avoids_pure _
  . intro o v1 hscan
    obtain ⟨b, hb, hfirst⟩ := bitmapScan_run hscan
    cases hb
    dsimp only
    apply bind_ne_error
    . have hlt := hfirst.lt
      rw [setBit_run.mpr ⟨by omega, rfl⟩]
      exact fun h => by contradiction
    . exact fun _ _ _ => avoids_pure _

theorem blockBitmapAlloc_avoids : Avoids .overrun (blockBitmapAlloc part) :=
  avoids_bind bitAlloc_avoids fun _ _ _ _ => avoids_pure _

theorem inodeBitmapAlloc_avoids : Avoids .overrun (inodeBitmapAlloc part) :=
  avoids_bind bitAlloc_avoids fun _ _ _ _ => avoids_pure _

theorem inodeBitmapAlloc_hasBit {v' : Vol} (h : (inodeBitmapAlloc part).run v = .ok (some n, v'))
    : part.HasBit n.toNat .inode := by
  obtain ⟨k, hk, hn, -⟩ := inodeBitmapAlloc_image h
  have hlt : k < 4096 := hk.lt
  have heq := Option.some.inj hn
  show n.toNat < 4096
  rw [heq, UInt32.toNat_ofNat']
  omega

end Bitmaps

section Callers

open syncDirEntry in
theorem newBlock_avoids {e : DirEntry} {i : Nat} {blocks : Nat → UInt32}
    : Avoids .overrun (newBlock part (blockBitmapAlloc part) e i blocks ino) := by
  apply avoids_bind blockBitmapAlloc_avoids
  intro v o v1 hrun
  cases o with
  | none => exact avoids_pure _
  | some lba =>
    apply avoids_bind (avoids_assert (.inr (by decide)))
    intro v _ v1 _
    apply avoids_bind bitmapSync_avoids
    intro v _ v1 _
    split
    . exact avoids_bind ideWrite_avoids (fun _ _ _ _ => avoids_pure _) _
    . split
      . apply avoids_bind blockBitmapAlloc_avoids
        intro v o v1 hrun
        obtain ⟨b, -, hr⟩ := blockBitmapAlloc_run.mp hrun
        cases hr
        apply avoids_bind (avoids_assert (.inr (by decide)))
        intro v _ v1 _
        apply avoids_bind bitmapSync_avoids
        intro v _ v1 _
        apply avoids_bind ideWrite_avoids
        intro v _ v1 _
        exact avoids_bind ideWrite_avoids (fun _ _ _ _ => avoids_pure _) _
      . apply avoids_bind ideWrite_avoids
        intro v _ v1 _
        exact avoids_bind ideWrite_avoids (fun _ _ _ _ => avoids_pure _) _

theorem fillSlot_avoids {e : DirEntry}
    : Avoids .overrun (syncDirEntry.fillSlot part e lba ino) := by
  apply avoids_bind ideRead_avoids
  intro v _ v1 _
  split
  . exact avoids_bind ideWrite_avoids (fun _ _ _ _ => avoids_pure _) _
  . exact avoids_pure _

theorem fillSlot_next_avoids {e : DirEntry} {lba : UInt32} {next : Inode → VolM (Bool × Inode)}
    (h : ∀ ino, Avoids .overrun (next ino))
    : Avoids .overrun (do
        match ← syncDirEntry.fillSlot part e lba ino with
        | (true, inode) => pure (true, inode)
        | (false, inode) => next inode) := by
  apply avoids_bind fillSlot_avoids
  rintro v ⟨ok, ino'⟩ v1 _
  cases ok with
  | false => exact h ino' _
  | true => exact avoids_pure _

open syncDirEntry in
theorem syncDirEntry.go_avoids {e : DirEntry} {k i : Nat} {blocks : Nat → UInt32}
    : Avoids .overrun (go part (blockBitmapAlloc part) e k i blocks ino) := by
  induction k generalizing i blocks ino with
  | zero => exact avoids_pure
  | succ k ih =>
    unfold go
    split
    . apply avoids_bind newBlock_avoids
      rintro v ⟨o, ino'⟩ v1 _
      cases o with
      | none => exact avoids_pure _
      | some blocks' => exact fillSlot_next_avoids (fun _ => ih) _
    . exact fillSlot_next_avoids fun _ => ih

theorem syncDirEntry_avoids {e : DirEntry} : Avoids .overrun (syncDirEntry part ino e) :=
  avoids_bind (avoids_assert (.inr (by decide))) fun _ _ _ _ => syncDirEntry.go_avoids _

theorem onInode_avoids {α : Type} {addr : Nat} {f : Inode → VolM (α × Inode)}
    (hf : ∀ i, Avoids .overrun (f i))
    : Avoids .overrun (onInode addr f) := by
  apply avoids_bind derefInode_avoids
  intro s i s1 _
  apply avoids_bind (avoids_zoom (hf i))
  intro s _ s1 _
  exact avoids_bind avoids_modify (fun _ _ _ _ => avoids_pure _) _

theorem pcbFdInstall_avoids {task : Nat} {fdIdx : Fin 32}
    : Avoids .overrun (pcbFdInstall task fdIdx) := by
  apply avoids_bind avoids_get
  intro s _ s1 _
  split
  . exact avoids_pure _
  . exact avoids_bind avoids_modify (fun _ _ _ _ => avoids_pure _) _

theorem fileCreate_avoids {task : Nat} {parentDir : DirRef} {filename : List UInt8} {flag : UInt8}
    : Avoids .overrun (fileCreate part task parentDir filename flag) := by
  apply avoids_bind (avoids_zoom inodeBitmapAlloc_avoids)
  intro s o s1 hrun
  cases o with
  | none => exact avoids_pure _
  | some n =>
    obtain ⟨v', hrun, -⟩ := onVol_run.mp hrun
    have hbit := inodeBitmapAlloc_hasBit hrun
    apply avoids_bind avoids_get
    intro s _ s1 _
    split
    . exact avoids_bind (avoids_zoom (setBit_avoids hbit)) (fun _ _ _ _ => avoids_pure _) _
    . apply avoids_bind avoids_modify
      intro s _ s1 _
      apply avoids_bind (avoids_bind (avoids_assert (.inr (by decide))) fun _ _ _ _ =>
        avoids_pure _)
      intro s e s1 _
      apply avoids_bind (onInode_avoids fun _ => syncDirEntry_avoids)
      intro s ok s1 _
      split
      . apply avoids_bind derefInode_avoids
        intro s _ s1 _
        apply avoids_bind (avoids_zoom inodeSync_avoids)
        intro s _ s1 _
        apply avoids_bind (avoids_zoom inodeSync_avoids)
        intro s _ s1 _
        apply avoids_bind (avoids_zoom bitmapSync_avoids)
        intro s _ s1 _
        exact avoids_bind avoids_modify (fun _ _ _ _ => pcbFdInstall_avoids _) _
      . apply avoids_bind avoids_modify
        intro s _ s1 _
        exact avoids_bind (avoids_zoom (setBit_avoids hbit)) (fun _ _ _ _ => avoids_pure _) _

theorem makeDir_avoids {dirname : List UInt8}
    : Avoids .overrun
        (makeDir part (inodeBitmapAlloc part) (blockBitmapAlloc part) ino dirname) := by
  apply avoids_bind inodeBitmapAlloc_avoids
  intro v o v1 hrun
  cases o with
  | none => exact avoids_pure _
  | some n =>
    have hbit := inodeBitmapAlloc_hasBit hrun
    apply avoids_bind blockBitmapAlloc_avoids
    intro v o v1 _
    cases o with
    | none => exact avoids_bind (setBit_avoids hbit) (fun _ _ _ _ => avoids_pure _) _
    | some lba =>
      apply avoids_bind (avoids_assert (.inr (by decide)))
      intro v _ v1 _
      apply avoids_bind bitmapSync_avoids
      intro v _ v1 _
      apply avoids_bind ideWrite_avoids
      intro v _ v1 _
      apply avoids_bind (avoids_bind (avoids_assert (.inr (by decide))) fun _ _ _ _ =>
        avoids_pure _)
      intro v e v1 _
      apply avoids_bind syncDirEntry_avoids
      rintro v ⟨ok, parent⟩ v1 _
      cases ok with
      | false => exact avoids_bind (setBit_avoids hbit) (fun _ _ _ _ => avoids_pure _) _
      | true =>
        apply avoids_bind inodeSync_avoids
        intro v _ v1 _
        apply avoids_bind inodeSync_avoids
        intro v _ v1 _
        exact avoids_bind bitmapSync_avoids (fun _ _ _ _ => avoids_pure _) _

open deleteDirEntry in
theorem scan_avoids {σ : Type} {k i : Nat} {sc : Scan}
    : Avoids .overrun (scan m buf k i sc : Cmd Fault σ Scan) := by
  induction k generalizing i sc with
  | zero => exact avoids_pure
  | succ k ih =>
    unfold scan
    split
    . exact ih
    . split
      . exact ih
      . split
        . exact ih
        . split
          . exact avoids_bind (avoids_assert (.inr (by decide))) fun _ _ _ _ => ih _
          . exact ih

open deleteDirEntry in
theorem unlink_avoids {i : Nat} {blocks : Nat → UInt32}
    : Avoids .overrun (unlink part i blocks ino) := by
  unfold unlink
  split
  . exact avoids_pure
  . rw [countIndirect_eq]
    exact avoids_throw (by decide)

open deleteDirEntry in
theorem deleteDirEntry.go_avoids {blocks : Nat → UInt32} {k i : Nat}
    (hblocks : ∀ j < i + k, blocks j ≠ 0 → part.IsBlock (blocks j))
    : Avoids .overrun (go part m blocks ino k i) := by
  induction k generalizing i with
  | zero => exact avoids_pure
  | succ k ih =>
    have hrest := @ih (i + 1) fun j hj => hblocks j (by omega)
    unfold go
    split
    . exact hrest
    . next h0 =>
      have hbit := Partition.hasBit_blockIdx (hblocks i (by omega) h0)
      apply avoids_bind ideRead_avoids
      intro v buf v1 _
      apply avoids_bind scan_avoids
      intro v sc v1 _
      split
      . exact hrest _
      . apply avoids_bind (avoids_assert (.inr (by decide)))
        intro v _ v1 _
        apply avoids_bind
        . unfold remove
          split
          . apply avoids_bind (setBit_avoids (show part.HasBit _ .block from hbit))
            intro v _ v1 _
            exact avoids_bind bitmapSync_avoids (fun _ _ _ _ => unlink_avoids _) _
          . exact avoids_bind ideWrite_avoids fun _ _ _ _ => avoids_pure _
        . intro v ino' v1 _
          apply avoids_bind (avoids_assert (.inr (by decide)))
          intro v _ v1 _
          exact avoids_bind inodeSync_avoids (fun _ _ _ _ => avoids_pure _) _

theorem deleteDirEntry_ne_overrun (hino : (v.image part).InBlocks part ino)
    : (deleteDirEntry part ino m).run v ≠ .error .overrun := by
  rw [deleteDirEntry, exec_bind (allBlocks_run hino.table)]
  exact deleteDirEntry.go_avoids (fun j hj => hino.block j (by omega)) _

theorem releaseBlock_avoids (h : lba ≠ 0 → part.IsBlock lba)
    : Avoids .overrun (releaseBlock part lba) := by
  unfold releaseBlock
  split
  . next h0 =>
    have hbit := Partition.hasBit_blockIdx (h h0)
    apply avoids_bind (avoids_assert (.inr (by decide)))
    intro v _ v1 _
    exact avoids_bind (setBit_avoids (show part.HasBit _ .block from hbit)) (fun _ _ _ _ =>
      bitmapSync_avoids _) _
  . exact avoids_pure

theorem releaseBlocks_avoids {blocks : Nat → UInt32} {k i : Nat}
    (hblocks : ∀ j < i + k, blocks j ≠ 0 → part.IsBlock (blocks j))
    : Avoids .overrun (releaseBlocks part blocks k i) := by
  induction k generalizing i with
  | zero => exact avoids_pure
  | succ k ih =>
    exact avoids_bind (releaseBlock_avoids (hblocks i (by omega))) fun _ _ _ _ =>
      ih (fun j hj => hblocks j (by omega)) _

theorem releaseInode_ne_overrun (hino : (v.image part).InBlocks part ino) (hn : n.toNat < 4096)
    : (releaseInode part ino n).run v ≠ .error .overrun := by
  unfold releaseInode
  apply bind_ne_error (avoids_assert (.inr (by decide)) _)
  rintro _ v1 hassert
  obtain ⟨-, hv⟩ := assert_run.mp hassert
  cases hv
  rw [exec_bind (allBlocks_run hino.table)]
  apply avoids_bind (releaseBlock_avoids hino.table)
  intro v _ v1 _
  apply avoids_bind
  . apply releaseBlocks_avoids
    intro j hj
    apply hino.block j
    split at hj <;> omega
  . intro v _ v1 _
    apply avoids_bind (setBit_avoids (show part.HasBit _ .inode from hn))
    intro v _ v1 _
    exact avoids_bind bitmapSync_avoids (fun _ _ _ _ => inodeDelete_avoids _) _

end Callers

section InodeIo

inductive InodeIo where
  | fileCreate (task : Nat) (parentDir : DirRef) (filename : List UInt8) (flag : UInt8)
  | fileWrite (inode : Inode) (buf : Mem) (count : UInt32)
  | makeDir (parent : Inode) (dirname : List UInt8)
  | deleteDirEntry (inode : Inode) (inodeNo : UInt32)
  | inodeRelease (inode : Inode) (inodeNo : UInt32)

/--
The buffer is as large as the sectors that are transferred through it. `file_write` has other arrays
to overrun, so that it is asked for `inode_sync` alone, in the state in which it is reached.
-/
def InodeIo.Fits (part : Partition) (s : Fs) : InodeIo → Prop
  | .fileCreate task parentDir filename flag =>
    (RogOS.fileCreate part task parentDir filename flag).run s ≠ .error .overrun
  | .fileWrite inode buf count => ∀ c v,
      (fileWrite.upToSync part (blockBitmapAlloc part) inode buf count).run s.vol = .ok (.inr c, v)
      →
    (inodeSync part 512 c.inode).run v ≠ .error .overrun
  | .makeDir parent dirname =>
    (RogOS.makeDir part (inodeBitmapAlloc part) (blockBitmapAlloc part) parent dirname).run s.vol
      ≠ .error .overrun
  | .deleteDirEntry inode inodeNo => (RogOS.deleteDirEntry part inode inodeNo).run s.vol
      ≠ .error .overrun
  | .inodeRelease inode inodeNo => (releaseInode part inode inodeNo).run s.vol ≠ .error .overrun

def InodeIo.Proper (part : Partition) (s : Fs) : InodeIo → Prop
  | .deleteDirEntry inode _ => (s.vol.image part).InBlocks part inode
  | .inodeRelease inode inodeNo => (s.vol.image part).InBlocks part inode ∧ inodeNo.toNat < 4096
  | _ => True

def InodeIo.SyncsStraddling (part : Partition) (s : Fs) : InodeIo → Prop
  | .fileWrite inode _ count => WriteReaches part s.vol inode count
      ∧ Straddles (inode.iNo.toNat % 256)
  | _ => False

/-- The buffers are large enough but for that of `file_write`, which holds one sector. -/
theorem InodeIo.fits_iff {op : InodeIo} (h : op.Proper part s)
    : op.Fits part s ↔ ¬ op.SyncsStraddling part s := by
  cases op with
  | fileCreate task parentDir filename flag => exact iff_of_true (fileCreate_avoids s) not_false
  | makeDir parent dirname => exact iff_of_true (makeDir_avoids s.vol) not_false
  | deleteDirEntry inode inodeNo => exact iff_of_true (deleteDirEntry_ne_overrun h) not_false
  | inodeRelease inode inodeNo => exact iff_of_true (releaseInode_ne_overrun h.1 h.2) not_false
  | fileWrite inode buf count =>
    constructor
    . rintro hfits ⟨hreach, hstr⟩
      obtain ⟨c, v, hrun⟩ := @WriteReaches.run part s.vol inode buf count hreach
      obtain ⟨-, c', hc, hno⟩ := (upToSync_run hrun).resolve_left fun h => by cases h.2
      cases hc
      rw [← hno] at hstr
      exact hfits c v hrun (inodeSync_overrun_iff.mpr hstr)
    . intro hnot c v hrun herr
      obtain ⟨hreach, c', hc, hno⟩ := (upToSync_run hrun).resolve_left fun h => by cases h.2
      cases hc
      have hstr := inodeSync_overrun_iff.mp herr
      rw [hno] at hstr
      exact hnot ⟨hreach, hstr⟩

theorem inBlocks_inodeInit {a : Image} : a.InBlocks part (inodeInit n) := by
  constructor
  . intro h
    exact absurd (show a.refs (inodeInit n) 140 = 0 from Image.refs_inodeInit) h
  . intro i hi h
    rw [← Image.ref_of_lt hi, ← Image.refs_of_lt (by omega), Image.refs_inodeInit] at h
    exact absurd rfl h

theorem InodeIo.fits_inodeRelease_six
    : InodeIo.Fits smallPartition smallFs (.inodeRelease (inodeInit 6) 6) :=
  (@InodeIo.fits_iff smallPartition smallFs (.inodeRelease (inodeInit 6) 6) ⟨inBlocks_inodeInit, by
    decide⟩).mpr not_false

def createFiles : List (Nat × UInt8) → FsM Unit
  | [] => pure ()
  | (task, c) :: rest => do
    let _ ← fileCreate smallPartition task .root [c] oRdwr
    createFiles rest

/-- The sixth file of a volume cannot be written to. -/
theorem not_fits_sixthFile
    : ∃ s ino,
        (createFiles [(0, 97), (0, 98), (0, 99), (0, 100), (0, 101), (1, 102)]).run smallFs
          = .ok ((), s)
          ∧ s.fileInode? 8 = some ino ∧ ino.iNo = 6
          ∧ ¬ InodeIo.Fits smallPartition s (.fileWrite ino Mem.zero 1)
          ∧ (fileWrite smallPartition 0 ino Mem.zero 1).run s.vol = .error .overrun := by
  have hret : (createFiles [(0, 97), (0, 98), (0, 99), (0, 100), (0, 101), (1, 102)]).returns
      smallFs
      (fun _ => true) = true := by
    decide +kernel
  obtain ⟨_, hrun, -⟩ := Cmd.run_of_returns hret
  generalize hs : (createFiles [(0, 97), (0, 98), (0, 99), (0, 100), (0, 101), (1, 102)]).after
      smallFs = s at *
  have hnew : (s.fileInode? 8).map (·.iNo) = some 6 := by
    rw [← hs]
    decide +kernel
  obtain ⟨ino, hino, hno⟩ := Option.map_eq_some_iff.mp hnew
  have hwrite : (s.fileInode? 8).all (fun ino =>
      (fileWrite.upToSync smallPartition (blockBitmapAlloc smallPartition) ino Mem.zero 1).returns
        s.vol
        fun r => r.isRight) = true := by
    rw [← hs]
    decide +kernel
  rw [hino, Option.all_some] at hwrite
  obtain ⟨r, hrun', hright⟩ := Cmd.run_of_returns hwrite
  obtain ⟨c, rfl⟩ := Sum.isRight_iff.mp hright
  obtain ⟨-, c', hc, hno'⟩ := (upToSync_run hrun').resolve_left fun h => by cases h.2
  cases hc
  have hsync : ∀ v, (inodeSync smallPartition 512 c.inode).run v = .error .overrun := by
    intro v
    apply inodeSync_overrun_iff.mpr
    rw [hno', hno]
    decide
  refine ⟨s, ino, hrun, hino, hno, ?_, ?_⟩
  . intro hfits
    exact hfits c _ hrun' (hsync _)
  . unfold fileWrite
    rw [fileWriteWith_eq, exec_bind hrun']
    dsimp only
    rw [StateT.run_bind, hsync]
    rfl

end InodeIo

end RogOS
