import RogOS.Fs.Insertion
import RogOS.Fs.Lemmas.DeleteRun
import RogOS.Fs.Lemmas.Syscall
import RogOS.Fs.PathResolution
import RogOS.Fs.FileContent

/-!
What `inode_release` gives back, in the bitmaps in memory and on the disk.
-/

namespace RogOS

open Cmd

variable {part : Partition} {v v' : Vol} {s : Fs} {ino : Inode} {n lba : UInt32} {b : Nat}

section Freed

def Vol.diskBit (part : Partition) (v : Vol) (b : Nat) : Bool :=
  (v.disk.shift (part.sb.blockBitmapLba.toNat * 512)).bit b

def Vol.diskInodeBit (part : Partition) (v : Vol) (m : Nat) : Bool :=
  (v.disk.shift (part.sb.inodeBitmapLba.toNat * 512)).bit m

structure Vol.Freed (part : Partition) (v : Vol) (gone : Nat → Prop) (v' : Vol) : Prop where
  bits : ∀ b, v'.blockBits.bit b = true ↔ v.blockBits.bit b = true ∧ ¬ gone b
  inodeBits : v'.inodeBits = v.inodeBits
  synced : ∀ b < 4096 * part.sb.blockBitmapSects.toNat, (∃ c, gone c ∧ c / 4096 = b / 4096) →
    v'.diskBit part b = v'.blockBits.bit b
  unsynced : ∀ b < 4096 * part.sb.blockBitmapSects.toNat, ¬ (∃ c, gone c ∧ c / 4096 = b / 4096) →
    v'.diskBit part b = v.diskBit part b
  rest : ∀ x, x < part.sb.blockBitmapLba.toNat * 512
      ∨ part.sb.blockBitmapLba.toNat * 512 + part.sb.blockBitmapSects.toNat * 512 ≤ x →
    v'.disk x = v.disk x

theorem Vol.Freed.congr {gone gone' : Nat → Prop} (h : v.Freed part gone v')
    (hgone : ∀ b, gone b ↔ gone' b)
    : v.Freed part gone' v' := by
  have : gone = gone' := funext fun b => propext (hgone b)
  rw [← this]
  exact h

theorem Vol.Freed.refl : v.Freed part (fun _ => False) v := by
  refine ⟨?_, rfl, ?_, fun _ _ _ => rfl, fun _ _ => rfl⟩
  . intro b
    rw [not_false_eq_true, and_true]
  . rintro b - ⟨c, h, -⟩
    exact h.elim

theorem Vol.Freed.bit_eq {gone : Nat → Prop} (h : v.Freed part gone v') (hb : ¬ gone b)
    : v'.blockBits.bit b = v.blockBits.bit b := by
  rw [Bool.eq_iff_iff, h.bits b]
  exact and_iff_left hb

theorem Vol.Freed.trans {v'' : Vol} {p q : Nat → Prop} (h1 : v.Freed part p v')
    (h2 : v'.Freed part q v'')
    : v.Freed part (fun b => p b ∨ q b) v'' := by
  constructor
  . intro b
    rw [h2.bits, h1.bits]
    tauto
  . rw [h2.inodeBits, h1.inodeBits]
  . intro b hb hsec
    by_cases hq : ∃ c, q c ∧ c / 4096 = b / 4096
    . exact h2.synced b hb hq
    . have hp : ∃ c, p c ∧ c / 4096 = b / 4096 := by
        obtain ⟨c, hc, hcb⟩ := hsec
        cases hc with
        | inl hc => exact ⟨c, hc, hcb⟩
        | inr hc => exact absurd ⟨c, hc, hcb⟩ hq
      have hnq : ¬ q b := fun hqb => hq ⟨b, hqb, rfl⟩
      rw [h2.unsynced b hb hq, h1.synced b hb hp, h2.bit_eq hnq]
  . intro b hb hsec
    rw [h2.unsynced b hb, h1.unsynced b hb]
    . rintro ⟨c, hc, hcb⟩
      exact hsec ⟨c, .inl hc, hcb⟩
    . rintro ⟨c, hc, hcb⟩
      exact hsec ⟨c, .inr hc, hcb⟩
  . intro x hx
    rw [h2.rest x hx, h1.rest x hx]

def Vol.dropped (part : Partition) (v : Vol) (b : Nat) : Vol :=
  Vol.synced part { v with blockBits := v.blockBits.setBit b false } b

theorem outside_sector {start cnt k x : Nat} (hk : k < cnt) (hx : x < start ∨ start + cnt * 512 ≤ x)
    : x < start + k * 512 ∨ start + k * 512 + 1 * 512 ≤ x := by
  omega

theorem Vol.freed_dropped (hb : b < 4096 * part.sb.blockBitmapSects.toNat)
    : v.Freed part (fun c => b = c) (v.dropped part b) := by
  have h1 := part.layout.inodeBitmap
  have h2 := part.layout.inodeTable
  have h3 := part.layout.dataStart
  have h4 := part.layout.blocks
  have h5 := part.layout.onDisk
  have hlba : (part.sb.blockBitmapLba + UInt32.ofNat (b / 4096)).toNat
      = part.sb.blockBitmapLba.toNat + b / 4096 := by
    rw [UInt32.toNat_add, UInt32.toNat_ofNat']
    omega
  have hdisk : ∀ c, (v.dropped part b).diskBit part c
      = if c / 4096 = b / 4096 then (v.dropped part b).blockBits.bit c else v.diskBit part c := by
    intro c
    simp only [Vol.diskBit, Vol.dropped, Vol.synced, Mem.bit, Mem.shift_apply, hlba]
    split
    . next hc =>
      rw [Mem.blit_of_mem (by omega) (by omega), Mem.shift_apply]
      congr 3
      omega
    . next hc =>
      rw [Mem.blit_of_not_mem (by omega)]
  constructor
  . intro c
    show (v.blockBits.setBit b false).bit c = true ↔ _
    rw [Mem.bit_setBit]
    split
    . next h => simp [h]
    . next h => simp [h]
  . rfl
  . rintro c - ⟨_, rfl, hcb⟩
    rw [hdisk, if_pos hcb.symm]
  . intro c _ hno
    rw [hdisk, if_neg fun h => hno ⟨b, rfl, h.symm⟩]
  . intro x hx
    have hout : x < (part.sb.blockBitmapLba.toNat + b / 4096) * 512
        ∨ (part.sb.blockBitmapLba.toNat + b / 4096) * 512 + 1 * 512 ≤ x := by
      rw [Nat.add_mul]
      exact outside_sector (by omega) hx
    simp only [Vol.dropped, Vol.synced, hlba]
    exact Mem.blit_of_not_mem hout

def Vol.inodeDropped (part : Partition) (v : Vol) (m : Nat) : Vol :=
  { v with
    inodeBits := v.inodeBits.setBit m false
    disk := v.disk.blit (part.sb.inodeBitmapLba.toNat * 512) 512 (v.inodeBits.setBit m false) }

theorem inodeBit_dropped {m : Nat} (hm : m < 4096)
    : ∃ v1, (setBit part .inode m false).run v = .ok ((), v1)
        ∧ (bitmapSync part m .inode).run v1 = .ok ((), v.inodeDropped part m) := by
  have h1 := part.layout.inodeTable
  have h2 := part.layout.dataStart
  have h3 := part.layout.blocks
  have h4 := part.layout.onDisk
  have hlba : (part.bitmapLba .inode + UInt32.ofNat (m / 4096)).toNat
      = part.sb.inodeBitmapLba.toNat := by
    rw [Nat.div_eq_of_lt hm, UInt32.toNat_add]
    show (part.sb.inodeBitmapLba.toNat + 0) % 2 ^ 32 = _
    omega
  refine ⟨_, setBit_run.mpr ⟨show m / 8 < 512 by omega, rfl⟩, ?_⟩
  rw [bitmapSync, exec_get_bind, ideWrite_run, hlba, maxLba]
  refine ⟨by omega, ?_⟩
  rw [Nat.div_eq_of_lt hm, Nat.zero_mul, Mem.shift_zero]
  rfl

def Releasable (part : Partition) (lba : UInt32)
    : Prop := lba ≠ 0 → part.IsBlock lba ∧ part.blockIdx lba ≠ 0

theorem releaseBlock_eq (h : Releasable part lba)
    : ∃ v', (releaseBlock part lba).run v = .ok ((), v')
        ∧ v.Freed part (fun b => lba ≠ 0 ∧ part.blockIdx lba = b) v' := by
  unfold releaseBlock
  split
  . next h0 =>
    obtain ⟨hblock, hidx⟩ := h h0
    have hb := Partition.hasBit_blockIdx hblock
    have hlt : part.blockIdx lba / 8 < (v.bitmap part .block).btmpBytesLen := by
      show part.blockIdx lba / 8 < part.sb.blockBitmapSects.toNat * 512
      omega
    refine ⟨v.dropped part (part.blockIdx lba), ?_, (Vol.freed_dropped hb).congr fun b => by
      simp [h0]⟩
    rw [exec_assert_bind, if_pos (by omega), exec_bind (setBit_run.mpr ⟨hlt, rfl⟩)]
    exact bitmapSync_block hb
  . next h0 =>
    refine ⟨v, rfl, Vol.Freed.refl.congr fun b => ?_⟩
    simp [h0]

theorem releaseBlocks_eq {blocks : Nat → UInt32} {k i : Nat}
    (h : ∀ j < i + k, Releasable part (blocks j))
    : ∃ v', (releaseBlocks part blocks k i).run v = .ok ((), v')
        ∧ v.Freed part (fun b => ∃ j, i ≤ j ∧ j < i + k ∧ blocks j ≠ 0 ∧ part.blockIdx (blocks j)
            = b) v' := by
  induction k generalizing i v with
  | zero =>
    refine ⟨v, rfl, Vol.Freed.refl.congr fun b => ?_⟩
    rw [false_iff]
    rintro ⟨j, h1, h2, -⟩
    omega
  | succ k ih =>
    obtain ⟨v1, hrun1, hfreed1⟩ := @releaseBlock_eq part v (blocks i) (h i (by omega))
    obtain ⟨v2, hrun2, hfreed2⟩ := @ih v1 (i + 1) fun j hj => h j (by omega)
    refine ⟨v2, ?_, (hfreed1.trans hfreed2).congr fun b => ?_⟩
    . rw [releaseBlocks, exec_bind hrun1]
      exact hrun2
    . constructor
      . rintro (⟨h0, hb⟩ | ⟨j, h1, h2, h0, hb⟩)
        . exact ⟨i, by omega, by omega, h0, hb⟩
        . exact ⟨j, by omega, by omega, h0, hb⟩
      . rintro ⟨j, h1, h2, h0, hb⟩
        by_cases hj : j = i
        . rw [hj] at h0 hb
          exact .inl ⟨h0, hb⟩
        . exact .inr ⟨j, by omega, by omega, h0, hb⟩

end Freed

section Release

def Image.HasBit (part : Partition) (a : Image) (ino : Inode) (b : Nat) : Prop :=
  ∃ j, a.refs ino j ≠ 0 ∧ part.blockIdx (a.refs ino j) = b

structure Vol.Released (part : Partition) (v : Vol) (ino : Inode) (n : Nat) (v' : Vol) : Prop where
  image : (v.image part).Released part ino n (v'.image part)
  synced : ∀ b < 4096 * part.sb.blockBitmapSects.toNat,
    (∃ c, (v.image part).HasBit part ino c ∧ c / 4096 = b / 4096) → v'.diskBit part b
      = v'.blockBits.bit b
  unsynced : ∀ b < 4096 * part.sb.blockBitmapSects.toNat,
    ¬ (∃ c, (v.image part).HasBit part ino c ∧ c / 4096 = b / 4096) → v'.diskBit part b
      = v.diskBit part b
  inodeSynced : ∀ m < 4096, v'.diskInodeBit part m = v'.inodeBits.bit m
  slot : ∀ i < 76, v'.disk (part.slotAddr n + i) = 0
  rest : ∀ x, x < part.sb.blockBitmapLba.toNat * 512 ∨ part.sb.inodeBitmapLba.toNat * 512 + 512 ≤ x
    →
    x < part.slotAddr n ∨ part.slotAddr n + 76 ≤ x → v'.disk x = v.disk x

structure Vol.Agrees (part : Partition) (v : Vol) : Prop where
  blocks : ∀ b < 4096 * part.sb.blockBitmapSects.toNat, v.diskBit part b = v.blockBits.bit b
  inodes : ∀ m < 4096, v.diskInodeBit part m = v.inodeBits.bit m

structure Vol.ReleasedOnDisk (part : Partition) (v : Vol) (ino : Inode) (n : Nat) (v' : Vol)
    : Prop where
  blocks : ∀ b < 4096 * part.sb.blockBitmapSects.toNat,
    v'.diskBit part b = true ↔ v.diskBit part b = true ∧ ¬ (v.image part).HasBit part ino b
  inodes : ∀ m < 4096, v'.diskInodeBit part m = true ↔ v.diskInodeBit part m = true ∧ m ≠ n

theorem Vol.Released.onDisk (h : v.Released part ino n.toNat v') (hv : v.Agrees part)
    : v.ReleasedOnDisk part ino n.toNat v' := by
  have hbits : ∀ b, v'.blockBits.bit b = true ↔ v.blockBits.bit b = true
      ∧ ¬ (v.image part).HasBit part ino b := by
    intro b
    refine (h.image.blockUsed b).trans (and_congr_right fun _ => ?_)
    constructor
    . rintro hne ⟨j, h0, hb⟩
      exact hne j h0 hb
    . intro hno j h0 hb
      exact hno ⟨j, h0, hb⟩
  constructor
  . intro b hb
    by_cases hsec : ∃ c, (v.image part).HasBit part ino c ∧ c / 4096 = b / 4096
    . rw [h.synced b hb hsec, hv.blocks b hb]
      exact hbits b
    . have hno : ¬ (v.image part).HasBit part ino b := fun hbit => hsec ⟨b, hbit, rfl⟩
      rw [h.unsynced b hb hsec]
      exact (and_iff_left hno).symm
  . intro m hm
    have hbit : v'.inodeBits.bit m = Function.update v.inodeBits.bit n.toNat false m :=
      congrFun h.image.inodeUsed m
    rw [h.inodeSynced m hm, hv.inodes m hm, hbit, Function.update_apply]
    split
    . next heq => simp [heq]
    . next hne => simp [hne]

theorem Image.hasBit_iff {a : Image} {b : Nat}
    : (ino.sector 12 ≠ 0 ∧ part.blockIdx (ino.sector 12) = b
        ∨ ∃ j, 0 ≤ j ∧ j < 0 + (if ino.sector 12 ≠ 0 then 140 else 12) ∧ a.block ino j ≠ 0
            ∧ part.blockIdx (a.block ino j) = b)
        ↔
      a.HasBit part ino b := by
  have hrefs : ∀ j < 140, a.refs ino j = a.block ino j := by
    intro j hj
    rw [refs_of_lt (by omega), ref_of_lt hj]
  constructor
  . rintro (⟨h0, hb⟩ | ⟨j, -, hj, h0, hb⟩)
    . exact ⟨140, h0, hb⟩
    . have hlt : j < 140 := by split at hj <;> omega
      rw [← hrefs j hlt] at h0 hb
      exact ⟨j, h0, hb⟩
  . rintro ⟨j, h0, hb⟩
    have hlt := refs_ne_zero h0
    by_cases hj : j = 140
    . rw [hj] at h0 hb
      exact .inl ⟨h0, hb⟩
    . rw [hrefs j (by omega)] at h0 hb
      refine .inr ⟨j, Nat.zero_le j, ?_, h0, hb⟩
      split
      . omega
      . next h12 =>
        by_contra hge
        rw [block_of_ge (by omega), if_neg h12] at h0
        exact h0 rfl

theorem releaseInode_eq (hn : n.toNat < 4096) (hno : ino.iNo = n)
    (hblocks : ∀ j, Releasable part ((v.image part).refs ino j))
    : ∃ v', (releaseInode part ino n).run v = .ok ((), v') ∧ v.Released part ino n.toNat v' := by
  have l1 := part.layout.inodeBitmap
  have l2 := part.layout.inodeTable
  have l3 := part.layout.dataStart
  have l4 := part.layout.blocks
  have l5 := part.layout.onDisk
  have htable : ino.sector 12 ≠ 0 → part.IsBlock (ino.sector 12) := fun h => (hblocks 140 h).1
  have hblock : ∀ j < 140, Releasable part ((v.image part).block ino j) := by
    intro j hj
    rw [← Image.ref_of_lt hj, ← Image.refs_of_lt (by omega)]
    exact hblocks j
  have hin : (v.image part).InBlocks part ino := ⟨htable, fun j hj h0 => (hblock j hj h0).1⟩
  obtain ⟨v1, hrun1, hfreed1⟩ := @releaseBlock_eq part v (ino.sector 12) (hblocks 140)
  obtain ⟨v2, hrun2, hfreed2⟩ := @releaseBlocks_eq part v1 ((v.image part).block ino)
    (if ino.sector 12 ≠ 0 then 140 else 12) 0 (by
      intro j hj
      apply hblock
      split at hj <;> omega)
  have hfreed := (hfreed1.trans hfreed2).congr fun b => Image.hasBit_iff
  obtain ⟨v3, hset, hsync⟩ := @inodeBit_dropped part v2 n.toNat hn
  generalize hv4 : v2.inodeDropped part n.toNat = v4 at hsync
  have hdelete := (@inodeDelete_run part v4 n 1024 _).mpr ⟨hn, by omega, by omega, rfl⟩
  have hrun : (releaseInode part ino n).run v
      = .ok ((), { v4 with disk := v4.disk.blit (part.slotAddr n.toNat) 76 Mem.zero }) := by
    unfold releaseInode
    rw [exec_assert_bind, if_pos hno, exec_bind (allBlocks_run htable), exec_bind hrun1,
      exec_bind hrun2, exec_bind hset, exec_bind hsync]
    exact hdelete
  refine ⟨_, hrun, ?_⟩
  have himage := (releaseInode_run hin hrun).2
  have hslot : part.sb.inodeBitmapLba.toNat * 512 + 512 ≤ part.slotAddr n.toNat := by
    simp only [Partition.slotAddr]
    omega
  -- neither the inode bitmap nor the slot is a part of the block bitmap
  have hdiskBit : ∀ b < 4096 * part.sb.blockBitmapSects.toNat,
      Vol.diskBit part { v4 with disk := v4.disk.blit (part.slotAddr n.toNat) 76 Mem.zero } b
        = v2.diskBit part b := by
    intro b hb
    simp only [Vol.diskBit, Mem.bit, Mem.shift_apply, ← hv4, Vol.inodeDropped]
    rw [Mem.blit_of_not_mem (by omega), Mem.blit_of_not_mem (by omega)]
  have hbits : v4.blockBits = v2.blockBits := by
    rw [← hv4]
    rfl
  constructor
  . exact himage
  . intro b hb hsec
    rw [hdiskBit b hb, hfreed.synced b hb hsec]
    dsimp only
    rw [hbits]
  . intro b hb hsec
    rw [hdiskBit b hb, hfreed.unsynced b hb hsec]
  . intro m hm
    have hout : part.sb.inodeBitmapLba.toNat * 512 + m / 8 < part.slotAddr n.toNat := by
      generalize part.sb.inodeBitmapLba.toNat * 512 = start at hslot
      omega
    simp only [Vol.diskInodeBit, Mem.bit, Mem.shift_apply]
    rw [Mem.blit_of_not_mem (.inl hout), ← hv4]
    simp only [Vol.inodeDropped]
    rw [Mem.blit_of_mem (Nat.le_add_right _ _) (by omega), Nat.add_sub_cancel_left]
  . intro i hi
    dsimp only
    rw [Mem.blit_of_mem (by omega) (by omega)]
    rfl
  . intro x hx hx'
    have hends : part.sb.inodeBitmapLba.toNat * 512
        = part.sb.blockBitmapLba.toNat * 512 + part.sb.blockBitmapSects.toNat * 512 := by
      rw [← l1, Nat.add_mul]
    have hout : x < part.sb.inodeBitmapLba.toNat * 512 ∨ part.sb.inodeBitmapLba.toNat * 512 + 512
        ≤ x :=
      hx.imp_left fun h => Nat.lt_of_lt_of_le h (by rw [hends]; exact Nat.le_add_right _ _)
    dsimp only
    rw [Mem.blit_of_not_mem hx', ← hv4]
    simp only [Vol.inodeDropped]
    rw [Mem.blit_of_not_mem hout]
    apply hfreed.rest x
    rw [← hends]
    exact hx.imp_right fun h => Nat.le_trans (Nat.le_add_right _ _) h

/--
`inode_release` gives back what the inode owns, in memory exactly that, and on the disk the sectors
of the bitmaps that hold it.
-/
theorem inodeRelease_exact (hs : s.Searchable) (hn : n.toNat < 4096) (hno : (s.view part n).iNo = n)
    (hblocks : ∀ j, Releasable part ((s.vol.image part).refs (s.view part n) j))
    : ∃ v, (inodeRelease part n).run s = .ok ((), { s with vol := v })
        ∧ s.vol.Released part (s.view part n) n.toNat v
        ∧ (s.vol.Agrees part → s.vol.ReleasedOnDisk part (s.view part n) n.toNat v) := by
  obtain ⟨v, hrun, hreleased⟩ := releaseInode_eq hn hno hblocks
  refine ⟨v, ?_, hreleased, hreleased.onDisk⟩
  obtain ⟨k, hopened⟩ := @Fs.AddrNodup.opened_inode? part s n hs.addrs
  rw [← Fs.opened_vol] at hrun
  have hrun' : (onVol (releaseInode part { s.view part n with iOpenCnts := k + 1 } n)).run
      (s.opened part n).2
      = .ok ((), { (s.opened part n).2 with vol := v }) :=
    onVol_run.mpr ⟨v, hrun, rfl⟩
  have hopen : (inodeOpen part n).run s = .ok ((s.opened part n).1, (s.opened part n).2) :=
    inodeOpen_run.mpr ⟨fun _ => hn, rfl⟩
  rw [inodeRelease, exec_bind hopen, exec_bind (derefInode_run.mpr ⟨_, hopened, rfl⟩),
    exec_bind hrun', inodeClose_run]
  refine ⟨_, hopened, ?_⟩
  rw [Fs.closed_setVol, hs.addrs.closed_opened hs.pos hopened]

def fullBits : Mem := fun i =>
  if i < 511 then 0xff
  else if i = 511 then 0x7f
  else if i < 548 then 0
  else if i = 548 then 0xf8
  else 0xff

def threeBits : Mem := fun i => if i = 0 then 7 else 0

def fullVol : Vol where
  disk := fun i =>
    if 65 * 512 ≤ i ∧ i < 67 * 512 then fullBits (i - 65 * 512)
    else if 67 * 512 ≤ i ∧ i < 68 * 512 then threeBits (i - 67 * 512)
    else 0
  blockBits := fullBits
  inodeBits := threeBits

theorem fullVol_agrees : fullVol.Agrees smallPartition := by
  have hblock : smallPartition.sb.blockBitmapLba.toNat = 65 := rfl
  have hinode : smallPartition.sb.inodeBitmapLba.toNat = 67 := rfl
  constructor
  . intro b hb
    have hlt : b < 4096 * 2 := hb
    simp only [Vol.diskBit, Mem.bit, Mem.shift_apply, hblock, fullVol]
    rw [if_pos (by omega), Nat.add_sub_cancel_left]
  . intro m hm
    simp only [Vol.diskInodeBit, Mem.bit, Mem.shift_apply, hinode, fullVol]
    rw [if_neg (by omega), if_pos (by omega), Nat.add_sub_cancel_left]

def fullFile : Inode where
  iNo := 1
  iSize := 6143
  iOpenCnts := 1
  writeDeny := false
  iSectors := Vector.ofFn fun i => if i.val < 12 then UInt32.ofNat (677 + i) else 0

def oneBlockFile : Inode where
  iNo := 2
  iSize := 5
  iOpenCnts := 1
  writeDeny := false
  iSectors := Vector.ofFn fun i => if i.val = 0 then 689 else 0

def writtenFs : Fs :=
  { smallFs with
    vol := (fileWrite smallPartition 0 fullFile Mem.zero 1).after fullVol
    openInodes := (2, oneBlockFile) :: smallFs.openInodes }

structure WrittenFacts (fs : Fs) (ino : Inode) : Prop
    extends (fs.vol.image smallPartition).BlockList smallPartition ino [0] where
  searchable : fs.Searchable
  view : fs.view smallPartition 2 = ino
  notFirst : ∀ j < 141, (fs.vol.image smallPartition).ref ino j ≠ 0 →
    smallPartition.blockIdx ((fs.vol.image smallPartition).ref ino j) ≠ 0
  write : (fileWrite smallPartition 0 fullFile Mem.zero 1).returns fullVol (fun _ => true) = true
  release : (inodeRelease smallPartition 2).returns fs (fun _ => true) = true
  clear : fs.vol.diskBit smallPartition 4095 = false
  set : ((inodeRelease smallPartition 2).after fs).vol.diskBit smallPartition 4095 = true

theorem writtenFs_computed : WrittenFacts writtenFs oneBlockFile := by
  refine ⟨⟨?_, ?_, ?_⟩, Fs.searchable_of_all ?_, ?_, ?_, ?_, ?_, ?_, ?_⟩ <;> decide +kernel

theorem oneBlockFile_owns : (writtenFs.vol.image smallPartition).Owns smallPartition oneBlockFile :=
  writtenFs_computed.owns

theorem oneBlockFile_releasable (j : Nat)
    : Releasable smallPartition ((writtenFs.vol.image smallPartition).refs oneBlockFile j) := by
  intro h0
  have hlt := refs_ne_zero h0
  rw [Image.refs_of_lt hlt] at h0 ⊢
  exact ⟨oneBlockFile_owns.isBlock j hlt h0, writtenFs_computed.notFirst j hlt h0⟩

theorem inodeRelease_exact_oneBlock
    : ∃ v, (inodeRelease smallPartition 2).run writtenFs = .ok ((), { writtenFs with vol := v })
        ∧ writtenFs.vol.Released smallPartition oneBlockFile 2 v := by
  have h := @inodeRelease_exact smallPartition writtenFs 2 writtenFs_computed.searchable (by decide)
    (by rw [writtenFs_computed.view]; rfl)
      (by rw [writtenFs_computed.view]; exact oneBlockFile_releasable)
  rw [writtenFs_computed.view] at h
  obtain ⟨v, hrun, hreleased, -⟩ := h
  exact ⟨v, hrun, hreleased⟩

theorem not_releasedOnDisk_oneBlock
    : fullVol.Agrees smallPartition
        ∧ (∃ r, (fileWrite smallPartition 0 fullFile Mem.zero 1).run fullVol
            = .ok (r, writtenFs.vol))
        ∧ (writtenFs.vol.image smallPartition).Owns smallPartition oneBlockFile
        ∧ ∃ s, (inodeRelease smallPartition 2).run writtenFs = .ok ((), s)
          ∧ ¬ writtenFs.vol.ReleasedOnDisk smallPartition oneBlockFile 2 s.vol := by
  obtain ⟨r, hwrite, -⟩ := run_of_returns writtenFs_computed.write
  have hvol : writtenFs.vol = (fileWrite smallPartition 0 fullFile Mem.zero 1).after fullVol := by
    rw [writtenFs]
  rw [← hvol] at hwrite
  obtain ⟨_, hrelease, -⟩ := run_of_returns writtenFs_computed.release
  refine ⟨fullVol_agrees, ⟨r, hwrite⟩, oneBlockFile_owns, _, hrelease, ?_⟩
  intro h
  have hbefore := ((h.blocks 4095 (by decide)).mp writtenFs_computed.set).1
  exact absurd (writtenFs_computed.clear.symm.trans hbefore) Bool.false_ne_true

end Release

end RogOS
