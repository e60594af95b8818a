import RogOS.Fs.Lemmas.Basic

/-!
What a volume holds, without the layout of the bytes: the contents of the data sectors, the inodes
of the table, and which blocks and inodes are in use. Every primitive command on the volume is shown
to change this image in one place only.
-/

namespace RogOS

@[ext]
structure Image where
  sec : Nat → Mem
  slot : Nat → Inode
  blockUsed : Nat → Bool
  inodeUsed : Nat → Bool

namespace Image

def setSec (a : Image) (lba : Nat) (m : Mem) : Image :=
  { a with sec := Function.update a.sec lba (m.clip 512) }

def setSlot (a : Image) (n : Nat) (ino : Inode) : Image :=
  { a with slot := Function.update a.slot n ino }

def setBlockUsed (a : Image) (b : Nat) (v : Bool) : Image :=
  { a with blockUsed := Function.update a.blockUsed b v }

def setInodeUsed (a : Image) (n : Nat) (v : Bool) : Image :=
  { a with inodeUsed := Function.update a.inodeUsed n v }

end Image

namespace Partition

variable (part : Partition)

def IsData (lba : UInt32) : Prop := part.sb.dataStartLba.toNat ≤ lba.toNat

def slotAddr (n : Nat) : Nat := part.sb.inodeTableLba.toNat * 512 + n * 76

def blockLba (b : Nat) : UInt32 := part.sb.dataStartLba + UInt32.ofNat b

variable {part} {lba : UInt32}

theorem dataStart_pos : 611 ≤ part.sb.dataStartLba.toNat := by
  have h1 := part.layout.blockBitmap
  have h2 := part.layout.inodeBitmap
  have h3 := part.layout.inodeTable
  have h4 := part.layout.dataStart
  omega

theorem sects_le : part.sb.blockBitmapSects.toNat ≤ 40 := by
  have h1 := part.layout.sects
  have h2 := part.layout.blocks
  have h3 := part.layout.onDisk
  omega

theorem IsData.ne_zero (h : part.IsData lba) : lba ≠ 0 := by
  have h1 := part.dataStart_pos
  intro h0
  rw [IsData, h0] at h
  simp at h
  omega

theorem toNat_blockLba {b : Nat} (hb : b < 163840)
    : (part.blockLba b).toNat = part.sb.dataStartLba.toNat + b := by
  have h1 := part.layout.blocks
  have h2 := part.layout.onDisk
  simp only [blockLba, UInt32.toNat_add, UInt32.toNat_ofNat']
  omega

theorem toNat_blockIdx (h : part.IsData lba)
    : part.blockIdx lba = lba.toNat - part.sb.dataStartLba.toNat := by
  have h1 := lba.toNat_lt
  unfold IsData at h
  simp only [blockIdx, UInt32.toNat_sub]
  omega

theorem blockIdx_blockLba {b : Nat} (hb : b < 163840) : part.blockIdx (part.blockLba b) = b := by
  have h1 := part.toNat_blockLba hb
  rw [toNat_blockIdx, h1]
  . omega
  . simp only [IsData, h1]
    omega

theorem blockLba_blockIdx (h : part.IsData lba) : part.blockLba (part.blockIdx lba) = lba := by
  have h1 := lba.toNat_lt
  have h2 := toNat_blockIdx h
  unfold IsData at h
  apply UInt32.toNat_inj.mp
  simp only [blockLba, UInt32.toNat_add, UInt32.toNat_ofNat', h2]
  omega

@[simp]
theorem entriesPerSec_eq : part.entriesPerSec = 21 := by
  rw [entriesPerSec, part.layout.entrySize]
  rfl

@[simp]
theorem dirEntrySize_eq : part.sb.dirEntrySize = 24 := part.layout.entrySize

end Partition

variable {part : Partition}

def Vol.image (part : Partition) (v : Vol) : Image where
  sec lba := if part.sb.dataStartLba.toNat ≤ lba then v.disk.block 512 lba else Mem.zero
  slot n := if n < 4096 then Inode.decode (v.disk.shift (part.slotAddr n)) else inodeInit 0
  blockUsed b := v.blockBits.bit b
  inodeUsed n := v.inodeBits.bit n

section Ide

variable {v v' : Vol} {lba : UInt32} {buf : Mem}

theorem ideRead_run {secCnt : Nat} {r : Mem × Vol}
    : (ideRead lba secCnt).run v = .ok r
        ↔
      lba.toNat + 256 * ((secCnt - 1) / 256) ≤ maxLba
        ∧ r = ((v.disk.shift (lba.toNat * 512)).clip (secCnt * 512), v) := by
  simp only [ideRead, Cmd.bind_run, Cmd.assert_run, Cmd.get_run, Cmd.pure_run]
  grind

theorem ideWrite_run {secCnt : Nat} {r : Unit × Vol}
    : (ideWrite lba buf secCnt).run v = .ok r
        ↔
      lba.toNat + 256 * ((secCnt - 1) / 256) ≤ maxLba
        ∧ r = ((), { v with disk := v.disk.blit (lba.toNat * 512) (secCnt * 512) buf }) := by
  simp only [ideWrite, Cmd.bind_run, Cmd.assert_run, Cmd.modify_run]
  grind

theorem ideRead_data (hlba : part.IsData lba) {r : Mem × Vol}
    : (ideRead lba 1).run v = .ok r
        ↔
      lba.toNat ≤ maxLba ∧ r = ((v.image part).sec lba.toNat, v) := by
  unfold Partition.IsData at hlba
  simp only [ideRead_run, Vol.image, hlba, Mem.block, ↓reduceIte]
  norm_num

theorem image_blit_bitmap {off len : Nat} {src : Mem}
    (h : off + len ≤ part.sb.inodeTableLba.toNat * 512)
    : Vol.image part { v with disk := v.disk.blit off len src } = v.image part := by
  have hl := part.layout.dataStart
  apply Image.ext
  . funext lba
    simp only [Vol.image]
    split
    . rw [Mem.block_blit_of_disjoint]
      omega
    . rfl
  . funext n
    simp only [Vol.image]
    split
    . apply Inode.decode_congr
      intro i hi
      rw [Mem.shift_apply, Mem.shift_apply, Mem.blit_of_not_mem]
      simp only [Partition.slotAddr]
      omega
    . rfl
  . rfl
  . rfl

theorem ideWrite_data (hlba : part.IsData lba) {r : Unit × Vol}
    (h : (ideWrite lba buf 1).run v = .ok r)
    : r.2.image part = (v.image part).setSec lba.toNat buf := by
  have hl := part.layout.dataStart
  unfold Partition.IsData at hlba
  rw [ideWrite_run] at h
  rw [h.2, Nat.one_mul]
  apply Image.ext
  . funext l
    simp only [Vol.image, Image.setSec]
    by_cases hlba' : l = lba.toNat
    . subst hlba'
      simp only [hlba, ↓reduceIte, Function.update_self]
      exact Mem.block_blit_self
    . rw [Function.update_of_ne hlba']
      split
      . rw [Mem.block_blit_of_disjoint]
        omega
      . rfl
  . funext n
    simp only [Vol.image, Image.setSec]
    split
    . apply Inode.decode_congr
      intro i hi
      simp only [Inode.size] at hi
      rw [Mem.shift_apply, Mem.shift_apply, Mem.blit_of_not_mem]
      simp only [Partition.slotAddr]
      omega
    . rfl
  . rfl
  . rfl

end Ide

section Slot

variable {v v' : Vol} {src : Mem}

theorem image_blit_slot {n : Nat} (hn : n < 4096)
    : Vol.image part { v with disk := v.disk.blit (part.slotAddr n) 76 src }
        =
      (v.image part).setSlot n (Inode.decode src) := by
  have hl := part.layout.dataStart
  apply Image.ext
  . funext lba
    simp only [Vol.image, Image.setSlot]
    split
    . rw [Mem.block_blit_of_disjoint]
      simp only [Partition.slotAddr]
      omega
    . rfl
  . funext m
    simp only [Vol.image, Image.setSlot]
    by_cases hmn : m = n
    . subst hmn
      simp only [hn, ↓reduceIte, Function.update_self]
      apply Inode.decode_congr
      intro i hi
      simp only [Inode.size] at hi
      rw [Mem.shift_apply, Mem.blit_of_mem]
      . congr 1
        omega
      . omega
      . omega
    . rw [Function.update_of_ne hmn]
      split
      . apply Inode.decode_congr
        intro i hi
        simp only [Inode.size] at hi
        rw [Mem.shift_apply, Mem.blit_of_not_mem, Mem.shift_apply]
        simp only [Partition.slotAddr]
        omega
      . rfl
  . rfl
  . rfl

theorem inodeLocate_run {σ : Type} {s : σ} {n : UInt32} {r : InodePosition × σ}
    : (inodeLocate part n).run s = .ok r
        ↔
      n.toNat < 4096 ∧ r = (⟨512 - n.toNat * 76 % 512 < 76,
        part.sb.inodeTableLba + UInt32.ofNat (n.toNat * 76 / 512), n.toNat * 76 % 512⟩, s) := by
  simp only [inodeLocate, Cmd.bind_run, Cmd.assert_run, Cmd.pure_run, Inode.size]
  grind

def Straddles (n : Nat) : Prop := 512 - n * 76 % 512 < 76

instance (n : Nat) : Decidable (Straddles n) := inferInstanceAs (Decidable (_ < _))

theorem toNat_secLba {n : Nat} (hn : n < 4096)
    : (part.sb.inodeTableLba + UInt32.ofNat (n * 76 / 512)).toNat
        =
      part.sb.inodeTableLba.toNat + n * 76 / 512 := by
  have h1 := part.layout.dataStart
  have h2 := part.layout.blocks
  have h3 := part.layout.onDisk
  simp only [UInt32.toNat_add, UInt32.toNat_ofNat']
  omega

theorem inodeUpdate_run {n : UInt32} {pos : InodePosition} {bufSize : Nat} {r : Unit × Vol}
    (hpos : (inodeLocate part n).run v = .ok (pos, v'))
    : (inodeUpdate part pos bufSize src).run v = .ok r
        ↔
      (Straddles n.toNat → 1024 ≤ bufSize) ∧ 512 ≤ bufSize
        ∧ r = ((), { v with disk := v.disk.blit (part.slotAddr n.toNat) 76 src }) := by
  rw [inodeLocate_run] at hpos
  obtain ⟨hn, hpos⟩ := hpos
  have h1 := part.layout.dataStart
  have h2 := part.layout.blocks
  have h3 := part.layout.onDisk
  have hlba := @toNat_secLba part n.toNat hn
  have hend : (part.startLba + part.secCnt).toNat = part.startLba.toNat + part.secCnt.toNat := by
    rw [UInt32.toNat_add]
    omega
  have haddr : (part.sb.inodeTableLba.toNat + n.toNat * 76 / 512) * 512 + n.toNat * 76 % 512
      = part.slotAddr n.toNat := by
    simp only [Partition.slotAddr]
    omega
  simp only [Prod.mk.injEq] at hpos
  rw [hpos.1]
  simp only [inodeUpdate, Cmd.bind_run, Cmd.assert_run, ideRead_run, ideWrite_run]
  simp only [InodePosition.secCnt, hlba, hend, Straddles, Inode.size, maxLba, decide_eq_true_eq]
  constructor
  . rintro ⟨_, _, ⟨_, h⟩, _, _, ⟨hbuf, h'⟩, _, _, ⟨_, h''⟩, _, hr⟩
    cases h
    cases h'
    cases h''
    split at hr
    . next hs =>
      simp only [hs, ↓reduceIte] at hbuf
      refine ⟨fun _ => by omega, by omega, ?_⟩
      rw [hr, Mem.blit_readModifyWrite (by omega), haddr]
    . next hs =>
      simp only [hs, ↓reduceIte] at hbuf
      refine ⟨fun h => absurd h hs, by omega, ?_⟩
      rw [hr, Mem.blit_readModifyWrite (by omega), haddr]
  . rintro ⟨hbuf, hbuf', rfl⟩
    refine ⟨(), v, ⟨by omega, rfl⟩, (), v, ⟨?_, rfl⟩, _, v, ⟨?_, rfl⟩, ?_, ?_⟩
    . split
      . next hs =>
        have := hbuf hs
        omega
      . omega
    . split <;> omega
    . split <;> omega
    . split
      . rw [Mem.blit_readModifyWrite (by omega), haddr]
      . rw [Mem.blit_readModifyWrite (by omega), haddr]

theorem inodeSync_run {ino : Inode} {bufSize : Nat} {r : Unit × Vol}
    : (inodeSync part bufSize ino).run v = .ok r
        ↔
      (Straddles (ino.iNo.toNat % 256) → 1024 ≤ bufSize) ∧ 512 ≤ bufSize
        ∧ r = ((), { v with
          disk := v.disk.blit (part.slotAddr (ino.iNo.toNat % 256)) 76 ino.pure.encode }) := by
  have hno : ino.iNo.toUInt8.toUInt32.toNat = ino.iNo.toNat % 256 := by simp
  have hpos : ∃ pos, (inodeLocate part ino.iNo.toUInt8.toUInt32).run v = .ok (pos, v) := by
    simp only [inodeLocate_run, hno]
    exact ⟨_, by omega, rfl⟩
  obtain ⟨pos, hpos⟩ := hpos
  simp only [inodeSync, Cmd.bind_run]
  constructor
  . rintro ⟨pos', v', h1, h2⟩
    rw [hpos] at h1
    cases h1
    rw [inodeUpdate_run hpos, hno] at h2
    exact h2
  . intro h
    refine ⟨pos, v, hpos, ?_⟩
    rw [inodeUpdate_run hpos, hno]
    exact h

theorem inodeDelete_run {n : UInt32} {bufSize : Nat} {r : Unit × Vol}
    : (inodeDelete part bufSize n).run v = .ok r
        ↔
      n.toNat < 4096 ∧ (Straddles n.toNat → 1024 ≤ bufSize) ∧ 512 ≤ bufSize
        ∧ r = ((), { v with disk := v.disk.blit (part.slotAddr n.toNat) 76 Mem.zero }) := by
  simp only [inodeDelete, Cmd.bind_run]
  constructor
  . rintro ⟨pos, v', h1, h2⟩
    have hn := (inodeLocate_run.mp h1).1
    have hv : v' = v := by
      have := (inodeLocate_run.mp h1).2
      simp only [Prod.mk.injEq] at this
      exact this.2
    subst hv
    rw [inodeUpdate_run h1] at h2
    exact ⟨hn, h2⟩
  . rintro ⟨hn, h⟩
    have h1 : ∃ pos, (inodeLocate part n).run v = .ok (pos, v) := by
      simp only [inodeLocate_run]
      exact ⟨_, hn, rfl⟩
    obtain ⟨pos, h1⟩ := h1
    refine ⟨pos, v, h1, ?_⟩
    rw [inodeUpdate_run h1]
    exact h

theorem inodeLoad_run {n : UInt32} {r : Inode × Vol}
    : (inodeLoad part n).run v = .ok r ↔ n.toNat < 4096 ∧ r = ((v.image part).slot n.toNat, v) := by
  have h1 := part.layout.dataStart
  have h2 := part.layout.blocks
  have h3 := part.layout.onDisk
  simp only [inodeLoad, Cmd.bind_run, inodeLocate_run, ideRead_run, Cmd.pure_run]
  simp only [Vol.image, maxLba]
  have hdec : n.toNat < 4096 → ∀ cnt, n.toNat * 76 % 512 + 76 ≤ cnt * 512 →
      Inode.decode ((((v.disk.shift ((part.sb.inodeTableLba
        + UInt32.ofNat (n.toNat * 76 / 512)).toNat * 512)).clip (cnt * 512))).shift
          (n.toNat * 76 % 512))
        =
      Inode.decode (v.disk.shift (part.slotAddr n.toNat)) := by
    intro hn cnt hcnt
    apply Inode.decode_congr
    intro i hi
    simp only [Inode.size] at hi
    have haddr : (part.sb.inodeTableLba.toNat + n.toNat * 76 / 512) * 512 + (n.toNat * 76 % 512 + i)
        = part.slotAddr n.toNat + i := by
      simp only [Partition.slotAddr]
      omega
    rw [Mem.shift_apply, Mem.clip_of_lt (by omega), Mem.shift_apply, Mem.shift_apply,
      toNat_secLba hn, haddr]
  constructor
  . rintro ⟨_, _, ⟨hn, h⟩, _, _, ⟨_, h'⟩, rfl⟩
    cases h
    cases h'
    simp only [InodePosition.secCnt, decide_eq_true_eq, hn, ↓reduceIte, true_and]
    rw [hdec hn]
    split <;> omega
  . rintro ⟨hn, rfl⟩
    refine ⟨_, _, ⟨hn, rfl⟩, _, _, ⟨?_, rfl⟩, ?_⟩
    . simp only [InodePosition.secCnt, decide_eq_true_eq, toNat_secLba hn]
      split <;> omega
    . simp only [InodePosition.secCnt, decide_eq_true_eq, hn, ↓reduceIte]
      rw [hdec hn]
      split <;> omega

end Slot

end RogOS
