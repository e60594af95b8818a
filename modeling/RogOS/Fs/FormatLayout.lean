import RogOS.Fs.Lemmas.Format

/-!
The layout of a partition after `partition_format` and `mount_partition`, and the blocks that
`block_bitmap_alloc` hands out from it.
-/

namespace RogOS

open partitionFormat

def formatMount (startLba secCnt : UInt32) : VolM SuperBlock := do
  partitionFormat startLba secCnt
  mountPartition startLba

namespace SuperBlock

variable (sb : SuperBlock)

def blockBitmap (v : Vol) : Bitmap := ⟨sb.blockBitmapSects.toNat * 512, v.blockBits⟩

def setBlockBit (bitIdx : Nat) (value : Bool) : VolM Unit := do
  let v ← get
  let b ← bitmapSet (sb.blockBitmap v) bitIdx value
  modify fun v => { v with blockBits := b.bits }

def blockBitmapAlloc : VolM (Option UInt32) := do
  let v ← get
  match ← bitmapScan (sb.blockBitmap v) 1 with
  | none => pure none
  | some bitIdx =>
    sb.setBlockBit bitIdx true
    pure (some (sb.dataStartLba + UInt32.ofNat bitIdx))

def blockFree (lba : UInt32) : VolM Unit := sb.setBlockBit (lba - sb.dataStartLba).toNat false

def areas (bitLen : Nat) : List (Nat × Nat) :=
  [
    (sb.partLbaBase.toNat + 1, 1),
    (sb.blockBitmapLba.toNat, sb.blockBitmapSects.toNat),
    (sb.inodeBitmapLba.toNat, sb.inodeBitmapSects.toNat),
    (sb.inodeTableLba.toNat, sb.inodeTableSects.toNat),
    (sb.dataStartLba.toNat, bitLen)
  ]

end SuperBlock

inductive AllocStep (sb : SuperBlock) : Vol × List UInt32 → Vol × List UInt32 → Prop where
  | alloc {v v' : Vol} {used : List UInt32} {lba : UInt32}
    : sb.blockBitmapAlloc.run v = .ok (some lba, v') → AllocStep sb (v, used) (v', lba :: used)
  | free {v v' : Vol} {used : List UInt32} {lba : UInt32}
    : lba ∈ used → (sb.blockFree lba).run v = .ok ((), v')
        → AllocStep sb (v, used) (v', used.erase lba)

structure SafeLayout (startLba secCnt : UInt32) (sb : SuperBlock) (bitLen : Nat) : Prop where
  ordered : (sb.areas bitLen).Pairwise fun a b => a.1 + a.2 ≤ b.1
  inside : ∀ a ∈ sb.areas bitLen, startLba.toNat ≤ a.1 ∧ a.1 + a.2 ≤ startLba.toNat + secCnt.toNat
  bits : bitLen ≤ 4096 * sb.blockBitmapSects.toNat

/--
Formatting and mounting the partition gives a safe layout, whatever was on the disk, and from then
on every block that is allocated lies in the data area and is not in use. The block at
`data_start_lba` is that of the root directory.
-/
def FormatSafe (startLba secCnt : UInt32) : Prop :=
  ∀ v, ∃ sb v', (formatMount startLba secCnt).run v = .ok (sb, v')
    ∧ SafeLayout startLba secCnt sb (blockBitmapBitLen secCnt).toNat
    ∧ ∀ x, Relation.ReflTransGen (AllocStep sb) (v', [sb.dataStartLba]) x →
        ∀ lba v'', sb.blockBitmapAlloc.run x.1 = .ok (some lba, v'') →
          sb.dataStartLba.toNat ≤ lba.toNat ∧ lba.toNat < startLba.toNat + secCnt.toNat ∧ lba ∉ x.2

def dataBlocks (secCnt : UInt32) : Nat := secCnt.toNat - 611 - (secCnt.toNat - 611 + 4095) / 4096

def bitmapSects (secCnt : UInt32) : Nat := (dataBlocks secCnt + 4095) / 4096

structure FormatFits (startLba secCnt : UInt32) : Prop where
  large : 620 ≤ secCnt.toNat
  onDisk : startLba.toNat + 611 + bitmapSects secCnt ≤ maxLba
  buffer : dataBlocks secCnt % 4096 ≠ 0 ∨ bitmapSects secCnt < 608

variable {startLba secCnt : UInt32} {v : Vol}

section SuperBlock

theorem not_wrap
    (h : tailEnd (blockBitmapBitLen secCnt).toNat ≤ bufSize (superBlock startLba secCnt))
    : secCnt.toNat + 3484 < 2 ^ 32 := by
  by_contra hcon
  have h2 := secCnt.toNat_lt
  have h3 := @toNat_freeSects secCnt (by omega)
  have hround : ∀ x : UInt32, 2 ^ 32 ≤ x.toNat + 4095 → (divRoundUp x 4096).toNat = 0 := by
    intro x hx
    have hlt := x.toNat_lt
    have c1 : (4096 : UInt32).toNat = 4096 := rfl
    have c2 : (1 : UInt32).toNat = 1 := rfl
    simp only [divRoundUp, UInt32.toNat_div, UInt32.toNat_sub, UInt32.toNat_add, c1, c2]
    omega
  have h4 := hround (freeSects secCnt) (by omega)
  have h5 : (blockBitmapBitLen secCnt).toNat = secCnt.toNat - 611 := by
    rw [blockBitmapBitLen, UInt32.toNat_sub, h4, h3]
    omega
  have h6 := hround (blockBitmapBitLen secCnt) (by omega)
  have h7 : bufSize (superBlock startLba secCnt) = 311296 := by
    have hi : (divRoundUp 4096 4096).toNat = 1 := by decide
    have ht : (divRoundUp (76 * 4096) 512).toNat = 608 := by decide
    simp only [bufSize, superBlock, h6, hi, ht]
    omega
  rw [h7, h5, tailEnd] at h
  omega

structure Placed (startLba secCnt : UInt32) (sb : SuperBlock) : Prop where
  bitLen : (blockBitmapBitLen secCnt).toNat = dataBlocks secCnt
  superBlock : (startLba + 1).toNat = startLba.toNat + 1
  partBase : sb.partLbaBase = startLba
  blockBitmap : sb.blockBitmapLba.toNat = startLba.toNat + 2
  sects : sb.blockBitmapSects.toNat = bitmapSects secCnt
  inodeBitmap : sb.inodeBitmapLba.toNat = startLba.toNat + 2 + bitmapSects secCnt
  inodeSects : sb.inodeBitmapSects.toNat = 1
  inodeTable : sb.inodeTableLba.toNat = startLba.toNat + 3 + bitmapSects secCnt
  tableSects : sb.inodeTableSects.toNat = 608
  dataStart : sb.dataStartLba.toNat = startLba.toNat + 611 + bitmapSects secCnt
  blocks : 611 + bitmapSects secCnt + dataBlocks secCnt ≤ secCnt.toNat
  some : 0 < dataBlocks secCnt

theorem placed (h1 : 613 ≤ secCnt.toNat) (h2 : startLba.toNat + secCnt.toNat < 2 ^ 32)
    (h3 : secCnt.toNat + 3484 < 2 ^ 32) : Placed startLba secCnt (superBlock startLba secCnt) := by
  have h4 := toNat_blockBitmapBitLen (by omega) h3
  have hlen : (blockBitmapBitLen secCnt).toNat = dataBlocks secCnt := h4
  have h5 := toNat_divRoundUp (show (blockBitmapBitLen secCnt).toNat + 4095 < 2 ^ 32 by omega)
  rw [hlen] at h5
  have hsects : (divRoundUp (blockBitmapBitLen secCnt) 4096).toNat = bitmapSects secCnt := h5
  have hblocks : 611 + bitmapSects secCnt + dataBlocks secCnt ≤ secCnt.toNat := by
    unfold bitmapSects dataBlocks
    omega
  have hsome : 0 < dataBlocks secCnt := by
    unfold dataBlocks
    omega
  have hi : divRoundUp 4096 4096 = 1 := by decide
  have ht : divRoundUp (76 * 4096) 512 = 608 := by decide
  have c1 : (1 : UInt32).toNat = 1 := rfl
  have c2 : (2 : UInt32).toNat = 2 := rfl
  have c3 : (608 : UInt32).toNat = 608 := rfl
  clear h4 h5
  constructor
  case bitLen => exact hlen
  case blocks => exact hblocks
  case some => exact hsome
  case partBase => rfl
  all_goals simp only [superBlock, UInt32.toNat_add, hi, ht, c1, c2, c3, hsects]
  all_goals omega

theorem Placed.safeLayout {sb : SuperBlock} (h : Placed startLba secCnt sb)
    : SafeLayout startLba secCnt sb (blockBitmapBitLen secCnt).toNat := by
  have hb := h.blocks
  have hareas : sb.areas (blockBitmapBitLen secCnt).toNat
      =
    [
      (startLba.toNat + 1, 1),
      (startLba.toNat + 2, bitmapSects secCnt),
      (startLba.toNat + 2 + bitmapSects secCnt, 1),
      (startLba.toNat + 3 + bitmapSects secCnt, 608),
      (startLba.toNat + 611 + bitmapSects secCnt, dataBlocks secCnt)
    ] := by
    rw [SuperBlock.areas, h.partBase, h.blockBitmap, h.sects, h.inodeBitmap, h.inodeSects,
      h.inodeTable, h.tableSects, h.dataStart, h.bitLen]
  constructor
  . rw [hareas]
    simp only [List.pairwise_cons, List.mem_cons, List.not_mem_nil, or_false, forall_eq_or_imp,
      forall_eq]
    simp only [IsEmpty.forall_iff, implies_true, List.Pairwise.nil, and_true]
    omega
  . rw [hareas]
    simp only [List.mem_cons, List.not_mem_nil, or_false, forall_eq_or_imp, forall_eq]
    omega
  . rw [h.bitLen, h.sects, bitmapSects]
    omega

end SuperBlock

section Disk

theorem decodeSuperBlock_congr {m m' : Mem} (h : ∀ i < 52, m i = m' i)
    : decodeSuperBlock m = decodeSuperBlock m' := by
  have hword : ∀ a, a + 4 ≤ 52 → m.word a = m'.word a := by
    intro a ha
    apply Mem.word_congr
    intro i hi
    exact h (a + i) (by omega)
  simp only [decodeSuperBlock]
  congr 1 <;> exact hword _ (by omega)

theorem decode_encodeSuperBlock (sb : SuperBlock)
    : decodeSuperBlock (encodeSuperBlock sb) = sb := by
  have hword := fun f => Mem.word_ofWords f
  unfold decodeSuperBlock encodeSuperBlock
  congr 1
  . exact hword _ 0
  . exact hword _ 1
  . exact hword _ 2
  . exact hword _ 3
  . exact hword _ 4
  . exact hword _ 5
  . exact hword _ 6
  . exact hword _ 7
  . exact hword _ 8
  . exact hword _ 9
  . exact hword _ 10
  . exact hword _ 11
  . exact hword _ 12

def formatDisk (startLba secCnt : UInt32) (disk : Mem) : Mem :=
  let sb := superBlock startLba secCnt
  let disk := disk.blit ((startLba + 1).toNat * 512) (1 * 512) (encodeSuperBlock sb)
  let disk := disk.blit (sb.blockBitmapLba.toNat * 512) (sb.blockBitmapSects.toNat * 512)
    (blockBitmap (blockBitmapBitLen secCnt).toNat)
  let disk :=
    disk.blit (sb.inodeBitmapLba.toNat * 512) (sb.inodeBitmapSects.toNat * 512) inodeBitmap
  let disk := disk.blit (sb.inodeTableLba.toNat * 512) (sb.inodeTableSects.toNat * 512)
    (Mem.zero.blit 0 Inode.size (rootInode sb).encode)
  disk.blit (sb.dataStartLba.toNat * 512) (1 * 512) (dotSector 0 0)

variable {disk : Mem}

theorem formatDisk_superBlock (h : Placed startLba secCnt (superBlock startLba secCnt)) {i : Nat}
    (hi : i < 512)
    : formatDisk startLba secCnt disk ((startLba + 1).toNat * 512 + i)
        = encodeSuperBlock (superBlock startLba secCnt) i := by
  unfold formatDisk
  rw [h.superBlock, h.blockBitmap, h.sects, h.inodeBitmap, h.inodeTable, h.dataStart]
  rw [Mem.blit_of_not_mem (by omega), Mem.blit_of_not_mem (by omega),
    Mem.blit_of_not_mem (by omega), Mem.blit_of_not_mem (by omega),
    Mem.blit_of_mem (by omega) (by omega), Nat.add_sub_cancel_left]

theorem formatDisk_blockBitmap (h : Placed startLba secCnt (superBlock startLba secCnt)) {i : Nat}
    (hi : i < bitmapSects secCnt * 512)
    : formatDisk startLba secCnt disk ((superBlock startLba secCnt).blockBitmapLba.toNat * 512 + i)
        =
      blockBitmap (dataBlocks secCnt) i := by
  unfold formatDisk
  rw [h.superBlock, h.blockBitmap, h.sects, h.inodeBitmap, h.inodeTable, h.dataStart, h.bitLen]
  rw [Mem.blit_of_not_mem (by omega), Mem.blit_of_not_mem (by omega),
    Mem.blit_of_not_mem (by omega), Mem.blit_of_mem (by omega) (by omega), Nat.add_sub_cancel_left]

theorem partitionFormat_run {r : Unit × Vol}
    : (partitionFormat startLba secCnt).run v = .ok r
        ↔
      (startLba + 1).toNat ≤ maxLba
        ∧ tailEnd (blockBitmapBitLen secCnt).toNat ≤ bufSize (superBlock startLba secCnt)
        ∧ (superBlock startLba secCnt).blockBitmapLba.toNat
            + 256 * (((superBlock startLba secCnt).blockBitmapSects.toNat - 1) / 256) ≤ maxLba
        ∧ (superBlock startLba secCnt).inodeBitmapLba.toNat
            + 256 * (((superBlock startLba secCnt).inodeBitmapSects.toNat - 1) / 256) ≤ maxLba
        ∧ (superBlock startLba secCnt).inodeTableLba.toNat
            + 256 * (((superBlock startLba secCnt).inodeTableSects.toNat - 1) / 256) ≤ maxLba
        ∧ (superBlock startLba secCnt).dataStartLba.toNat ≤ maxLba
        ∧ r = ((), { v with disk := formatDisk startLba secCnt v.disk }) := by
  simp only [partitionFormat, Cmd.bind_run, Cmd.assert_run, ideWrite_run]
  constructor
  . rintro ⟨_, _, ⟨h1, h1'⟩, _, _, ⟨h2, h2'⟩, _, _, ⟨h3, h3'⟩, _, _, ⟨h4, h4'⟩, _, _, ⟨h5, h5'⟩, h6,
      h6'⟩
    cases h1'
    cases h2'
    cases h3'
    cases h4'
    cases h5'
    rw [Nat.sub_self, Nat.zero_div, Nat.mul_zero, Nat.add_zero] at h1 h6
    exact ⟨h1, h2, h3, h4, h5, h6, h6'⟩
  . rintro ⟨h1, h2, h3, h4, h5, h6, rfl⟩
    rw [Nat.sub_self, Nat.zero_div, Nat.mul_zero, Nat.add_zero, Nat.add_zero]
    exact ⟨_, _, ⟨h1, rfl⟩, _, _, ⟨h2, rfl⟩, _, _, ⟨h3, rfl⟩, _, _, ⟨h4, rfl⟩, _, _, ⟨h5, rfl⟩, h6,
      rfl⟩

def formatVol (startLba secCnt : UInt32) (v : Vol) : Vol :=
  let sb := superBlock startLba secCnt
  let disk := formatDisk startLba secCnt v.disk
  {
    disk := disk
    blockBits := (disk.shift (sb.blockBitmapLba.toNat * 512)).clip (sb.blockBitmapSects.toNat * 512)
    inodeBits := (disk.shift (sb.inodeBitmapLba.toNat * 512)).clip (sb.inodeBitmapSects.toNat * 512)
  }

theorem formatMount_run (h1 : 613 ≤ secCnt.toNat) (h2 : startLba.toNat + secCnt.toNat < 2 ^ 32)
    {r : SuperBlock × Vol}
    : (formatMount startLba secCnt).run v = .ok r
        ↔
      tailEnd (blockBitmapBitLen secCnt).toNat ≤ bufSize (superBlock startLba secCnt)
        ∧ startLba.toNat + 611 + bitmapSects secCnt ≤ maxLba
        ∧ r = (superBlock startLba secCnt, formatVol startLba secCnt v) := by
  unfold formatMount
  rw [Cmd.bind_run]
  have hmount : Placed startLba secCnt (superBlock startLba secCnt) →
      startLba.toNat + 611 + bitmapSects secCnt ≤ maxLba →
        (mountPartition startLba).run { v with disk := formatDisk startLba secCnt v.disk }
          = .ok (superBlock startLba secCnt, formatVol startLba secCnt v) := by
    intro hp hdisk
    have hsb :
        decodeSuperBlock
        (((formatDisk startLba secCnt v.disk).shift ((startLba + 1).toNat * 512)).clip (1 * 512))
        = superBlock startLba secCnt := by
      rw [← decode_encodeSuperBlock (superBlock startLba secCnt)]
      apply decodeSuperBlock_congr
      intro i hi
      rw [Mem.clip_of_lt (by omega), Mem.shift_apply, formatDisk_superBlock hp (by omega)]
    unfold mountPartition
    rw [Cmd.exec_bind (ideRead_run.mpr ⟨by rw [hp.superBlock]; omega, rfl⟩)]
    dsimp only
    rw [hsb]
    rw [Cmd.exec_bind (ideRead_run.mpr ⟨by rw [hp.blockBitmap, hp.sects]; omega, rfl⟩)]
    rw [Cmd.exec_bind (ideRead_run.mpr ⟨by rw [hp.inodeBitmap, hp.inodeSects]; omega, rfl⟩)]
    rw [Cmd.exec_modify_bind, Cmd.exec_pure, formatVol]
  constructor
  . rintro ⟨_, _, hformat, hr⟩
    rw [partitionFormat_run] at hformat
    obtain ⟨-, htail, -, -, -, hdata, hv⟩ := hformat
    have hp := @placed startLba secCnt h1 h2 (not_wrap htail)
    rw [hp.dataStart] at hdata
    rw [(Prod.mk.inj hv).2, hmount hp hdata] at hr
    exact ⟨htail, hdata, (Except.ok.inj hr).symm⟩
  . rintro ⟨htail, hdisk, rfl⟩
    have hp := @placed startLba secCnt h1 h2 (not_wrap htail)
    refine ⟨(), _, partitionFormat_run.mpr ⟨?_, htail, ?_, ?_, ?_, ?_, rfl⟩, hmount hp hdisk⟩
    . rw [hp.superBlock]
      omega
    . rw [hp.blockBitmap, hp.sects]
      omega
    . rw [hp.inodeBitmap, hp.inodeSects]
      omega
    . rw [hp.inodeTable, hp.tableSects]
      omega
    . rw [hp.dataStart]
      exact hdisk

end Disk

section Bits

variable {bitLen j : Nat}

theorem bit_clearBits {buf : Mem} {lastByte n bitIdx : Nat}
    : (clearBits buf lastByte n bitIdx).bit j
        =
      if lastByte * 8 + bitIdx ≤ j ∧ j < lastByte * 8 + bitIdx + n then false else buf.bit j := by
  induction n generalizing buf bitIdx with
  | zero =>
    unfold clearBits
    rw [if_neg (by omega)]
  | succ n ih =>
    unfold clearBits
    rw [ih, Mem.bit_setBit]
    split
    . rw [if_pos (by omega)]
    . split
      . rw [if_pos (by omega)]
      . rw [if_neg (by omega)]

theorem bit_blockBitmap (hj : j < 8 * tailEnd bitLen)
    : (blockBitmap bitLen).bit j = decide (bitLen ≤ j ∨ j = 0 ∧ 8 ≤ bitLen) := by
  unfold blockBitmap
  unfold tailEnd at hj
  dsimp only
  rw [bit_clearBits]
  split
  . next hin =>
    symm
    rw [decide_eq_false_iff_not]
    omega
  . next hout =>
    by_cases hlast : bitLen / 8 ≤ j / 8
    . have hfill : ∀ src : Mem, (src.blit (bitLen / 8) (512 - bitLen / 8 % 512) fun _ => 0xff).bit j
          = true := by
        intro src
        rw [Mem.bit, Mem.blit_of_mem hlast (by omega)]
        exact bitmapScan.testBit_ff (Nat.mod_lt _ (by omega))
      rw [hfill]
      symm
      rw [decide_eq_true_iff]
      omega
    . have hkeep : ∀ src : Mem, (src.blit (bitLen / 8) (512 - bitLen / 8 % 512) fun _ => 0xff).bit j
          = src.bit j := by
        intro src
        rw [Mem.bit, Mem.blit_of_not_mem (by omega), Mem.bit]
      have hzero : Mem.zero.bit j = false := Nat.zero_testBit _
      rw [hkeep, Mem.bit_setBit, hzero]
      split
      . symm
        rw [decide_eq_true_iff]
        omega
      . symm
        rw [decide_eq_false_iff_not]
        omega

theorem bit_formatVol (h : Placed startLba secCnt (superBlock startLba secCnt))
    (hj : j < 4096 * bitmapSects secCnt)
    : (formatVol startLba secCnt v).blockBits.bit j = decide (dataBlocks secCnt ≤ j ∨ j = 0
        ∧ 8 ≤ dataBlocks secCnt) := by
  have htail : j < 8 * tailEnd (dataBlocks secCnt) := by
    unfold bitmapSects at hj
    unfold tailEnd
    omega
  rw [← bit_blockBitmap htail, Mem.bit, Mem.bit]
  unfold formatVol
  dsimp only
  rw [h.sects, Mem.clip_of_lt (by omega), Mem.shift_apply, formatDisk_blockBitmap h (by omega)]

end Bits

section Alloc

variable {sb : SuperBlock} {bitLen : Nat}

structure AllocInv (sb : SuperBlock) (bitLen : Nat) (x : Vol × List UInt32) : Prop where
  nodup : x.2.Nodup
  used : ∀ lba ∈ x.2, sb.dataStartLba.toNat ≤ lba.toNat ∧ lba.toNat < sb.dataStartLba.toNat + bitLen
    ∧ x.1.blockBits.bit (lba - sb.dataStartLba).toNat = true
  tail : ∀ j < 4096 * sb.blockBitmapSects.toNat, bitLen ≤ j → x.1.blockBits.bit j = true

theorem SuperBlock.setBlockBit_run {bitIdx : Nat} {value : Bool} {r : Unit × Vol}
    : (sb.setBlockBit bitIdx value).run v = .ok r
        ↔
      bitIdx / 8 < sb.blockBitmapSects.toNat * 512
        ∧ r = ((), { v with blockBits := v.blockBits.setBit bitIdx value }) := by
  simp only [SuperBlock.setBlockBit, bitmapSet, Cmd.bind_run, Cmd.get_run, Cmd.assert_run,
    Cmd.pure_run, Cmd.modify_run]
  constructor
  . rintro ⟨_, _, h, _, _, ⟨_, _, ⟨hlt, h'⟩, h''⟩, rfl⟩
    cases h
    cases h'
    cases h''
    exact ⟨hlt, rfl⟩
  . rintro ⟨hlt, rfl⟩
    exact ⟨_, _, rfl, _, _, ⟨_, _, ⟨hlt, rfl⟩, rfl⟩, rfl⟩

theorem SuperBlock.blockBitmapAlloc_run {r : Option UInt32 × Vol}
    (h : sb.blockBitmapAlloc.run v = .ok r)
    : ∃ b, FirstClear v.blockBits (sb.blockBitmapSects.toNat * 512) b
        ∧ r = (some (sb.dataStartLba + UInt32.ofNat b), { v with
            blockBits := v.blockBits.setBit b true }) := by
  simp only [SuperBlock.blockBitmapAlloc, Cmd.bind_run, Cmd.get_run] at h
  obtain ⟨_, _, hget, _, _, hscan, h⟩ := h
  cases hget
  obtain ⟨b, hr, hb⟩ := bitmapScan_run hscan
  cases hr
  simp only [Cmd.bind_run, Cmd.pure_run, SuperBlock.setBlockBit_run] at h
  obtain ⟨_, _, ⟨-, hset⟩, rfl⟩ := h
  cases hset
  exact ⟨b, hb, rfl⟩

theorem bit_of_lba {lba : UInt32} (h : sb.dataStartLba.toNat ≤ lba.toNat)
    : (lba - sb.dataStartLba).toNat = lba.toNat - sb.dataStartLba.toNat := by
  have hlt := lba.toNat_lt
  rw [UInt32.toNat_sub]
  omega

theorem lba_of_bit {b : Nat} (h : sb.dataStartLba.toNat + b < 2 ^ 32)
    : (sb.dataStartLba + UInt32.ofNat b).toNat = sb.dataStartLba.toNat + b := by
  rw [UInt32.toNat_add, UInt32.toNat_ofNat']
  omega

variable {x y : Vol × List UInt32}

theorem AllocInv.alloc (hfit : sb.dataStartLba.toNat + bitLen < 2 ^ 32) (hx : AllocInv sb bitLen x)
    {lba : UInt32} (h : sb.blockBitmapAlloc.run x.1 = .ok (some lba, v))
    : (sb.dataStartLba.toNat ≤ lba.toNat ∧ lba.toNat < sb.dataStartLba.toNat + bitLen ∧ lba ∉ x.2)
        ∧ AllocInv sb bitLen (v, lba :: x.2) := by
  obtain ⟨b, hb, hr⟩ := SuperBlock.blockBitmapAlloc_run h
  have hlen : b < bitLen := by
    by_contra hcon
    have hlt := hb.lt
    have hset := hx.tail b (by omega) (by omega)
    rw [hb.clear] at hset
    contradiction
  have hlba := @lba_of_bit sb b (by omega)
  cases hr
  generalize sb.dataStartLba + UInt32.ofNat b = lba at *
  have hbit : (lba - sb.dataStartLba).toNat = b := by
    rw [bit_of_lba (by omega), hlba]
    omega
  have hnew : lba ∉ x.2 := by
    intro hmem
    have hset := (hx.used lba hmem).2.2
    rw [hbit, hb.clear] at hset
    contradiction
  refine ⟨⟨by omega, by omega, hnew⟩, ?_, ?_, ?_⟩
  . exact List.nodup_cons.mpr ⟨hnew, hx.nodup⟩
  . intro l hl
    cases List.mem_cons.mp hl with
    | inl hl =>
      rw [hl, Mem.bit_setBit, if_pos hbit.symm]
      exact ⟨by omega, by omega, rfl⟩
    | inr hl =>
      obtain ⟨h1, h2, h3⟩ := hx.used l hl
      refine ⟨h1, h2, ?_⟩
      rw [Mem.bit_setBit, h3, ite_self]
  . intro j hj hle
    rw [Mem.bit_setBit, hx.tail j hj hle, ite_self]

theorem AllocInv.free (hx : AllocInv sb bitLen x) {lba : UInt32} (hmem : lba ∈ x.2)
    (h : (sb.blockFree lba).run x.1 = .ok ((), v)) : AllocInv sb bitLen (v, x.2.erase lba) := by
  obtain ⟨h1, h2, -⟩ := hx.used lba hmem
  have hbit := bit_of_lba h1
  rw [SuperBlock.blockFree, SuperBlock.setBlockBit_run] at h
  cases h.2
  refine ⟨hx.nodup.erase lba, ?_, ?_⟩
  . intro l hl
    rw [hx.nodup.mem_erase_iff] at hl
    obtain ⟨h3, h4, h5⟩ := hx.used l hl.2
    have hne : l.toNat ≠ lba.toNat := by
      intro heq
      exact hl.1 (UInt32.toNat_inj.mp heq)
    refine ⟨h3, h4, ?_⟩
    rw [Mem.bit_setBit, if_neg, h5]
    rw [hbit, bit_of_lba h3]
    omega
  . intro j hj hle
    rw [Mem.bit_setBit, if_neg (by omega)]
    exact hx.tail j hj hle

theorem AllocInv.step (hfit : sb.dataStartLba.toNat + bitLen < 2 ^ 32) (hx : AllocInv sb bitLen x)
    (h : AllocStep sb x y) : AllocInv sb bitLen y := by
  cases h with
  | alloc halloc => exact (hx.alloc hfit halloc).2
  | free hmem hfree => exact hx.free hmem hfree

theorem AllocInv.run (hfit : sb.dataStartLba.toNat + bitLen < 2 ^ 32) (hx : AllocInv sb bitLen x)
    (h : Relation.ReflTransGen (AllocStep sb) x y) : AllocInv sb bitLen y := by
  induction h with
  | refl => exact hx
  | tail _ hstep ih => exact ih.step hfit hstep

end Alloc

theorem SuperBlock.blockBitmapAlloc_of_firstClear {sb : SuperBlock} {b : Nat}
    (hb : FirstClear v.blockBits (sb.blockBitmapSects.toNat * 512) b)
    : ∃ v', sb.blockBitmapAlloc.run v = .ok (some (sb.dataStartLba + UInt32.ofNat b), v') := by
  have hlt := hb.lt
  obtain ⟨c, hc, hscan⟩ := @bitmapScan_of_hasClear Vol (sb.blockBitmap v) v ⟨b, hb.lt, hb.clear⟩
  rw [show c = b from hc.unique hb] at hscan
  refine ⟨{ v with blockBits := v.blockBits.setBit b true }, ?_⟩
  rw [SuperBlock.blockBitmapAlloc, Cmd.exec_get_bind, Cmd.exec_bind hscan]
  dsimp only
  rw [Cmd.exec_bind (SuperBlock.setBlockBit_run.mpr ⟨by omega, rfl⟩)]
  rfl

theorem tailEnd_le_iff (h : Placed startLba secCnt (superBlock startLba secCnt))
    : tailEnd (blockBitmapBitLen secCnt).toNat ≤ bufSize (superBlock startLba secCnt)
        ↔
      dataBlocks secCnt % 4096 ≠ 0 ∨ bitmapSects secCnt < 608 := by
  have hsome := h.some
  rw [bufSize, h.sects, h.inodeSects, h.tableSects, h.bitLen, tailEnd, bitmapSects]
  omega

theorem bitmapSects_pos (h : 0 < dataBlocks secCnt) : 0 < bitmapSects secCnt := by
  unfold bitmapSects
  omega

theorem FormatSafe.large (h1 : 613 ≤ secCnt.toNat) (h2 : startLba.toNat + secCnt.toNat < 2 ^ 32)
    (h : FormatSafe startLba secCnt) : 620 ≤ secCnt.toNat := by
  obtain ⟨sb, v', hrun, -, hnew⟩ := h ⟨Mem.zero, Mem.zero, Mem.zero⟩
  obtain ⟨htail, -, hr⟩ := (formatMount_run h1 h2).mp hrun
  have hp := @placed startLba secCnt h1 h2 (not_wrap htail)
  have hsects := bitmapSects_pos hp.some
  cases hr
  by_contra hsmall
  have hlen : dataBlocks secCnt < 8 := by
    unfold dataBlocks
    omega
  have hsome := hp.some
  have hroot : FirstClear (formatVol startLba secCnt ⟨Mem.zero, Mem.zero, Mem.zero⟩).blockBits
      ((superBlock startLba secCnt).blockBitmapSects.toNat * 512) 0 := by
    refine ⟨?_, ?_, fun c hc => absurd hc (Nat.not_lt_zero c)⟩
    . rw [hp.sects]
      omega
    . rw [bit_formatVol hp (by omega), decide_eq_false_iff_not]
      omega
  obtain ⟨v'', halloc⟩ := SuperBlock.blockBitmapAlloc_of_firstClear hroot
  apply (hnew _ .refl _ _ halloc).2.2
  apply List.mem_singleton.mpr
  apply UInt32.toNat_inj.mp
  have hlt := (superBlock startLba secCnt).dataStartLba.toNat_lt
  rw [lba_of_bit (by omega), Nat.add_zero]

theorem allocInv_formatVol (hp : Placed startLba secCnt (superBlock startLba secCnt))
    (hlarge : 8 ≤ dataBlocks secCnt)
    : AllocInv (superBlock startLba secCnt) (dataBlocks secCnt)
        (formatVol startLba secCnt v, [(superBlock startLba secCnt).dataStartLba]) := by
  have hsects := bitmapSects_pos hp.some
  refine ⟨List.nodup_singleton _, ?_, ?_⟩
  . intro lba hlba
    rw [List.mem_singleton] at hlba
    rw [hlba, UInt32.sub_self]
    refine ⟨Nat.le_refl _, by omega, ?_⟩
    rw [show (0 : UInt32).toNat = 0 from rfl, bit_formatVol hp (by omega), decide_eq_true_iff]
    exact .inr ⟨rfl, hlarge⟩
  . intro j hj hle
    rw [hp.sects] at hj
    rw [bit_formatVol hp hj, decide_eq_true_iff]
    exact .inl hle

theorem FormatFits.safe (h1 : 613 ≤ secCnt.toNat) (h2 : startLba.toNat + secCnt.toNat < 2 ^ 32)
    (h : FormatFits startLba secCnt) : FormatSafe startLba secCnt := by
  intro v
  have hwrap : secCnt.toNat + 3484 < 2 ^ 32 := by
    have := h.onDisk
    unfold maxLba bitmapSects dataBlocks at this
    omega
  have hp := @placed startLba secCnt h1 h2 hwrap
  have hblocks := hp.blocks
  have hlarge : 8 ≤ dataBlocks secCnt := by
    have := h.large
    unfold dataBlocks
    omega
  have hfit : (superBlock startLba secCnt).dataStartLba.toNat + dataBlocks secCnt < 2 ^ 32 := by
    rw [hp.dataStart]
    omega
  have hrun := (@formatMount_run startLba secCnt v h1 h2 _).mpr ⟨(tailEnd_le_iff hp).mpr h.buffer,
      h.onDisk, rfl⟩
  refine ⟨_, _, hrun, hp.safeLayout, ?_⟩
  intro x hx lba v'' halloc
  have hinv := (allocInv_formatVol hp hlarge).run hfit hx
  obtain ⟨hge, hlt, hnew⟩ := (hinv.alloc hfit halloc).1
  rw [hp.dataStart] at hlt
  exact ⟨hge, by omega, hnew⟩

section Exact

/--
Bit 0 and those behind the last data block are set in the block bitmap, and no other one is: in the
sectors that `partition_format` writes, and so on the disk when it returns.
-/
structure BitmapExact (startLba secCnt : UInt32) : Prop where
  buffer : ∀ j < 4096 * (superBlock startLba secCnt).blockBitmapSects.toNat,
    (blockBitmap (blockBitmapBitLen secCnt).toNat).bit j
      = decide (j = 0 ∨ (blockBitmapBitLen secCnt).toNat ≤ j)
  disk : ∀ v v', (partitionFormat startLba secCnt).run v = .ok ((), v') →
    ∀ j < 4096 * (superBlock startLba secCnt).blockBitmapSects.toNat,
      (v'.disk.shift ((superBlock startLba secCnt).blockBitmapLba.toNat * 512)).bit j
        = decide (j = 0 ∨ (blockBitmapBitLen secCnt).toNat ≤ j)

theorem blockBitmapBitLen_pos (h : 613 ≤ secCnt.toNat)
    : 0 < (blockBitmapBitLen secCnt).toNat ∧ (8 ≤ (blockBitmapBitLen secCnt).toNat
        ↔ 620 ≤ secCnt.toNat) := by
  have hlt := secCnt.toNat_lt
  by_cases hwrap : secCnt.toNat + 3484 < 2 ^ 32
  . rw [toNat_blockBitmapBitLen (by omega) hwrap]
    omega
  -- rounding up wraps around to 0
  . have hfree := @toNat_freeSects secCnt (by omega)
    have hzero : (divRoundUp (freeSects secCnt) 4096).toNat = 0 := by
      have c1 : (4096 : UInt32).toNat = 4096 := rfl
      have c2 : (1 : UInt32).toNat = 1 := rfl
      simp only [divRoundUp, UInt32.toNat_div, UInt32.toNat_sub, UInt32.toNat_add, c1, c2, hfree]
      omega
    rw [blockBitmapBitLen, UInt32.toNat_sub, hzero, hfree]
    omega

theorem bitmapSects_le_tailEnd
    : 4096 * (superBlock startLba secCnt).blockBitmapSects.toNat
        ≤ 8 * tailEnd (blockBitmapBitLen secCnt).toNat := by
  show 4096 * (divRoundUp (blockBitmapBitLen secCnt) 4096).toNat ≤ _
  generalize blockBitmapBitLen secCnt = bitLen
  have hlt := bitLen.toNat_lt
  have c1 : (4096 : UInt32).toNat = 4096 := rfl
  have c2 : (1 : UInt32).toNat = 1 := rfl
  simp only [divRoundUp, tailEnd, UInt32.toNat_div, UInt32.toNat_sub, UInt32.toNat_add, c1, c2]
  omega

theorem formatDisk_bitmapByte {disk : Mem} {i : Nat}
    (hlba : (superBlock startLba secCnt).blockBitmapLba.toNat ≤ maxLba)
    (hi : i < (superBlock startLba secCnt).blockBitmapSects.toNat * 512)
    : formatDisk startLba secCnt disk ((superBlock startLba secCnt).blockBitmapLba.toNat * 512 + i)
        =
      blockBitmap (blockBitmapBitLen secCnt).toNat i := by
  have hsects : (superBlock startLba secCnt).blockBitmapSects.toNat < 2 ^ 21 := by
    show (divRoundUp (blockBitmapBitLen secCnt) 4096).toNat < 2 ^ 21
    rw [divRoundUp, UInt32.toNat_div]
    have hlt := (blockBitmapBitLen secCnt + 4096 - 1).toNat_lt
    exact Nat.lt_of_le_of_lt (Nat.div_le_div_right (Nat.le_of_lt hlt)) (by decide)
  have hinode : (superBlock startLba secCnt).inodeBitmapLba.toNat
      = ((superBlock startLba secCnt).blockBitmapLba.toNat
          + (superBlock startLba secCnt).blockBitmapSects.toNat) % 2 ^ 32 :=
    UInt32.toNat_add _ _
  have htable : (superBlock startLba secCnt).inodeTableLba.toNat
      = ((superBlock startLba secCnt).inodeBitmapLba.toNat + 1) % 2 ^ 32 :=
    UInt32.toNat_add _ _
  have hdata : (superBlock startLba secCnt).dataStartLba.toNat
      = ((superBlock startLba secCnt).inodeTableLba.toNat + 608) % 2 ^ 32 :=
    UInt32.toNat_add _ _
  unfold maxLba at hlba
  unfold formatDisk
  generalize superBlock startLba secCnt = sb at *
  rw [Mem.blit_of_not_mem (by omega), Mem.blit_of_not_mem (by omega),
    Mem.blit_of_not_mem (by omega), Mem.blit_of_mem (by omega) (by omega), Nat.add_sub_cancel_left]

/--
The block bitmap that is written is exact if and only if the bit of the root directory is not in its
last byte.
-/
theorem bitmapExact_iff (startLba secCnt : UInt32) (h : 613 ≤ secCnt.toNat)
    : BitmapExact startLba secCnt ↔ 620 ≤ secCnt.toNat := by
  obtain ⟨hpos, hlarge⟩ := blockBitmapBitLen_pos h
  have htail := @bitmapSects_le_tailEnd startLba secCnt
  constructor
  . intro hexact
    by_contra hsmall
    have hsects : 0 < (superBlock startLba secCnt).blockBitmapSects.toNat := by
      have hround := toNat_divRoundUp (show (blockBitmapBitLen secCnt).toNat + 4095 < 2 ^ 32 by
          omega)
      show 0 < (divRoundUp (blockBitmapBitLen secCnt) 4096).toNat
      omega
    have hbit := hexact.buffer 0 (by omega)
    rw [bit_blockBitmap (by omega), decide_eq_decide] at hbit
    omega
  . intro hle
    have hlen := hlarge.mpr hle
    have hbits : ∀ j < 4096 * (superBlock startLba secCnt).blockBitmapSects.toNat,
        (blockBitmap (blockBitmapBitLen secCnt).toNat).bit j
          = decide (j = 0 ∨ (blockBitmapBitLen secCnt).toNat ≤ j) := by
      intro j hj
      rw [bit_blockBitmap (Nat.lt_of_lt_of_le hj htail), decide_eq_decide]
      omega
    refine ⟨hbits, ?_⟩
    intro v v' hrun j hj
    obtain ⟨-, -, hlba, -, -, -, hv⟩ := partitionFormat_run.mp hrun
    have hdisk : v'.disk = formatDisk startLba secCnt v.disk := by
      rw [(Prod.mk.inj hv).2]
    have hbyte : j / 8 < (superBlock startLba secCnt).blockBitmapSects.toNat * 512 := by
      clear hrun hlba hv hdisk hbits
      omega
    rw [← hbits j hj, Mem.bit, Mem.bit, Mem.shift_apply, hdisk,
      formatDisk_bitmapByte (Nat.le_trans (Nat.le_add_right _ _) hlba) hbyte]

theorem bitmapExact_5000 : BitmapExact 63 5000 := by
  rw [bitmapExact_iff 63 5000 (by decide)]
  decide

/-- In the smallest partition the bit of the root directory is clear. -/
theorem not_bitmapExact_613 : ¬ BitmapExact 63 613 := by
  intro h
  have hbit := h.buffer 0 (by decide)
  revert hbit
  decide

end Exact

end RogOS
