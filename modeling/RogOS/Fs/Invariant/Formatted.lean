import RogOS.Fs.FormatLayout
import RogOS.Fs.Invariant.State

/-!
The tree of a partition that was just formatted and mounted: the root directory and nothing else.
-/

namespace RogOS

open partitionFormat

variable {startLba secCnt : UInt32} {h1 : 611 ≤ secCnt.toNat}
  {h2 : startLba.toNat + secCnt.toNat ≤ 163840} {v : Vol} {s : Fs}

def Tree.root (x : Inode) : Tree where
  node n := if n = 0 then some x else none
  type _ := .directory
  parent _ := 0
  entries _ := 0

section Image

theorem Formatted.vol_eq (hlarge : 620 ≤ secCnt.toNat)
    (h : Formatted (.formatted startLba secCnt h1 h2) v s)
    : s.vol = formatVol startLba secCnt v := by
  simp only [Formatted, filesysInit, Cmd.bind_run, onVol_run] at h
  obtain ⟨_, s1, ⟨v1, hformat, hs1⟩, sb, s2, ⟨v2, hmount, hs2⟩, hopen⟩ := h
  rw [hs1] at hmount hs2
  have hrun : (formatMount startLba secCnt).run v = .ok (sb, v2) := by
    unfold formatMount
    rw [Cmd.bind_run]
    exact ⟨_, v1, hformat, hmount⟩
  rw [formatMount_run (by omega) (by omega)] at hrun
  have hv2 := congrArg Prod.snd hrun.2.2
  rw [hs2] at hopen
  have hm : Mounted (.formatted startLba secCnt h1 h2) v2 s := hopen
  rw [hm.eq]
  exact hv2

theorem sec_formatVol
    : ((formatVol startLba secCnt v).image (.formatted startLba secCnt h1 h2)).sec
        ((Partition.formatted startLba secCnt h1 h2).blockLba 0).toNat
          = (dotSector 0 0).clip 512 := by
  have hlba := (Partition.formatted startLba secCnt h1 h2).toNat_blockLba (b := 0) (by omega)
  rw [hlba, Nat.add_zero]
  unfold Vol.image
  dsimp only
  rw [if_pos (Nat.le_refl _)]
  unfold formatVol formatDisk
  dsimp only
  rw [Nat.one_mul]
  exact Mem.block_blit_self

variable (hlarge : 620 ≤ secCnt.toNat)
include hlarge

theorem placed_formatted (h2 : startLba.toNat + secCnt.toNat ≤ 163840)
    : Placed startLba secCnt (superBlock startLba secCnt) :=
  placed (by omega) (by omega) (by omega)

theorem dataBlocks_large : 8 ≤ dataBlocks secCnt := by
  unfold dataBlocks
  omega

theorem slot_formatVol
    : ((formatVol startLba secCnt v).image (.formatted startLba secCnt h1 h2)).slot 0
        = dirInit 0 ((Partition.formatted startLba secCnt h1 h2).blockLba 0) := by
  have hp := placed_formatted hlarge h2
  have hroot : rootInode (superBlock startLba secCnt)
      = (dirInit 0 ((Partition.formatted startLba secCnt h1 h2).blockLba 0)).pure := by
    have hlba : (Partition.formatted startLba secCnt h1 h2).blockLba 0
        = (superBlock startLba secCnt).dataStartLba := by
      show (superBlock startLba secCnt).dataStartLba + UInt32.ofNat 0 = _
      exact UInt32.add_zero _
    rw [hlba]
    rfl
  unfold Vol.image
  dsimp only
  rw [if_pos (by omega)]
  rw [show dirInit 0 ((Partition.formatted startLba secCnt h1 h2).blockLba 0)
      = Inode.decode (rootInode (superBlock startLba secCnt)).encode by
          rw [hroot, Inode.decode_encode_pure]; rfl]
  apply Inode.decode_congr
  intro i hi
  unfold Inode.size at hi
  have haddr : (Partition.formatted startLba secCnt h1 h2).slotAddr 0
      = (startLba.toNat + 3 + bitmapSects secCnt) * 512 := by
    unfold Partition.slotAddr
    rw [Nat.zero_mul, Nat.add_zero, ← hp.inodeTable]
    rfl
  rw [Mem.shift_apply, haddr]
  unfold formatVol formatDisk
  dsimp only
  rw [hp.dataStart, hp.inodeTable, hp.tableSects]
  rw [Mem.blit_of_not_mem (by omega), Mem.blit_of_mem (by omega) (by omega),
    Mem.blit_of_mem (by omega) (by unfold Inode.size; omega)]
  congr 1
  omega

theorem blockUsed_formatVol {b : Nat} (hb : b < 4096 * bitmapSects secCnt)
    : ((formatVol startLba secCnt v).image (.formatted startLba secCnt h1 h2)).blockUsed b
        = decide (dataBlocks secCnt ≤ b ∨ b = 0) := by
  have h8 := dataBlocks_large hlarge
  refine (bit_formatVol (placed_formatted hlarge h2) hb).trans ?_
  rw [decide_eq_decide]
  omega

theorem inodeUsed_formatVol {n : Nat} (hn : n < 4096)
    : ((formatVol startLba secCnt v).image (.formatted startLba secCnt h1 h2)).inodeUsed n
        = decide (n = 0) := by
  have hp := placed_formatted hlarge h2
  have hbyte : ((formatVol startLba secCnt v).inodeBits) (n / 8) = inodeBitmap (n / 8) := by
    unfold formatVol
    dsimp only
    rw [hp.inodeSects, Mem.clip_of_lt (by omega), Mem.shift_apply]
    unfold formatDisk
    rw [hp.dataStart, hp.inodeTable, hp.tableSects, hp.inodeBitmap, hp.inodeSects]
    rw [Mem.blit_of_not_mem (by omega), Mem.blit_of_not_mem (by omega),
      Mem.blit_of_mem (by omega) (by omega)]
    congr 1
    omega
  show (formatVol startLba secCnt v).inodeBits.bit n = _
  have hzero : Mem.zero.bit n = false := Nat.zero_testBit _
  rw [Mem.bit, hbyte, ← Mem.bit, inodeBitmap, Mem.bit_setBit, hzero]
  split
  . next h0 => rw [← h0]; rfl
  . next h0 => rw [decide_eq_false (Ne.symm h0)]

end Image

section Root

variable {part : Partition} {a : Image}

theorem dirent_root (hsec : a.sec (part.blockLba 0).toNat = (dotSector 0 0).clip 512) {i k : Nat}
    (hi : i < 140) (hk : k < 21)
    : a.dirent (dirInit 0 (part.blockLba 0)) i k
        =
      if i = 0 then
        some (if k = 0 then DirEntry.new [46] 0 .directory
          else if k = 1 then DirEntry.new [46, 46] 0 .directory
          else DirEntry.blank)
      else none := by
  have hset : a.setSec (part.blockLba 0).toNat (dotSector 0 0) = a := by
    unfold Image.setSec
    rw [← hsec, Function.update_eq_self]
  have hent := @dirent_dirInit part a 0 0 i k 0 (by omega) hi hk
  rw [show (dotSector (UInt32.ofNat 0) 0) = dotSector 0 0 from rfl, hset] at hent
  exact hent

theorem Tree.root_size {x : Inode} {d : Nat} : (Tree.root x).size d = 0 := by
  apply Finset.sum_eq_zero
  intro m _
  unfold Tree.share
  split <;> rfl

theorem Tree.root_node {x y : Inode} {n : Nat} (h : (Tree.root x).node n = some y)
    : n = 0 ∧ y = x := by
  unfold Tree.root at h
  dsimp only at h
  split at h
  . next h0 => exact ⟨h0, (Option.some.inj h).symm⟩
  . contradiction

theorem treeInv_root (hsec : a.sec (part.blockLba 0).toNat = (dotSector 0 0).clip 512)
    (hpos : 0 < part.bitLen) (hused : ∀ b < 4096 * part.sb.blockBitmapSects.toNat, a.blockUsed b
    = decide (part.bitLen ≤ b ∨ b = 0))
    : TreeInv part true none a (Tree.root (dirInit 0 (part.blockLba 0))) := by
  have hle := part.bitLen_le
  have hbits := part.layout.bits
  have hne : part.blockLba 0 ≠ 0 := (part.isData_blockLba (by omega)).ne_zero
  have hrefs : ∀ p, (Tree.root (dirInit 0 (part.blockLba 0))).refs a p = if p = (0, 0)
      then part.blockLba 0 else 0 := by
    rintro ⟨n, j⟩
    unfold Tree.refs Tree.root
    dsimp only
    by_cases h0 : n = 0
    . rw [if_pos h0]
      dsimp only
      rw [refs_dirInit]
      simp only [Prod.mk.injEq, h0, true_and]
    . rw [if_neg h0, if_neg (by simp only [Prod.mk.injEq, h0, false_and, not_false_eq_true])]
  have hat : ∀ p, (Tree.root (dirInit 0 (part.blockLba 0))).refs a p ≠ 0 → p = (0, 0) := by
    intro p hp
    by_contra h0
    rw [hrefs, if_neg h0] at hp
    exact hp rfl
  have hblank : ∀ i < 140, ∀ k < 21, OtherSlot i k → ∀ e, a.dirent (dirInit 0 (part.blockLba 0)) i k
      = some e →
      e = DirEntry.blank := by
    intro i hi k hk ho e he
    rw [dirent_root hsec hi hk] at he
    split at he
    . next h0 =>
      have hk2 : ¬ k < 2 := fun h => ho ⟨h0, h⟩
      rw [if_neg (by omega), if_neg (by omega), Option.some.injEq] at he
      exact he.symm
    . contradiction
  constructor
  . intro b h1 h2
    rw [hused b h2, decide_eq_true (.inl h1)]
  . intro n ino hn
    obtain ⟨rfl, rfl⟩ := Tree.root_node hn
    exact ⟨by omega, rfl⟩
  . exact ⟨rfl, rfl, rfl⟩
  . intro n ino hn
    exact .inr rfl
  . intro n ino hn
    exact ⟨rfl, rfl⟩
  . intro n ino hn
    exact ⟨1, rfl⟩
  . intro n ino hn
    exact ⟨Nat.zero_le _, fun h0 => absurd (Tree.root_node hn).1 h0⟩
  . constructor
    . exact hle
    . intro p hp
      rw [hrefs, if_pos (hat p hp)]
      exact part.inArea_blockLba hpos hle
    . intro p hp
      rw [hrefs, if_pos (hat p hp), Partition.blockIdx_blockLba (by omega), hused 0 (by omega)]
      exact decide_eq_true (.inr rfl)
    . intro p q hp hpq
      rw [hat p hp, hat q (by rw [← hpq]; exact hp)]
  . intro _ b hb hu
    rw [hused b (by omega), decide_eq_true_iff] at hu
    have hb0 : b = 0 := by omega
    exact ⟨(0, 0), by rw [hrefs, if_pos rfl, hb0]⟩
  . intro n ino hn hty
    contradiction
  . intro n ino hn hty
    obtain ⟨rfl, rfl⟩ := Tree.root_node hn
    constructor
    . exact dirent_root hsec (by omega) (by omega)
    . exact dirent_root hsec (by omega) (by omega)
    . intro i hi k hk ho e he
      exact .inl (hblank i hi k hk ho e he)
    . intro i hi k hk j hj l hl ho ho' e e' he he' h0
      rw [hblank i hi k hk ho e he] at h0
      exact absurd rfl h0
    . intro i hi k hk ho e he h0
      rw [hblank i hi k hk ho e he] at h0
      exact absurd rfl h0
    . rw [Tree.root_size]
      rfl
    . constructor
      . intro i hi h0 e he
        rw [dirent_root hsec hi (by omega), if_neg h0] at he
        contradiction
      . intro h12
        rw [dirInit_sector] at h12
        exact absurd rfl h12
  . intro _ n p hn h0
    obtain ⟨x, hx⟩ := Option.isSome_iff_exists.mp hn
    exact absurd (Tree.root_node hx).1 h0

end Root

theorem Formatted.holds (hlarge : 620 ≤ secCnt.toNat)
    (h : Formatted (.formatted startLba secCnt h1 h2) v s)
    : s.Holds (.formatted startLba secCnt h1 h2) true
        (.root (dirInit 0 ((Partition.formatted startLba secCnt h1 h2).blockLba 0))) := by
  have hp := placed_formatted hlarge h2
  have hvol := h.vol_eq hlarge
  have h8 := dataBlocks_large hlarge
  have hmount := h.mounted
  rw [hvol] at hmount
  have hlook : ∀ a i, s.inode? a = some i → a = 0
      ∧ i = { dirInit 0 ((Partition.formatted startLba secCnt h1 h2).blockLba 0) with
          iOpenCnts := 1 } := by
    intro a i hi
    have hcons : s.inode? a = if a = 0 then
        some { dirInit 0 ((Partition.formatted startLba secCnt h1 h2).blockLba 0) with
          iOpenCnts := 1 } else none := by
      rw [hmount.eq, slot_formatVol hlarge]
      exact Assoc.lookup_cons
    rw [hi] at hcons
    split at hcons
    . next h0 => exact ⟨h0, Option.some.inj hcons⟩
    . contradiction
  refine ⟨?_, ⟨?_, ?_⟩, ⟨⟨?_, ?_, ?_⟩, ?_, ?_⟩, _, hmount.counted⟩
  . rw [hvol]
    apply treeInv_root sec_formatVol
    . show 0 < (blockBitmapBitLen secCnt).toNat
      rw [hp.bitLen]
      omega
    . intro b hb
      have hb' : b < 4096 * bitmapSects secCnt := by
        rw [← hp.sects]
        exact hb
      rw [blockUsed_formatVol hlarge hb', decide_eq_decide, ← hp.bitLen]
      rfl
  . intro n x hn
    obtain ⟨rfl, rfl⟩ := Tree.root_node hn
    rw [hvol, slot_formatVol hlarge]
    exact ⟨rfl, rfl⟩
  . intro n hn
    rw [hvol, inodeUsed_formatVol hlarge hn, decide_eq_true_iff]
    unfold Tree.root
    dsimp only
    split
    . next h0 => exact iff_of_true h0 rfl
    . next h0 => exact iff_of_false h0 (by simp)
  . intro a i hi
    rw [(hlook a i hi).2]
    rfl
  . intro a b i j hi hj _
    rw [(hlook a i hi).1, (hlook b j hj).1]
  . intro i hi
    rw [(hlook _ i hi).2]
    rfl
  . intro g a i hg hi
    rw [hmount.eq] at hg
    contradiction
  . intro a i hi hty
    contradiction

end RogOS
