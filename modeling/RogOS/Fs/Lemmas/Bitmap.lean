import RogOS.Fs.Lemmas.Volume

/-!
`bitmap_scan` finds the first clear bit, and allocating or freeing a bit changes the image of the
volume in this bit only.
-/

namespace RogOS

namespace bitmapScan

variable {bits : Mem} {byte : UInt8}

theorem freeByte_eq_some {n i j : Nat} (h : freeByte bits n i = some j)
    : i ≤ j ∧ j < i + n ∧ bits j ≠ 0xff ∧ ∀ k, i ≤ k → k < j → bits k = 0xff := by
  induction n generalizing i with
  | zero => simp [freeByte] at h
  | succ n ih =>
    unfold freeByte at h
    split at h
    . next hi =>
      obtain ⟨h1, h2, h3, h4⟩ := ih h
      refine ⟨by omega, by omega, h3, ?_⟩
      intro k hk1 hk2
      by_cases hki : k = i
      . rw [hki]
        simpa using hi
      . exact h4 k (by omega) hk2
    . next hi =>
      cases h
      refine ⟨by omega, by omega, by simpa using hi, ?_⟩
      intro k hk1 hk2
      omega

theorem mask_and_ne_zero {i : Nat} (hi : i < 8)
    : ((1 <<< UInt8.ofNat i) &&& byte != 0) = byte.toNat.testBit i := by
  have h : ((1 <<< UInt8.ofNat i) &&& byte = 0) ↔ byte.toNat.testBit i = false := by
    rw [← UInt8.toNat_inj, UInt8.toNat_and, Mem.toNat_mask hi, Nat.two_pow_and]
    cases byte.toNat.testBit i <;> simp
  cases hb : byte.toNat.testBit i with
  | false => simp [h.mpr hb]
  | true =>
    rw [bne_iff_ne]
    intro h0
    rw [h.mp h0] at hb
    contradiction

theorem freeBit_spec {n i : Nat} (hn : i + n ≤ 8)
    : freeBit byte n i ≤ i + n
        ∧ (∀ k, i ≤ k → k < freeBit byte n i → byte.toNat.testBit k = true)
        ∧ (freeBit byte n i < i + n → byte.toNat.testBit (freeBit byte n i) = false) := by
  induction n generalizing i with
  | zero =>
    simp only [freeBit]
    refine ⟨by omega, by intro k _ _; omega, by omega⟩
  | succ n ih =>
    unfold freeBit
    rw [mask_and_ne_zero (by omega)]
    split
    . next hi =>
      obtain ⟨h1, h2, h3⟩ := ih (i := i + 1) (by omega)
      refine ⟨by omega, ?_, by intro h; exact h3 (by omega)⟩
      intro k hk1 hk2
      by_cases hki : k = i
      . rw [hki]
        exact hi
      . exact h2 k (by omega) hk2
    . next hi =>
      refine ⟨by omega, by intro k _ _; omega, ?_⟩
      intro _
      simpa using hi

theorem testBit_of_le {k : Nat} (hk : 8 ≤ k) : byte.toNat.testBit k = false := by
  apply Nat.testBit_lt_two_pow
  apply Nat.lt_of_lt_of_le byte.toNat_lt
  exact Nat.pow_le_pow_right (by omega) hk

theorem eq_ff_of_testBit (h : ∀ k < 8, byte.toNat.testBit k = true) : byte = 0xff := by
  apply UInt8.toNat_inj.mp
  apply Nat.eq_of_testBit_eq
  intro k
  by_cases hk : k < 8
  . rw [h k hk]
    interval_cases k <;> rfl
  . rw [testBit_of_le (by omega), testBit_of_le (by omega)]

theorem testBit_ff {k : Nat} (hk : k < 8) : (0xff : UInt8).toNat.testBit k = true := by
  interval_cases k <;> rfl

end bitmapScan

structure FirstClear (bits : Mem) (len b : Nat) : Prop where
  lt : b < 8 * len
  clear : bits.bit b = false
  first : ∀ c < b, bits.bit c = true

theorem FirstClear.unique {bits : Mem} {len b c : Nat} (hb : FirstClear bits len b)
    (hc : FirstClear bits len c) : b = c := by
  have h1 := hb.first c
  have h2 := hc.first b
  rw [hc.clear] at h1
  rw [hb.clear] at h2
  simp only [Bool.false_eq_true, imp_false] at h1 h2
  omega

theorem bitmapScan_run {σ : Type} {btmp : Bitmap} {s : σ} {r : Option Nat × σ}
    (h : (bitmapScan btmp 1).run s = .ok r)
    : ∃ b, r = (some b, s) ∧ FirstClear btmp.bits btmp.btmpBytesLen b := by
  unfold bitmapScan at h
  split at h
  . exact absurd h Cmd.throw_run
  . next idxByte hbyte =>
    simp only [↓reduceIte, Cmd.pure_run] at h
    obtain ⟨-, h1, h2, h3⟩ := bitmapScan.freeByte_eq_some hbyte
    obtain ⟨h4, h5, h6⟩ :=
      @bitmapScan.freeBit_spec (btmp.bits idxByte) 8 0 (by omega)
    generalize bitmapScan.freeBit (btmp.bits idxByte) 8 0 = k at *
    have hk : k < 8 := by
      apply Nat.lt_of_le_of_ne (by omega)
      rintro rfl
      apply h2
      apply bitmapScan.eq_ff_of_testBit
      intro j hj
      exact h5 j (by omega) hj
    refine ⟨_, h, ⟨by omega, ?_, ?_⟩⟩
    . have e1 : (idxByte * 8 + k) / 8 = idxByte := by omega
      have e2 : (idxByte * 8 + k) % 8 = k := by omega
      rw [Mem.bit, e1, e2]
      exact h6 (by omega)
    . intro c hc
      rw [Mem.bit]
      by_cases hcb : c / 8 = idxByte
      . rw [hcb]
        exact h5 _ (by omega) (by omega)
      . rw [h3 _ (by omega) (by omega)]
        exact bitmapScan.testBit_ff (by omega)

def Bitmap.HasClear (btmp : Bitmap) : Prop := ∃ j < 8 * btmp.btmpBytesLen, btmp.bits.bit j = false

theorem bitmapScan.freeByte_eq_none {bits : Mem} {n i : Nat} (h : freeByte bits n i = none)
    : ∀ k, i ≤ k → k < i + n → bits k = 0xff := by
  induction n generalizing i with
  | zero =>
    intro k h1 h2
    omega
  | succ n ih =>
    unfold freeByte at h
    split at h
    . next hi =>
      intro k h1 h2
      by_cases hki : k = i
      . rw [hki]
        simpa using hi
      . exact ih h k (by omega) (by omega)
    . contradiction

theorem bitmapScan_of_hasClear {σ : Type} {btmp : Bitmap} {x : σ} (h : btmp.HasClear)
    : ∃ b, FirstClear btmp.bits btmp.btmpBytesLen b ∧ (bitmapScan btmp 1).run x
        = .ok (some b, x) := by
  obtain ⟨r, hr⟩ : ∃ r, (bitmapScan btmp 1).run x = .ok r := by
    unfold bitmapScan
    split
    . next hnone =>
      obtain ⟨j, hj, hbit⟩ := h
      rw [Mem.bit, bitmapScan.freeByte_eq_none hnone (j / 8) (Nat.zero_le _) (by omega),
        bitmapScan.testBit_ff (Nat.mod_lt _ (by omega))] at hbit
      contradiction
    . exact ⟨_, rfl⟩
  obtain ⟨b, rfl, hb⟩ := bitmapScan_run hr
  exact ⟨b, hb, hr⟩

theorem bitmapScan_of_full {σ : Type} {btmp : Bitmap} {x : σ} (h : ¬ btmp.HasClear)
    : (bitmapScan btmp 1).run x = .error .panic := by
  unfold bitmapScan
  split
  . rfl
  . next idxByte hbyte =>
    obtain ⟨-, hlt, hne, -⟩ := bitmapScan.freeByte_eq_some hbyte
    exfalso
    apply hne
    apply bitmapScan.eq_ff_of_testBit
    intro k hk
    by_contra hbit
    apply h
    refine ⟨8 * idxByte + k, by omega, ?_⟩
    have e1 : (8 * idxByte + k) / 8 = idxByte := by omega
    have e2 : (8 * idxByte + k) % 8 = k := by omega
    rw [Mem.bit, e1, e2]
    simpa using hbit

theorem bitmapScanTest_eq {btmp : Bitmap} {i : Nat} : bitmapScanTest btmp i = btmp.bits.bit i := by
  unfold bitmapScanTest
  rw [UInt8.and_comm]
  exact bitmapScan.mask_and_ne_zero (Nat.mod_lt _ (by omega))

theorem bitmapScan.run_clear {btmp : Bitmap} {cnt left next count b : Nat} (hle : count ≤ next)
    (hlt : count < cnt) (hclear : ∀ i < count, btmp.bits.bit (next - count + i) = false)
    (h : run btmp cnt left next count = some b)
    : b + cnt ≤ next + left ∧ ∀ i < cnt, btmp.bits.bit (b + i) = false := by
  induction left generalizing next count with
  | zero => cases h
  | succ left ih =>
    unfold run at h
    rw [bitmapScanTest_eq] at h
    dsimp only at h
    cases hbit : btmp.bits.bit next with
    | true =>
      rw [hbit, if_pos rfl, if_neg (by omega)] at h
      have := ih (by omega) (by omega) (fun i hi => absurd hi (by omega)) h
      exact ⟨by omega, this.2⟩
    | false =>
      have hall : ∀ i < count + 1, btmp.bits.bit (next + 1 - (count + 1) + i) = false := by
        intro i hi
        by_cases hlast : i = count
        . rw [show next + 1 - (count + 1) + i = next by omega]
          exact hbit
        . rw [show next + 1 - (count + 1) + i = next - count + i by omega]
          exact hclear i (by omega)
      rw [hbit, if_neg Bool.false_ne_true] at h
      split at h
      . next heq =>
        cases h
        subst heq
        exact ⟨by omega, hall⟩
      . next hne =>
        have := ih (by omega) (by omega) hall h
        exact ⟨by omega, this.2⟩

theorem bitmapScan_clear {σ : Type} {btmp : Bitmap} {cnt : UInt32} {b : Nat} {s : σ} {s' : σ}
    (hpos : 0 < cnt.toNat) (h : (bitmapScan btmp cnt).run s = .ok (some b, s'))
    : b + cnt.toNat ≤ 8 * btmp.btmpBytesLen + 1 ∧ ∀ i < cnt.toNat, btmp.bits.bit (b + i)
        = false := by
  by_cases hone : cnt = 1
  . subst hone
    obtain ⟨c, hc, hclear⟩ := bitmapScan_run h
    cases hc
    have hlt := hclear.lt
    show b + 1 ≤ _ ∧ ∀ i < 1, _
    refine ⟨by omega, ?_⟩
    intro i hi
    rw [show b + i = b by omega]
    exact hclear.clear
  . have hcnt : 1 < cnt.toNat := by
      have hne : cnt.toNat ≠ 1 := fun heq => hone (UInt32.toNat_inj.mp heq)
      omega
    -- the first clear bit is the one that a scan for a single bit finds
    have hfirst := @bitmapScan_run σ btmp s
    unfold bitmapScan at h hfirst
    split at h
    . exact absurd h Cmd.throw_run
    . next idxByte hbyte =>
      rw [hbyte] at hfirst
      dsimp only at h hfirst
      rw [if_pos rfl] at hfirst
      obtain ⟨c, hc, hclear⟩ := hfirst (Cmd.pure_run.mpr rfl)
      cases hc
      generalize idxByte * 8 + bitmapScan.freeBit (btmp.bits idxByte) 8 0 = c at *
      rw [if_neg hone] at h
      split at h
      . rw [Cmd.pure_run] at h
        cases h
      . rw [Cmd.pure_run, Prod.mk.injEq] at h
        have hlt := hclear.lt
        have hrun := bitmapScan.run_clear (by omega) hcnt ?_ h.1.symm
        . exact ⟨by omega, hrun.2⟩
        . intro i hi
          rw [show c + 1 - 1 + i = c by omega]
          exact hclear.clear

section Vol

variable {part : Partition} {v : Vol} {b : Nat}

theorem setBit_run {t : BitmapType} {val : Bool} {r : Unit × Vol}
    : (setBit part t b val).run v = .ok r
        ↔
      b / 8 < (v.bitmap part t).btmpBytesLen
        ∧ r = ((), v.setBits t ((v.bitmap part t).bits.setBit b val)) := by
  simp only [setBit, bitmapSet, Cmd.bind_run, Cmd.get_run, Cmd.assert_run, Cmd.pure_run,
    Cmd.modify_run]
  constructor
  . rintro ⟨_, _, h, _, _, ⟨_, _, ⟨h1, h2⟩, h3⟩, h4⟩
    cases h
    cases h2
    cases h3
    exact ⟨h1, h4⟩
  . rintro ⟨h1, h2⟩
    exact ⟨_, _, rfl, _, _, ⟨_, _, ⟨h1, rfl⟩, rfl⟩, h2⟩

theorem setBit_block {val : Bool} {r : Unit × Vol} (h : (setBit part .block b val).run v = .ok r)
    : b < 4096 * part.sb.blockBitmapSects.toNat
        ∧ r.2.image part = (v.image part).setBlockUsed b val := by
  rw [setBit_run] at h
  simp only [Vol.bitmap] at h
  refine ⟨by omega, ?_⟩
  rw [h.2]
  apply Image.ext
  . rfl
  . rfl
  . funext c
    simp only [Vol.image, Vol.setBits, Image.setBlockUsed, Mem.bit_setBit, Function.update_apply,
      eq_comm]
  . rfl

theorem setBit_inode {val : Bool} {r : Unit × Vol} (h : (setBit part .inode b val).run v = .ok r)
    : b < 4096 ∧ r.2.image part = (v.image part).setInodeUsed b val := by
  rw [setBit_run] at h
  simp only [Vol.bitmap] at h
  refine ⟨by omega, ?_⟩
  rw [h.2]
  apply Image.ext
  . rfl
  . rfl
  . rfl
  . funext c
    simp only [Vol.image, Vol.setBits, Image.setInodeUsed, Mem.bit_setBit, Function.update_apply,
      eq_comm]

def Partition.HasBit (part : Partition) (b : Nat) : BitmapType → Prop
  | .inode => b < 4096
  | .block => b < 4096 * part.sb.blockBitmapSects.toNat

theorem bitmapSync_image {t : BitmapType} (hb : part.HasBit b t) {r : Unit × Vol}
    (h : (bitmapSync part b t).run v = .ok r) : r.2.image part = v.image part := by
  have h1 := part.layout.blockBitmap
  have h2 := part.layout.inodeBitmap
  have h3 := part.layout.inodeTable
  have h4 := part.layout.dataStart
  have h5 := part.layout.blocks
  have h6 := part.layout.onDisk
  simp only [bitmapSync, Cmd.bind_run, Cmd.get_run, ideWrite_run] at h
  obtain ⟨_, _, h, -, hr⟩ := h
  cases h
  rw [hr]
  apply image_blit_bitmap
  cases t with
  | inode =>
    simp only [Partition.HasBit] at hb
    simp only [Partition.bitmapLba, UInt32.toNat_add, UInt32.toNat_ofNat']
    omega
  | block =>
    simp only [Partition.HasBit] at hb
    simp only [Partition.bitmapLba, UInt32.toNat_add, UInt32.toNat_ofNat']
    omega

theorem bitAlloc_run {t : BitmapType} {r : Option Nat × Vol} (h : (bitAlloc part t).run v = .ok r)
    : ∃ b, r.1 = some b ∧ FirstClear (v.bitmap part t).bits (v.bitmap part t).btmpBytesLen b
        ∧ (setBit part t b true).run v = .ok ((), r.2) := by
  simp only [bitAlloc, Cmd.bind_run, Cmd.get_run] at h
  obtain ⟨_, _, h, r', v', h1, h2⟩ := h
  cases h
  obtain ⟨b, hb, hclear⟩ := bitmapScan_run h1
  cases hb
  simp only [Cmd.bind_run, Cmd.pure_run] at h2
  obtain ⟨_, _, h2, h3⟩ := h2
  rw [h3]
  exact ⟨b, rfl, hclear, h2⟩

theorem bitAlloc_of_full {t : BitmapType} (h : ¬ (v.bitmap part t).HasClear)
    : (bitAlloc part t).run v = .error .panic := by
  rw [bitAlloc, Cmd.exec_get_bind, StateT.run_bind, bitmapScan_of_full h]
  rfl

theorem bitAlloc_of_firstClear {t : BitmapType} {b : Nat}
    (hb : FirstClear (v.bitmap part t).bits (v.bitmap part t).btmpBytesLen b)
    (hscan : (bitmapScan (v.bitmap part t) 1).run v = .ok (some b, v))
    : (bitAlloc part t).run v
        = .ok (some b, v.setBits t ((v.bitmap part t).bits.setBit b true)) := by
  have hlt : b / 8 < (v.bitmap part t).btmpBytesLen := by
    have := hb.lt
    omega
  rw [bitAlloc, Cmd.exec_get_bind, Cmd.exec_bind hscan]
  dsimp only
  rw [Cmd.exec_bind (setBit_run.mpr ⟨hlt, rfl⟩)]
  rfl

theorem blockBitmapAlloc_run {r : Option UInt32 × Vol}
    : (blockBitmapAlloc part).run v = .ok r
        ↔
      ∃ b, FirstClear v.blockBits (part.sb.blockBitmapSects.toNat * 512) b
        ∧ r = (some (part.blockLba b), { v with blockBits := v.blockBits.setBit b true }) := by
  rw [blockBitmapAlloc, Cmd.bind_run]
  constructor
  . rintro ⟨o, v1, h1, h2⟩
    rw [Cmd.pure_run] at h2
    obtain ⟨b, ho, hb, hset⟩ := bitAlloc_run h1
    dsimp only at ho hset
    rw [setBit_run] at hset
    rw [h2, ho, (Prod.mk.inj hset.2).2]
    exact ⟨b, hb, rfl⟩
  . rintro ⟨b, hb, rfl⟩
    obtain ⟨c, hc, hscan⟩ := @bitmapScan_of_hasClear Vol (v.bitmap part .block) v ⟨b, hb.lt,
        hb.clear⟩
    rw [show c = b from hc.unique hb] at hscan
    exact ⟨some b, _, bitAlloc_of_firstClear hb hscan, rfl⟩

theorem inodeBitmapAlloc_run {r : Option UInt32 × Vol} (h : (inodeBitmapAlloc part).run v = .ok r)
    : ∃ n, FirstClear v.inodeBits 512 n
        ∧ r = (some (UInt32.ofNat n), { v with inodeBits := v.inodeBits.setBit n true }) := by
  rw [inodeBitmapAlloc, Cmd.bind_run] at h
  obtain ⟨o, v1, h1, h2⟩ := h
  rw [Cmd.pure_run] at h2
  obtain ⟨n, ho, hn, hset⟩ := bitAlloc_run h1
  dsimp only at ho hset
  rw [setBit_run] at hset
  rw [h2, ho, (Prod.mk.inj hset.2).2]
  exact ⟨n, hn, rfl⟩

def Vol.synced (part : Partition) (v : Vol) (b : Nat) : Vol :=
  { v with
    disk := v.disk.blit ((part.sb.blockBitmapLba + UInt32.ofNat (b / 4096)).toNat * 512) (1 * 512)
      (v.blockBits.shift (b / 4096 * 512)) }

theorem bitmapSync_block (hb : b < 4096 * part.sb.blockBitmapSects.toNat)
    : (bitmapSync part b .block).run v = .ok ((), v.synced part b) := by
  have h1 := part.layout.inodeBitmap
  have h2 := part.layout.inodeTable
  have h3 := part.layout.dataStart
  have h4 := part.layout.blocks
  have h5 := part.layout.onDisk
  have hlba : (part.bitmapLba .block + UInt32.ofNat (b / 4096)).toNat + 256 * ((1 - 1) / 256)
      ≤ maxLba := by
    simp only [Partition.bitmapLba, UInt32.toNat_add, UInt32.toNat_ofNat', maxLba]
    omega
  rw [bitmapSync, Cmd.exec_get_bind]
  exact ideWrite_run.mpr ⟨hlba, rfl⟩

namespace Image

structure FreeBlock (part : Partition) (a : Image) (b : Nat) : Prop where
  lt : b < 4096 * part.sb.blockBitmapSects.toNat
  clear : a.blockUsed b = false
  first : ∀ c < b, a.blockUsed c = true

structure FreeInode (a : Image) (n : Nat) : Prop where
  lt : n < 4096
  clear : a.inodeUsed n = false
  first : ∀ m < n, a.inodeUsed m = true

end Image

theorem Image.FreeBlock.lt_max {a : Image} (h : a.FreeBlock part b) : b < 163840 := by
  have h1 := h.lt
  have h2 := part.sects_le
  omega

theorem blockBitmapAlloc_image {r : Option UInt32 × Vol} (h : (blockBitmapAlloc part).run v = .ok r)
    : ∃ b, (v.image part).FreeBlock part b ∧ r.1 = some (part.blockLba b)
        ∧ r.2.image part = (v.image part).setBlockUsed b true := by
  simp only [blockBitmapAlloc, Cmd.bind_run, Cmd.pure_run] at h
  obtain ⟨_, _, h, hr⟩ := h
  obtain ⟨b, h1, h2, h3⟩ := bitAlloc_run h
  simp only at h1
  rw [hr, h1]
  have h4 := (setBit_block h3).2
  refine ⟨b, ⟨(setBit_block h3).1, h2.clear, h2.first⟩, rfl, h4⟩

theorem inodeBitmapAlloc_image {r : Option UInt32 × Vol} (h : (inodeBitmapAlloc part).run v = .ok r)
    : ∃ n, (v.image part).FreeInode n ∧ r.1 = some (UInt32.ofNat n)
        ∧ r.2.image part = (v.image part).setInodeUsed n true := by
  simp only [inodeBitmapAlloc, Cmd.bind_run, Cmd.pure_run] at h
  obtain ⟨_, _, h, hr⟩ := h
  obtain ⟨n, h1, h2, h3⟩ := bitAlloc_run h
  simp only at h1
  rw [hr, h1]
  have h4 := (setBit_inode h3).2
  refine ⟨n, ⟨(setBit_inode h3).1, h2.clear, h2.first⟩, rfl, h4⟩

end Vol

end RogOS
