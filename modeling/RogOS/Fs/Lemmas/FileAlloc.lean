import RogOS.Fs.Impl.File
import RogOS.Fs.Lemmas.Ownership

/-!
The blocks that `file_write` allocates before it writes the data.
-/

namespace RogOS

variable {part : Partition} {lim : Nat}

namespace Inode

def SameMeta (x y : Inode) : Prop :=
  x.iNo = y.iNo ∧ x.iSize = y.iSize ∧ x.iOpenCnts = y.iOpenCnts ∧ x.writeDeny = y.writeDeny

theorem SameMeta.refl {x : Inode} : x.SameMeta x := ⟨rfl, rfl, rfl, rfl⟩

theorem SameMeta.trans {x y z : Inode} (h1 : x.SameMeta y) (h2 : y.SameMeta z) : x.SameMeta z :=
  ⟨h1.1.trans h2.1, h1.2.1.trans h2.2.1, h1.2.2.1.trans h2.2.2.1, h1.2.2.2.trans h2.2.2.2⟩

theorem SameMeta.setSector {x : Inode} {i : Nat} {lba : UInt32} : x.SameMeta (x.setSector i lba) :=
  ⟨rfl, rfl, rfl, rfl⟩

end Inode

section Alloc

variable {blocks : Nat → UInt32} {ino : Inode} {i j : Nat}

def vref (blocks : Nat → UInt32) (ino : Inode) (j : Nat) : UInt32 :=
  if j < 12 then ino.sector j else if j < 140 then blocks j else if j = 140 then ino.sector 12
    else 0

theorem vref_update_of_lt {lba : UInt32} (hi : i < 12)
    : vref (Function.update blocks i lba) (ino.setSector i lba) j
        =
      if j = i then lba else vref blocks ino j := by
  unfold vref
  by_cases hj : j = i
  . rw [if_pos hj, hj, if_pos hi, Inode.sector_setSector_self (by omega)]
  . rw [if_neg hj, Inode.sector_setSector_of_ne (by omega) (Ne.symm hj),
      Inode.sector_setSector_of_ne (by omega) (by omega), Function.update_of_ne hj]

theorem vref_update_of_ge {lba : UInt32} (hi : 12 ≤ i) (hi' : i < 140)
    : vref (Function.update blocks i lba) ino j = if j = i then lba else vref blocks ino j := by
  unfold vref
  by_cases hj : j = i
  . rw [if_pos hj, hj, if_neg (by omega), if_pos hi', Function.update_self]
  . rw [if_neg hj, Function.update_of_ne hj]

theorem Image.FreeBelow.setBlockUsed {a : Image} {b : Nat} (h : a.FreeBelow part lim)
    : (a.setBlockUsed b true).FreeBelow part lim := by
  intro c hc hfree
  rw [blockUsed_setBlockUsed] at hfree
  split at hfree
  . contradiction
  . exact h c hc hfree

structure Allocated (part : Partition) (lim i n : Nat) (blocks : Nat → UInt32) (ino : Inode)
    (a : Image) (blocks' : Nat → UInt32) (ino' : Inode) (a' : Image) : Prop where
  ext : Extends part lim a a' (vref blocks ino) (vref blocks' ino')
  keeps : Keeps (vref blocks ino) (vref blocks' ino')
  free : a'.FreeBelow part lim
  sec : a'.sec = a.sec
  same : ino.SameMeta ino'
  outside : ∀ j, j < i ∨ i + n ≤ j → blocks' j = blocks j ∧ vref blocks' ino' j = vref blocks ino j
  inside : ∀ j, i ≤ j → j < i + n → blocks' j ≠ 0 ∧ vref blocks' ino' j = blocks' j

theorem Allocated.single {a : Image} {b : Nat} {blocks' : Nat → UInt32} {ino' : Inode}
    (hown : Ownership part lim a.blockUsed (vref blocks ino)) (hfree : a.FreeBelow part lim)
    (hb : a.FreeBlock part b) (h0 : vref blocks ino i = 0) (hsame : ino.SameMeta ino')
    (hblocks : ∀ j, blocks' j = if j = i then part.blockLba b else blocks j)
    (hvref : ∀ j, vref blocks' ino' j = if j = i then part.blockLba b else vref blocks ino j)
    : Allocated part lim i 1 blocks ino a blocks' ino' (a.setBlockUsed b true) where
  ext := by
    apply Extends.alloc hown hb (hfree b hb.lt hb.clear) i
    . rw [hvref, if_pos rfl]
    . intro p hp
      rw [hvref, if_neg hp]
  keeps := by
    apply Keeps.of_zero i h0
    intro p hp
    rw [hvref, if_neg hp]
  free := hfree.setBlockUsed
  sec := rfl
  same := hsame
  outside := by
    intro j hj
    rw [hblocks, hvref, if_neg (by omega), if_neg (by omega)]
    exact ⟨rfl, rfl⟩
  inside := by
    intro j h1 h2
    rw [hblocks, hvref, if_pos (by omega), if_pos (by omega)]
    exact ⟨(part.isData_blockLba hb.lt_max).ne_zero, rfl⟩

theorem Allocated.trans {n m : Nat} {a a' a'' : Image} {blocks' blocks'' : Nat → UInt32}
    {ino' ino'' : Inode} (h1 : Allocated part lim i n blocks ino a blocks' ino' a')
    (h2 : Allocated part lim (i + n) m blocks' ino' a' blocks'' ino'' a'')
    : Allocated part lim i (n + m) blocks ino a blocks'' ino'' a'' where
  ext := h1.ext.trans h2.ext h2.keeps
  keeps := h1.keeps.trans h2.keeps
  free := h2.free
  sec := by rw [h2.sec, h1.sec]
  same := h1.same.trans h2.same
  outside := by
    intro j hj
    have g1 := h1.outside j (by omega)
    have g2 := h2.outside j (by omega)
    rw [g2.1, g2.2, g1.1, g1.2]
    exact ⟨rfl, rfl⟩
  inside := by
    intro j hj1 hj2
    by_cases hj : j < i + n
    . have g1 := h1.inside j hj1 hj
      have g2 := h2.outside j (by omega)
      rw [g2.1, g2.2]
      exact g1
    . exact h2.inside j (by omega) (by omega)

theorem Allocated.refl {a : Image} (hown : Ownership part lim a.blockUsed (vref blocks ino))
    (hfree : a.FreeBelow part lim) : Allocated part lim i 0 blocks ino a blocks ino a where
  ext := Extends.refl hown
  keeps := Keeps.refl
  free := hfree
  sec := rfl
  same := Inode.SameMeta.refl
  outside := fun _ _ => ⟨rfl, rfl⟩
  inside := by
    intro j h1 h2
    omega

theorem allocBlocks_run {n : Nat} {v : Vol} {r : (Bool × (Nat → UInt32) × Inode) × Vol}
    (hi : i + n ≤ 140) (hown : Ownership part lim (v.image part).blockUsed (vref blocks ino))
    (hfree : (v.image part).FreeBelow part lim)
    (hzero : ∀ j, i ≤ j → j < i + n → 12 ≤ j → blocks j = 0)
    (h : (fileWrite.allocBlocks part (blockBitmapAlloc part) n i blocks ino).run v = .ok r)
    : r.1.1 = true
        ∧ Allocated part lim i n blocks ino (v.image part) r.1.2.1 r.1.2.2 (r.2.image part) := by
  induction n generalizing i blocks ino v with
  | zero =>
    rw [fileWrite.allocBlocks, Cmd.pure_run] at h
    rw [h]
    exact ⟨rfl, Allocated.refl hown hfree⟩
  | succ n ih =>
    simp only [fileWrite.allocBlocks, Cmd.bind_run] at h
    obtain ⟨o, v1, h1, h2⟩ := h
    obtain ⟨b, hb, ho, hv1⟩ := blockBitmapAlloc_image h1
    dsimp only at ho hv1
    rw [ho] at h2
    dsimp only at h2
    split at h2
    . next hlt =>
      simp only [Cmd.bind_run, Cmd.assert_run] at h2
      obtain ⟨_, _, ⟨h0, h3⟩, _, v2, h4, h5⟩ := h2
      cases h3
      have hv2 := bitmapSync_blockLba hb h4
      dsimp only at hv2
      have hstep := Allocated.single (i := i) hown hfree hb (by simpa [vref, hlt] using h0)
        Inode.SameMeta.setSector
        (fun j => Function.update_apply blocks i (part.blockLba b) j) (fun j =>
          vref_update_of_lt hlt)
      rw [← hv1, ← hv2] at hstep
      obtain ⟨hr, hrest⟩ := ih (by omega) hstep.ext.own hstep.free (by
        intro j hj1 hj2 hj3
        rw [Function.update_of_ne (by omega)]
        exact hzero j (by omega) (by omega) hj3) h5
      rw [Nat.add_comm n 1]
      exact ⟨hr, hstep.trans hrest⟩
    . next hge =>
      simp only [Cmd.bind_run] at h2
      obtain ⟨_, v2, h4, h5⟩ := h2
      have hv2 := bitmapSync_blockLba hb h4
      dsimp only at hv2
      have hz : vref blocks ino i = 0 := by
        rw [vref, if_neg hge, if_pos (by omega)]
        exact hzero i (by omega) (by omega) (by omega)
      have hstep := Allocated.single (i := i) hown hfree hb hz (Inode.SameMeta.refl (x := ino))
        (fun j => Function.update_apply blocks i (part.blockLba b) j)
        (fun j => vref_update_of_ge (by omega) (by omega))
      rw [← hv1, ← hv2] at hstep
      obtain ⟨hr, hrest⟩ := ih (by omega) hstep.ext.own hstep.free (by
        intro j hj1 hj2 hj3
        rw [Function.update_of_ne (by omega)]
        exact hzero j (by omega) (by omega) hj3) h5
      rw [Nat.add_comm n 1]
      exact ⟨hr, hstep.trans hrest⟩

end Alloc

section Collect

variable {blocks : Nat → UInt32} {ino : Inode} {a : Image} {j : Nat}

structure Image.HasBlocks (a : Image) (ino : Inode) (n : Nat) : Prop where
  block : ∀ j < 140, (a.ref ino j ≠ 0 ↔ j < n)
  table : ino.sector 12 ≠ 0 ↔ 12 < n

theorem vref_eq_refs (h : ∀ j, 12 ≤ j → j < 140 → blocks j = a.block ino j)
    : vref blocks ino = a.refs ino := by
  funext j
  unfold vref Image.refs
  by_cases hj : j < 12
  . rw [if_pos hj, if_pos (by omega), Image.ref_direct hj]
  . rw [if_neg hj]
    by_cases hj' : j < 140
    . rw [if_pos hj', if_pos (by omega), Image.ref_of_lt hj', h j (by omega) hj']
    . rw [if_neg hj']
      by_cases hj'' : j = 140
      . rw [if_pos hj'', if_pos (by omega), hj'', Image.ref_table]
      . rw [if_neg hj'', if_neg (by omega)]

theorem block_of_no_table (h12 : ino.sector 12 = 0) (hj : 12 ≤ j) : a.block ino j = 0 := by
  rw [Image.block_of_ge hj, h12]
  simp

theorem vref_eq_refs_of_no_table (h12 : ino.sector 12 = 0)
    (h : ∀ j, 12 ≤ j → j < 140 → blocks j = 0)
    : vref blocks ino = a.refs ino := by
  apply vref_eq_refs
  intro j hj hj'
  rw [h j hj hj', block_of_no_table h12 hj]

theorem vref_eq_refs_setSec (h12 : ino.sector 12 ≠ 0)
    : vref blocks ino = (a.setSec (ino.sector 12).toNat (fileWrite.tableOf blocks)).refs ino := by
  apply vref_eq_refs
  intro j hj hj'
  rw [Image.block_of_ge hj, if_pos h12, Image.sec_setSec_self, Mem.word_clip (by omega),
    fileWrite.tableOf, Mem.word_ofWords, Nat.sub_add_cancel hj]

theorem refs_ne_zero (h : a.refs ino j ≠ 0) : j < 141 := by
  by_contra hj
  simp [Image.refs, hj] at h

theorem readTable_run {v : Vol} (h12 : ino.sector 12 ≠ 0) (hdata : part.IsData (ino.sector 12))
    {r : (Nat → UInt32) × Vol} (h : (fileWrite.readTable blocks ino).run v = .ok r)
    : r.2 = v ∧ ∀ j, r.1 j = if j < 12 then blocks j else (v.image part).block ino j := by
  simp only [fileWrite.readTable, Cmd.bind_run, ideRead_data hdata, Cmd.pure_run] at h
  obtain ⟨_, _, ⟨-, h1⟩, h2⟩ := h
  cases h1
  rw [h2]
  refine ⟨rfl, ?_⟩
  intro j
  dsimp only
  by_cases hj : j < 12
  . rw [if_pos hj, if_pos hj]
  . rw [if_neg hj, if_neg hj, Image.block_of_ge (by omega), if_pos h12]

structure Collected (part : Partition) (lim lo n : Nat) (ino : Inode) (a : Image)
    (blocks' : Nat → UInt32) (ino' : Inode) (a' : Image) : Prop where
  ext : Extends part lim a a' (a.refs ino) (a'.refs ino')
  keeps : Keeps (a.refs ino) (a'.refs ino')
  free : a'.FreeBelow part lim
  same : ino.SameMeta ino'
  has : a'.HasBlocks ino' n
  blocks : ∀ j, lo ≤ j → j < n → blocks' j = a'.ref ino' j
  sec : ∀ lba, (ino'.sector 12 ≠ 0 → (ino'.sector 12).toNat ≠ lba) → a'.sec lba = a.sec lba

theorem Allocated.hasBlocks {k n : Nat} {a' : Image} {blocks' : Nat → UInt32} {ino' : Inode}
    (h : Allocated part lim k n blocks ino a blocks' ino' a')
    (hhas : ∀ j < 140, (vref blocks ino j ≠ 0 ↔ j < k)) (hj : j < 140)
    : vref blocks' ino' j ≠ 0 ↔ j < k + n := by
  by_cases h1 : k ≤ j ∧ j < k + n
  . have := h.inside j h1.1 h1.2
    rw [this.2]
    simp [this.1, h1.2]
  . have := h.outside j (by omega)
    rw [this.2, hhas j hj]
    omega

theorem Image.HasBlocks.of_vref {n : Nat} (hv : vref blocks ino = a.refs ino)
    (hblock : ∀ j < 140, (vref blocks ino j ≠ 0 ↔ j < n)) (htable : ino.sector 12 ≠ 0 ↔ 12 < n)
    : a.HasBlocks ino n where
  block j hj := by
    rw [← refs_of_lt (by omega), ← hv]
    exact hblock j hj
  table := htable

theorem Image.HasBlocks.vref_iff {n : Nat} (h : a.HasBlocks ino n)
    (hv : vref blocks ino = a.refs ino) (hj : j < 140) : vref blocks ino j ≠ 0 ↔ j < n := by
  rw [hv, Image.refs_of_lt (by omega)]
  exact h.block j hj

theorem Allocated.setTable {k n : Nat} {a' : Image} {blocks' : Nat → UInt32} {ino' : Inode}
    (h : Allocated part lim k n blocks ino a blocks' ino' a') (h12 : ino'.sector 12 ≠ 0)
    : Extends part lim a (a'.setSec (ino'.sector 12).toNat (fileWrite.tableOf blocks'))
        (vref blocks ino) (vref blocks' ino') := by
  have hw := Extends.write (j := 140) (m := fileWrite.tableOf blocks') h.ext.own h12
  exact h.ext.trans hw Keeps.refl

theorem Collected.direct {k n : Nat} {a' : Image} {blocks' : Nat → UInt32} {ino' : Inode}
    (h : Allocated part lim k n blocks ino a blocks' ino' a') (hk : 1 ≤ k) (hn : k + n ≤ 12)
    (hhas : a.HasBlocks ino k) (hblocks : ∀ j, 12 ≤ j → j < 140 → blocks j = 0)
    (hlast : blocks (k - 1) = ino.sector (k - 1))
    : Collected part lim (k - 1) (k + n) ino a blocks' ino' a' := by
  have h12 : ino.sector 12 = 0 := by
    by_contra h0
    have := hhas.table.mp h0
    omega
  have h12' : ino'.sector 12 = 0 := by
    have := (h.outside 140 (by omega)).2
    simpa [vref, h12] using this
  have hv : vref blocks ino = a.refs ino := vref_eq_refs_of_no_table h12 hblocks
  have hv' : vref blocks' ino' = a'.refs ino' := by
    apply vref_eq_refs_of_no_table h12'
    intro j hj hj'
    rw [(h.outside j (by omega)).1, hblocks j hj hj']
  constructor
  . rw [← hv, ← hv']
    exact h.ext
  . rw [← hv, ← hv']
    exact h.keeps
  . exact h.free
  . exact h.same
  . apply Image.HasBlocks.of_vref hv'
    . intro j hj
      exact h.hasBlocks (fun j hj => hhas.vref_iff hv hj) hj
    . simp only [h12', ne_eq, not_true_eq_false, false_iff]
      omega
  . intro j hj1 hj2
    rw [← Image.refs_of_lt (by omega), ← hv']
    by_cases hj : j < k
    . have hj' : j = k - 1 := by omega
      have := h.outside j (by omega)
      rw [this.1, this.2, hj', hlast, vref, if_pos (by omega)]
    . exact ((h.inside j (by omega) (by omega)).2).symm
  . intro lba _
    rw [h.sec]

theorem Collected.indirect {k n : Nat} {a' : Image} {blocks' : Nat → UInt32} {ino' : Inode}
    (h : Allocated part lim k n blocks ino a blocks' ino' a') (hk : 12 < k) (hn : k + n ≤ 140)
    (hhas : a.HasBlocks ino k) (hblocks : ∀ j, 12 ≤ j → j < 140 → blocks j = a.block ino j)
    : Collected part lim (k - 1) (k + n) ino a blocks' ino'
        (a'.setSec (ino'.sector 12).toNat (fileWrite.tableOf blocks')) := by
  have h12 : ino.sector 12 ≠ 0 := hhas.table.mpr hk
  have h12' : ino'.sector 12 = ino.sector 12 := by
    have := (h.outside 140 (by omega)).2
    simpa [vref] using this
  rw [← h12'] at h12
  have hv : vref blocks ino = a.refs ino := vref_eq_refs hblocks
  have hv' := @vref_eq_refs_setSec blocks' ino' a' h12
  constructor
  . rw [← hv, ← hv']
    exact h.setTable h12
  . rw [← hv, ← hv']
    exact h.keeps
  . exact h.free
  . exact h.same
  . apply Image.HasBlocks.of_vref hv'
    . intro j hj
      exact h.hasBlocks (fun j hj => hhas.vref_iff hv hj) hj
    . simp only [h12, ne_eq, not_false_eq_true, true_iff]
      omega
  . intro j hj1 hj2
    rw [← Image.refs_of_lt (by omega), ← hv']
    by_cases hj : j < k
    . have := h.outside j (by omega)
      rw [this.1, this.2, vref, if_neg (by omega), if_pos (by omega)]
    . exact ((h.inside j (by omega) (by omega)).2).symm
  . intro lba hlba
    rw [Image.sec_setSec_of_ne (Ne.symm (hlba h12)), h.sec]

theorem vref_setSector_table {lba : UInt32}
    : vref blocks (ino.setSector 12 lba) j = if j = 140 then lba else vref blocks ino j := by
  unfold vref
  by_cases hj : j < 12
  . rw [if_pos hj, if_neg (by omega), if_pos hj, Inode.sector_setSector_of_ne (by omega) (by omega)]
  . rw [if_neg hj, if_neg hj, Inode.sector_setSector_self (by omega)]
    by_cases hj' : j = 140
    . simp [hj']
    . simp [hj']

theorem Extends.newTable {b : Nat} (hown : Ownership part lim a.blockUsed (vref blocks ino))
    (hfree : a.FreeBelow part lim) (hb : a.FreeBlock part b)
    : Extends part lim a (a.setBlockUsed b true) (vref blocks ino)
        (vref blocks (ino.setSector 12 (part.blockLba b))) := by
  apply Extends.alloc hown hb (hfree b hb.lt hb.clear) 140
  . rw [vref_setSector_table, if_pos rfl]
  . intro j hj
    rw [vref_setSector_table, if_neg hj]

theorem Collected.crossing {k n b : Nat} {a' : Image} {blocks' : Nat → UInt32} {ino' : Inode}
    (hown : Ownership part lim a.blockUsed (a.refs ino)) (hfree : a.FreeBelow part lim)
    (hb : a.FreeBlock part b)
    (h : Allocated part lim k n blocks (ino.setSector 12 (part.blockLba b)) (a.setBlockUsed b true)
      blocks' ino' a')
    (hk : 1 ≤ k) (hk' : k ≤ 12) (hn : 12 < k + n) (hn' : k + n ≤ 140)
    (hhas : a.HasBlocks ino k) (hblocks : ∀ j, 12 ≤ j → j < 140 → blocks j = 0)
    (hlast : blocks (k - 1) = ino.sector (k - 1))
    : Collected part lim (k - 1) (k + n) ino a blocks' ino'
        (a'.setSec (part.blockLba b).toNat (fileWrite.tableOf blocks')) := by
  have hne := (part.isData_blockLba hb.lt_max).ne_zero
  have h12 : ino.sector 12 = 0 := by
    by_contra h0
    have := hhas.table.mp h0
    omega
  have h12' : ino'.sector 12 = part.blockLba b := by
    have := (h.outside 140 (by omega)).2
    simpa [vref] using this
  have hv : vref blocks ino = a.refs ino := vref_eq_refs_of_no_table h12 hblocks
  have hv' := @vref_eq_refs_setSec blocks' ino' a' (by rw [h12']; exact hne)
  rw [h12'] at hv'
  have hkeep : Keeps (vref blocks ino) (vref blocks (ino.setSector 12 (part.blockLba b))) := by
    apply Keeps.of_zero 140
    . simp [vref, h12]
    . intro j hj
      rw [vref_setSector_table, if_neg hj]
  have hext := Extends.newTable (by rw [hv]; exact hown) hfree hb
  have htab := h.setTable (by rw [h12']; exact hne)
  rw [h12'] at htab
  constructor
  . rw [← hv, ← hv']
    exact hext.trans htab h.keeps
  . rw [← hv, ← hv']
    exact hkeep.trans h.keeps
  . exact h.free
  . exact Inode.SameMeta.setSector.trans h.same
  . apply Image.HasBlocks.of_vref hv'
    . intro j hj
      apply h.hasBlocks _ hj
      intro j hj
      rw [vref_setSector_table, if_neg (by omega)]
      exact hhas.vref_iff hv hj
    . rw [h12']
      simp only [ne_eq, hne, not_false_eq_true, true_iff]
      exact hn
  . intro j hj1 hj2
    rw [← Image.refs_of_lt (by omega), ← hv']
    by_cases hj : j < k
    . have hj' : j = k - 1 := by omega
      have := h.outside j (by omega)
      rw [this.1, this.2, vref_setSector_table, if_neg (by omega), hj', hlast, vref,
        if_pos (by omega)]
    . exact ((h.inside j (by omega) (by omega)).2).symm
  . intro lba hlba
    rw [h12'] at hlba
    rw [Image.sec_setSec_of_ne (Ne.symm (hlba hne)), h.sec]
    rfl

variable {v : Vol}

theorem inArea_table (hown : Ownership part lim a.blockUsed (a.refs ino)) (h12 : ino.sector 12 ≠ 0)
    : part.IsData (ino.sector 12) :=
  (hown.inArea 140 h12).isData

variable {hasUsed willUse : UInt32} {r : (Bool × (Nat → UInt32) × Inode) × Vol}

theorem sub_ne_zero (hlt : hasUsed.toNat < willUse.toNat) : (willUse - hasUsed = 0) = False := by
  simp only [eq_iff_iff, iff_false]
  intro h
  have h0 : (willUse - hasUsed).toNat = 0 := by
    rw [h]
    rfl
  rw [UInt32.toNat_sub] at h0
  have := willUse.toNat_lt
  omega

def lastBlock (ino : Inode) (k : Nat) : Nat → UInt32 :=
  Function.update fileWrite.noBlocks (k - 1) (ino.sector (k - 1))

theorem update_eq_lastBlock {k : Nat}
    : Function.update fileWrite.noBlocks (k - 1) (ino.sector (k - 1)) = lastBlock ino k := rfl

theorem lastBlock_of_ge {k : Nat} (hk : 1 ≤ k) (hk' : k ≤ 12) (hj : 12 ≤ j)
    : lastBlock ino k j = 0 := by
  rw [lastBlock, Function.update_of_ne (by omega)]
  rfl

theorem lastBlock_self {k : Nat} : lastBlock ino k (k - 1) = ino.sector (k - 1) := by
  rw [lastBlock, Function.update_self]

theorem vref_lastBlock {k : Nat} (hhas : a.HasBlocks ino k) (hk : 1 ≤ k) (hk' : k ≤ 12)
    : vref (lastBlock ino k) ino = a.refs ino := by
  apply vref_eq_refs_of_no_table
  . by_contra h0
    have := hhas.table.mp h0
    omega
  . intro j hj _
    exact lastBlock_of_ge hk hk' hj

section Cases

variable (h1 : 1 ≤ hasUsed.toNat) (h140 : willUse.toNat ≤ 140)
  (hown : Ownership part lim (v.image part).blockUsed ((v.image part).refs ino))
  (hfree : (v.image part).FreeBelow part lim) (hhas : (v.image part).HasBlocks ino hasUsed.toNat)
  (h : (fileWrite.collect part (blockBitmapAlloc part) hasUsed willUse ino).run v = .ok r)
include h1 h140 hown hfree hhas h

theorem collect_run_same (heq : willUse = hasUsed)
    : r.1.1 = true
        ∧ Collected part lim (hasUsed.toNat - 1) willUse.toNat ino (v.image part) r.1.2.1 r.1.2.2
            (r.2.image part) := by
  subst heq
  simp only [fileWrite.collect, UInt32.sub_self, ↓reduceIte] at h
  split at h
  . next hk =>
    rw [Cmd.pure_run, update_eq_lastBlock] at h
    rw [h]
    have hv := vref_lastBlock hhas h1 hk
    refine ⟨rfl, Collected.direct (Allocated.refl (by rw [hv]; exact hown) hfree) h1 hk hhas ?_
      lastBlock_self⟩
    intro j hj _
    exact lastBlock_of_ge h1 hk hj
  . next hk =>
    have hk' : 12 < willUse.toNat := UInt32.not_le.mp hk
    simp only [Cmd.bind_run, Cmd.assert_run, Cmd.pure_run] at h
    obtain ⟨_, _, ⟨h12, h2⟩, blocks, v1, h3, h4⟩ := h
    cases h2
    obtain ⟨h5, h6⟩ := readTable_run h12 (inArea_table hown h12) h3
    dsimp only at h5 h6
    rw [h4, h5]
    refine ⟨rfl, Extends.refl hown, Keeps.refl, hfree, Inode.SameMeta.refl, hhas, ?_, fun _ _ =>
      rfl⟩
    intro j hj1 hj2
    dsimp only
    rw [h6, if_neg (by omega), Image.ref_of_lt (by omega)]

variable (hlt : hasUsed.toNat < willUse.toNat)
include hlt

theorem collect_run_direct (hm : willUse.toNat ≤ 12)
    : r.1.1 = true
        ∧ Collected part lim (hasUsed.toNat - 1) willUse.toNat ino (v.image part) r.1.2.1 r.1.2.2
            (r.2.image part) := by
  have hm' : willUse ≤ 12 := hm
  have hsum : hasUsed.toNat + (willUse.toNat - hasUsed.toNat) = willUse.toNat := by omega
  simp only [fileWrite.collect, sub_ne_zero hlt, hm', ↓reduceIte, Cmd.bind_run, Cmd.assert_run,
    update_eq_lastBlock] at h
  obtain ⟨_, _, ⟨-, h2⟩, _, _, ⟨-, h3⟩, h4⟩ := h
  cases h2
  cases h3
  have hv := vref_lastBlock hhas h1 (by omega)
  obtain ⟨hr, halloc⟩ := allocBlocks_run (by omega) (by rw [hv]; exact hown) hfree
    (fun j _ _ hj => by omega) h4
  have hcol := Collected.direct halloc h1 (by omega) hhas
    (fun j hj _ => lastBlock_of_ge h1 (by omega) hj) lastBlock_self
  rw [hsum] at hcol
  exact ⟨hr, hcol⟩

theorem collect_run_crossing (hk : hasUsed.toNat ≤ 12) (hm : 12 < willUse.toNat)
    : r.1.1 = true
        ∧ Collected part lim (hasUsed.toNat - 1) willUse.toNat ino (v.image part) r.1.2.1 r.1.2.2
            (r.2.image part) := by
  have hk' : hasUsed ≤ 12 := hk
  have hm' : ¬ willUse ≤ 12 := UInt32.not_le.mpr hm
  have hsum : hasUsed.toNat + (willUse.toNat - hasUsed.toNat) = willUse.toNat := by omega
  simp only [fileWrite.collect, sub_ne_zero hlt, hm', hk', ↓reduceIte, Cmd.bind_run,
    update_eq_lastBlock] at h
  obtain ⟨o, v1, h2, h3⟩ := h
  obtain ⟨b, hb, ho, hv1⟩ := blockBitmapAlloc_image h2
  dsimp only at ho hv1
  rw [ho] at h3
  simp only [Cmd.bind_run, Cmd.assert_run] at h3
  obtain ⟨_, _, ⟨-, h4⟩, ⟨ok, blocks', ino'⟩, v2, h5, h6⟩ := h3
  cases h4
  have hv := vref_lastBlock hhas h1 hk
  have hstep := Extends.newTable (by rw [hv]; exact hown) hfree hb
  obtain ⟨hr, halloc⟩ := allocBlocks_run (by omega) (by rw [hv1]; exact hstep.own)
    (by rw [hv1]; exact hfree.setBlockUsed) (fun j _ _ hj => lastBlock_of_ge h1 hk hj) h5
  dsimp only at hr halloc
  rw [hr] at h6
  simp only [Cmd.bind_run, Cmd.pure_run] at h6
  obtain ⟨_, v3, h7, h8⟩ := h6
  have hv3 := ideWrite_data (part.isData_blockLba hb.lt_max) h7
  dsimp only at hv3
  rw [hv1] at halloc
  rw [h8]
  refine ⟨rfl, ?_⟩
  dsimp only
  rw [hv3, ← hsum]
  apply Collected.crossing hown hfree hb halloc h1 hk (by omega) (by omega) hhas
  . intro j hj _
    exact lastBlock_of_ge h1 hk hj
  . exact lastBlock_self

omit h1 in
theorem collect_run_indirect (hk : 12 < hasUsed.toNat)
    : r.1.1 = true
        ∧ Collected part lim (hasUsed.toNat - 1) willUse.toNat ino (v.image part) r.1.2.1 r.1.2.2
            (r.2.image part) := by
  have hk' : ¬ hasUsed ≤ 12 := UInt32.not_le.mpr hk
  have hm' : ¬ willUse ≤ 12 := UInt32.not_le.mpr (Nat.lt_trans hk hlt)
  have hsum : hasUsed.toNat + (willUse.toNat - hasUsed.toNat) = willUse.toNat := by omega
  simp only [fileWrite.collect, sub_ne_zero hlt, hm', hk', ↓reduceIte, Cmd.bind_run,
    Cmd.assert_run] at h
  obtain ⟨_, _, ⟨h12, h2⟩, blocks, v1, h3, ⟨ok, blocks', ino'⟩, v2, h4, h5⟩ := h
  cases h2
  obtain ⟨hv1, h6⟩ := readTable_run h12 (inArea_table hown h12) h3
  dsimp only at hv1 h6
  subst hv1
  have hblocks : ∀ j, 12 ≤ j → j < 140 → blocks j = (v1.image part).block ino j := by
    intro j hj _
    rw [h6, if_neg (by omega)]
  have hzero : ∀ j, hasUsed.toNat ≤ j → j < hasUsed.toNat + (willUse.toNat - hasUsed.toNat) → 12 ≤ j
      →
      blocks j = 0 := by
    intro j hj1 hj2 hj3
    rw [hblocks j hj3 (by omega), ← Image.ref_of_lt (by omega)]
    by_contra h0
    have := (hhas.block j (by omega)).mp h0
    omega
  obtain ⟨hr, halloc⟩ := allocBlocks_run (by omega) (by rw [vref_eq_refs hblocks]; exact hown) hfree
    hzero h4
  dsimp only at hr halloc
  rw [hr] at h5
  simp only [Cmd.bind_run, Cmd.pure_run] at h5
  obtain ⟨_, v3, h7, h8⟩ := h5
  have h12' : ino'.sector 12 = ino.sector 12 := by
    have := (halloc.outside 140 (by omega)).2
    simpa [vref] using this
  have hdata : part.IsData (ino'.sector 12) := by
    rw [h12']
    exact inArea_table hown h12
  have hv3 := ideWrite_data hdata h7
  dsimp only at hv3
  rw [h8]
  refine ⟨rfl, ?_⟩
  dsimp only
  rw [hv3, ← hsum]
  exact Collected.indirect halloc hk (by omega) hhas hblocks

end Cases

theorem collect_run (h1 : 1 ≤ hasUsed.toNat) (hle : hasUsed.toNat ≤ willUse.toNat)
    (h140 : willUse.toNat ≤ 140)
    (hown : Ownership part lim (v.image part).blockUsed ((v.image part).refs ino))
    (hfree : (v.image part).FreeBelow part lim) (hhas : (v.image part).HasBlocks ino hasUsed.toNat)
    (h : (fileWrite.collect part (blockBitmapAlloc part) hasUsed willUse ino).run v = .ok r)
    : r.1.1 = true
        ∧ Collected part lim (hasUsed.toNat - 1) willUse.toNat ino (v.image part) r.1.2.1 r.1.2.2
            (r.2.image part) := by
  by_cases heq : willUse.toNat = hasUsed.toNat
  . exact collect_run_same h1 h140 hown hfree hhas h (UInt32.toNat_inj.mp heq)
  . have hlt : hasUsed.toNat < willUse.toNat := by omega
    by_cases hm : willUse.toNat ≤ 12
    . exact collect_run_direct h1 h140 hown hfree hhas h hlt hm
    . by_cases hk : hasUsed.toNat ≤ 12
      . exact collect_run_crossing h1 h140 hown hfree hhas h hlt hk (by omega)
      . exact collect_run_indirect h140 hown hfree hhas h hlt (by omega)

end Collect

end RogOS
