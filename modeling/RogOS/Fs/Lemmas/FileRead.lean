import RogOS.Fs.Lemmas.FileWrite

/-!
`file_read` delivers the contents of the file.
-/

namespace RogOS

variable {part : Partition} {lim : Nat} {v : Vol} {ino : Inode} {blocks : Nat → UInt32}

theorem readCollect_run {n lo hi : Nat}
    (hown : Ownership part lim (v.image part).blockUsed ((v.image part).refs ino))
    (hhas : (v.image part).HasBlocks ino n) (hhi : hi < n) (hhi' : hi < 140)
    {r : (Nat → UInt32) × Vol} (h : (fileRead.collect lo hi ino).run v = .ok r)
    : r.2 = v ∧ ∀ j, lo ≤ j → j ≤ hi → r.1 j = (v.image part).ref ino j := by
  unfold fileRead.collect at h
  split at h
  . next heq =>
    split at h
    . next hlt =>
      rw [Cmd.pure_run] at h
      rw [h]
      refine ⟨rfl, ?_⟩
      intro j hj1 hj2
      have hj : j = hi := by omega
      rw [hj, Image.ref_direct hlt]
      exact Function.update_self ..
    . next hge =>
      have h12 : ino.sector 12 ≠ 0 := hhas.table.mpr (by omega)
      obtain ⟨h1, h2⟩ := readTable_run h12 (inArea_table hown h12) h
      refine ⟨h1, ?_⟩
      intro j hj1 hj2
      rw [h2, if_neg (by omega), Image.ref_of_lt (by omega)]
  . split at h
    . next hlt =>
      rw [Cmd.pure_run] at h
      rw [h]
      refine ⟨rfl, ?_⟩
      intro j hj1 hj2
      dsimp only
      rw [if_pos ⟨hj1, hj2⟩, Image.ref_direct (by omega)]
    . split at h
      . simp only [Cmd.bind_run, Cmd.assert_run] at h
        obtain ⟨_, _, ⟨h12, h1⟩, h2⟩ := h
        cases h1
        obtain ⟨h3, h4⟩ := readTable_run h12 (inArea_table hown h12) h2
        refine ⟨h3, ?_⟩
        intro j hj1 hj2
        rw [h4, Image.ref_of_lt (by omega)]
        split
        . next hj => rw [Image.block_of_lt hj]
        . rfl
      . simp only [Cmd.bind_run, Cmd.assert_run] at h
        obtain ⟨_, _, ⟨h12, h1⟩, h2⟩ := h
        cases h1
        obtain ⟨h3, h4⟩ := readTable_run h12 (inArea_table hown h12) h2
        refine ⟨h3, ?_⟩
        intro j hj1 hj2
        rw [h4, if_neg (by omega), Image.ref_of_lt (by omega)]

structure Reading (p : Nat) (D : Nat → UInt8) (buf : Mem) (c : fileRead.Cursor) : Prop where
  pos : c.fdPos.toNat = p + c.bytesRead.toNat
  bytes : ∀ i < c.bytesRead.toNat, c.buf i = D (p + i)
  rest : ∀ i, c.bytesRead.toNat ≤ i → c.buf i = buf i

variable {p : Nat} {D : Nat → UInt8} {buf : Mem} {size : UInt32} {c : fileRead.Cursor}

theorem Reading.step (hR : Reading p D buf c) (hlt : c.bytesRead < size)
    (hp : p + size.toNat < 2 ^ 32) (hdata : part.IsData (blocks (c.fdPos.toNat / 512)))
    (hD : ∀ q < p + size.toNat, q / 512 = c.fdPos.toNat / 512 →
      (v.image part).sec (blocks (c.fdPos.toNat / 512)).toNat (q % 512) = D q)
    {r : fileRead.Cursor × Vol} (h : (fileRead.readChunk blocks size c).run v = .ok r)
    : r.2 = v ∧ Reading p D buf r.1 ∧ c.bytesRead.toNat < r.1.bytesRead.toNat
        ∧ r.1.bytesRead.toNat ≤ size.toNat := by
  have hdiv : (c.fdPos / 512).toNat = c.fdPos.toNat / 512 := by
    rw [UInt32.toNat_div]
    rfl
  have hmod : (c.fdPos % 512).toNat = c.fdPos.toNat % 512 := by
    rw [UInt32.toNat_mod]
    rfl
  simp only [fileRead.readChunk, Cmd.bind_run, Cmd.assert_run, Cmd.pure_run, hdiv, hmod,
    ideRead_data hdata] at h
  obtain ⟨_, _, ⟨h1, h2⟩, _, _, ⟨-, h3⟩, h4⟩ := h
  cases h2
  cases h3
  have hk := @toNat_chunkSize size c.bytesRead c.fdPos hlt
  generalize (if size - c.bytesRead < 512 - c.fdPos % 512 then size - c.bytesRead
    else 512 - c.fdPos % 512) = k at hk h4
  unfold chunk at hk
  have hlt' : c.bytesRead.toNat < size.toNat := hlt
  have hpos := hR.pos
  have hw : (c.bytesRead + k).toNat = c.bytesRead.toNat + k.toNat := by
    rw [UInt32.toNat_add]
    omega
  rw [h4]
  refine ⟨rfl, ?_, by dsimp only; omega, by dsimp only; omega⟩
  constructor
  . dsimp only
    rw [hw, UInt32.toNat_add]
    omega
  . intro i hi
    dsimp only at hi ⊢
    rw [hw] at hi
    by_cases hold : i < c.bytesRead.toNat
    . rw [Mem.blit_of_not_mem (by omega)]
      exact hR.bytes i hold
    . rw [Mem.blit_of_mem (by omega) (by omega), Mem.shift_apply]
      have hq : c.fdPos.toNat % 512 + (i - c.bytesRead.toNat) = (p + i) % 512 := by omega
      rw [hq]
      exact hD (p + i) (by omega) (by omega)
  . intro i hi
    dsimp only at hi ⊢
    rw [hw] at hi
    rw [Mem.blit_of_not_mem (by omega)]
    exact hR.rest i (by omega)

theorem readLoop_run {fuel : Nat} (hR : Reading p D buf c) (hw : c.bytesRead.toNat ≤ size.toNat)
    (hp : p + size.toNat < 2 ^ 32)
    (hblocks : ∀ q < p + size.toNat, p ≤ q → part.IsData (blocks (q / 512)))
    (hD : ∀ q < p + size.toNat, (v.image part).sec (blocks (q / 512)).toNat (q % 512) = D q
      ∨ q / 512 < p / 512)
    {r : fileRead.Cursor × Vol} (h : (fileRead.readLoop blocks size fuel c).run v = .ok r)
    : r.2 = v ∧ Reading p D buf r.1 ∧ r.1.bytesRead = size := by
  induction fuel generalizing c with
  | zero => exact absurd h Cmd.throw_run
  | succ fuel ih =>
    unfold fileRead.readLoop at h
    split at h
    . next hlt =>
      have hlt' : c.bytesRead.toNat < size.toNat := hlt
      have hpos := hR.pos
      simp only [Cmd.bind_run] at h
      obtain ⟨c', v1, h1, h2⟩ := h
      have hdata := hblocks c.fdPos.toNat (by omega) (by omega)
      have hD' : ∀ q < p + size.toNat, q / 512 = c.fdPos.toNat / 512 →
          (v.image part).sec (blocks (c.fdPos.toNat / 512)).toNat (q % 512) = D q := by
        intro q hq hidx
        cases hD q hq with
        | inl h =>
          rw [← hidx]
          exact h
        | inr h => omega
      obtain ⟨hv1, hR', -, hw'⟩ := hR.step hlt hp hdata hD' h1
      dsimp only at hv1 hR' hw'
      subst hv1
      exact ih hR' hw' h2
    . next hge =>
      have hge' : ¬ c.bytesRead.toNat < size.toNat := hge
      rw [Cmd.pure_run] at h
      rw [h]
      refine ⟨rfl, hR, ?_⟩
      apply UInt32.toNat_inj.mp
      dsimp only
      omega

theorem readLoop_of_not_lt {fuel : Nat} (h : ¬ c.bytesRead < size)
    : fileRead.readLoop blocks size (fuel + 1) c = pure c := by
  unfold fileRead.readLoop
  rw [if_neg h]

def readSize (ino : Inode) (fdPos count : UInt32)
    : Nat := min count.toNat (ino.iSize.toNat - fdPos.toNat)

theorem iSize_lt_iff {fdPos count : UInt32} (hsum : fdPos.toNat + count.toNat < 2 ^ 32)
    : ino.iSize < fdPos + count ↔ ino.iSize.toNat < fdPos.toNat + count.toNat := by
  rw [UInt32.lt_iff_toNat_lt, UInt32.toNat_add, Nat.mod_eq_of_lt hsum]

theorem toNat_readSize {fdPos count : UInt32} (hpos : fdPos.toNat ≤ ino.iSize.toNat)
    (hsum : fdPos.toNat + count.toNat < 2 ^ 32)
    : (if ino.iSize < fdPos + count then ino.iSize - fdPos else count).toNat
        = readSize ino fdPos count := by
  unfold readSize
  split
  . next hlt =>
    have := (iSize_lt_iff hsum).mp hlt
    have := ino.iSize.toNat_lt
    rw [UInt32.toNat_sub]
    omega
  . next hge =>
    have : ¬ ino.iSize.toNat < fdPos.toNat + count.toNat := fun hc =>
      hge ((iSize_lt_iff hsum).mpr hc)
    omega

theorem readBlocks_run {fdPos : UInt32} {fuel : Nat} {v' v'' : Vol}
    (hS : FileShape part lim (v.image part) ino) (hD : FileData (v.image part) ino D)
    (hsize : fdPos.toNat + size.toNat ≤ ino.iSize.toNat)
    (hcollect : (fileRead.collect (fdPos.toNat / 512) ((fdPos.toNat + size.toNat) / 512) ino).run v
      = .ok (blocks, v'))
    (hloop : (fileRead.readLoop blocks size (fuel + 1) ⟨0, fdPos, buf⟩).run v' = .ok (c, v''))
    : Reading fdPos.toNat D buf c ∧ c.bytesRead = size := by
  have hR : Reading fdPos.toNat D buf ⟨0, fdPos, buf⟩ := by
    constructor
    . simp
    . intro i hi
      simp at hi
    . intro i _
      rfl
  have hsmall := hS.small
  by_cases hs0 : size.toNat = 0
  . -- nothing is read, whatever the blocks are
    have hsize0 : size = 0 := UInt32.toNat_inj.mp hs0
    rw [hsize0, readLoop_of_not_lt (by decide : ¬ (0 : UInt32) < 0), Cmd.pure_run] at hloop
    cases hloop
    exact ⟨hR, hsize0.symm⟩
  . have hhas : (v.image part).HasBlocks ino (ino.iSize.toNat / 512 + 1) := by
      cases hS.has with
      | inl h => omega
      | inr h => exact h
    obtain ⟨hv, hbl⟩ := readCollect_run hS.own hhas (by omega) (by omega) hcollect
    dsimp only at hv hbl
    subst hv
    have hne : ∀ q < fdPos.toNat + size.toNat, (v'.image part).ref ino (q / 512) ≠ 0 := by
      intro q hq
      exact (hhas.block _ (by omega)).mpr (by omega)
    have hblocks : ∀ q < fdPos.toNat + size.toNat, fdPos.toNat ≤ q
        → part.IsData (blocks (q / 512)) := by
      intro q hq1 hq2
      rw [hbl _ (by omega) (by omega), ← Image.refs_of_lt (by omega)]
      apply (hS.own.inArea _ _).isData
      rw [Image.refs_of_lt (by omega)]
      exact hne q hq1
    have hDq : ∀ q < fdPos.toNat + size.toNat,
        (v'.image part).sec (blocks (q / 512)).toNat (q % 512) = D q
          ∨ q / 512 < fdPos.toNat / 512 := by
      intro q hq
      by_cases hlow : q / 512 < fdPos.toNat / 512
      . exact .inr hlow
      . left
        rw [hbl _ (by omega) (by omega)]
        exact hD.bytes q (by omega)
    exact (readLoop_run hR (by simp) (by omega) hblocks hDq hloop).2

theorem fileRead_run {fdPos count : UInt32} (hS : FileShape part lim (v.image part) ino)
    (hD : FileData (v.image part) ino D) (hpos : fdPos.toNat ≤ ino.iSize.toNat)
    (hsum : fdPos.toNat + count.toNat < 2 ^ 32) {r : (Int × Mem × UInt32) × Vol}
    (h : (fileRead fdPos ino buf count).run v = .ok r)
    : r.1.1 = (if readSize ino fdPos count = 0 ∧ 0 < count.toNat then -1
        else (readSize ino fdPos count : Int))
        ∧ (∀ i < readSize ino fdPos count, r.1.2.1 i = D (fdPos.toNat + i))
        ∧ (∀ i, readSize ino fdPos count ≤ i → r.1.2.1 i = buf i)
        ∧ r.1.2.2.toNat = fdPos.toNat + readSize ino fdPos count := by
  have hsz := toNat_readSize hpos hsum
  simp only [fileRead] at h
  generalize (if ino.iSize < fdPos + count then ino.iSize - fdPos else count) = size at h hsz
  have hzero : size = 0 ↔ readSize ino fdPos count = 0 := by
    rw [← hsz, ← UInt32.toNat_inj]
    rfl
  split at h
  . next hend =>
    have h0 := hzero.mp hend.2
    have hlt := (iSize_lt_iff hsum).mp hend.1
    rw [Cmd.pure_run] at h
    rw [h, h0]
    refine ⟨?_, ?_, fun _ _ => rfl, rfl⟩
    . rw [if_pos ⟨rfl, by omega⟩]
    . intro i hi
      omega
  . next hend =>
    simp only [Cmd.bind_run, Cmd.assert_run, Cmd.pure_run] at h
    obtain ⟨_, _, ⟨-, h1⟩, blocks, v1, h2, c, v2, h3, h4⟩ := h
    cases h1
    have hval : ¬ (readSize ino fdPos count = 0 ∧ 0 < count.toNat) := by
      rintro ⟨h0, hc⟩
      apply hend
      refine ⟨?_, hzero.mpr h0⟩
      rw [iSize_lt_iff hsum]
      unfold readSize at h0
      omega
    have hsmall := hS.small
    have hsize : fdPos.toNat + size.toNat ≤ ino.iSize.toNat := by
      unfold readSize at hsz
      omega
    have c512 : (512 : UInt32).toNat = 512 := rfl
    have hlo : (fdPos / 512).toNat = fdPos.toNat / 512 := by rw [UInt32.toNat_div, c512]
    have hhi : ((fdPos + size) / 512).toNat = (fdPos.toNat + size.toNat) / 512 := by
      rw [UInt32.toNat_div, c512, UInt32.toNat_add]
      omega
    rw [hlo, hhi] at h2
    obtain ⟨hR, hdone⟩ := readBlocks_run hS hD hsize h2 h3
    have hdone' : c.bytesRead.toNat = readSize ino fdPos count := by rw [hdone, hsz]
    rw [h4]
    dsimp only
    rw [if_neg hval, hdone']
    refine ⟨rfl, ?_, ?_, ?_⟩
    . intro i hi
      exact hR.bytes i (by omega)
    . intro i hi
      exact hR.rest i (by omega)
    . rw [hR.pos, hdone']

theorem not_readLoop_run {fuel : Nat} (hw : c.bytesRead.toNat + 512 * fuel < size.toNat)
    {r : fileRead.Cursor × Vol}
    : ¬ (fileRead.readLoop blocks size fuel c).run v = .ok r := by
  induction fuel generalizing c v with
  | zero => exact Cmd.throw_run
  | succ fuel ih =>
    intro h
    have hlt : c.bytesRead < size := by
      show c.bytesRead.toNat < size.toNat
      omega
    unfold fileRead.readLoop at h
    rw [if_pos hlt] at h
    simp only [Cmd.bind_run] at h
    obtain ⟨c', v1, h1, h2⟩ := h
    simp only [fileRead.readChunk, Cmd.bind_run, Cmd.pure_run, Prod.mk.injEq] at h1
    obtain ⟨_, _, -, _, _, -, h3, -⟩ := h1
    have hk := @toNat_chunkSize size c.bytesRead c.fdPos hlt
    generalize (if size - c.bytesRead < 512 - c.fdPos % 512 then size - c.bytesRead
      else 512 - c.fdPos % 512) = k at hk h3
    unfold chunk at hk
    have hsize := size.toNat_lt
    have hbytes : c'.bytesRead = c.bytesRead + k := by rw [h3]
    have hadd : (c.bytesRead + k).toNat = c.bytesRead.toNat + k.toNat := by
      rw [UInt32.toNat_add]
      omega
    apply ih _ h2
    rw [hbytes, hadd]
    omega

theorem fileRead_no_wrap {fdPos count : UInt32} (hpos : fdPos.toNat ≤ ino.iSize.toNat)
    (hsmall : ino.iSize.toNat < 71680) {r : (Int × Mem × UInt32) × Vol}
    (h : (fileRead fdPos ino buf count).run v = .ok r)
    : fdPos.toNat + count.toNat < 2 ^ 32 := by
  by_contra hwrap
  have hcount := count.toNat_lt
  have hadd : (fdPos + count).toNat = fdPos.toNat + count.toNat - 2 ^ 32 := by
    rw [UInt32.toNat_add]
    omega
  have hnot : ¬ ino.iSize < fdPos + count := by
    rw [UInt32.lt_iff_toNat_lt, hadd]
    omega
  simp only [fileRead, if_neg hnot] at h
  rw [if_neg fun hand => hnot hand.1] at h
  simp only [Cmd.bind_run] at h
  obtain ⟨_, _, -, _, _, -, _, _, h1, -⟩ := h
  have hfew : (0 : UInt32).toNat + 512 * 142 < count.toNat := by
    rw [UInt32.toNat_zero]
    omega
  exact not_readLoop_run hfew h1

section Keeps

open Cmd

variable {buf : Mem} {lo hi : Nat} {size count pos : UInt32} {c : fileRead.Cursor}

theorem ideRead_keeps_vol {lba : UInt32} {n : Nat} : Cmd.Keeps id (ideRead lba n) :=
  keeps_bind keeps_assert fun _ => keeps_bind keeps_get fun _ => keeps_pure

theorem readCollect_keeps : Cmd.Keeps id (fileRead.collect lo hi ino) := by
  have htable : ∀ blocks, Cmd.Keeps id (fileWrite.readTable blocks ino) := by
    intro blocks
    exact keeps_bind ideRead_keeps_vol fun _ => keeps_pure
  unfold fileRead.collect
  split
  . split
    . exact keeps_pure
    . exact htable _
  . split
    . exact keeps_pure
    . split
      . exact keeps_bind keeps_assert fun _ => htable _
      . exact keeps_bind keeps_assert fun _ => htable _

theorem readLoop_keeps {fuel : Nat} : Cmd.Keeps id (fileRead.readLoop blocks size fuel c) := by
  induction fuel generalizing c with
  | zero => exact keeps_throw
  | succ fuel ih =>
    unfold fileRead.readLoop
    split
    . apply keeps_bind
      . exact keeps_bind keeps_assert fun _ => keeps_bind ideRead_keeps_vol fun _ => keeps_pure
      . intro c'
        exact ih
    . exact keeps_pure

theorem fileRead_keeps : Cmd.Keeps id (fileRead pos ino buf count) := by
  unfold fileRead
  generalize (if ino.iSize < pos + count then ino.iSize - pos else count) = size
  dsimp only
  split
  . exact keeps_pure
  . apply keeps_bind keeps_assert
    intro _
    apply keeps_bind readCollect_keeps
    intro blocks
    exact keeps_bind readLoop_keeps fun _ => keeps_pure

end Keeps

end RogOS
