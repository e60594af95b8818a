import RogOS.Fs.Lemmas.FileAlloc

/-!
What `file_write` does to the blocks of a file and to its contents.
-/

namespace RogOS

variable {part : Partition} {lim : Nat}

section WriteLoop

open fileWrite

variable {v : Vol} {blocks : Nat → UInt32} {buf : Mem} {count : UInt32} {c : fileWrite.Cursor}
  {first : Bool}

def chunk (n w s : Nat) : Nat := min (n - w) (512 - s % 512)

theorem toNat_chunkSize {w s : UInt32} (hlt : w < count)
    : (if count - w < 512 - s % 512 then count - w else 512 - s % 512).toNat
        =
      chunk count.toNat w.toNat s.toNat := by
  have hlt' : w.toNat < count.toNat := hlt
  have hcount := count.toNat_lt
  have h1 : (count - w).toNat = count.toNat - w.toNat := by
    rw [UInt32.toNat_sub]
    omega
  have h2 : (512 - s % 512).toNat = 512 - s.toNat % 512 := by
    have h512 : (512 : UInt32).toNat = 512 := rfl
    rw [UInt32.toNat_sub, UInt32.toNat_mod, h512]
    omega
  have h3 : count - w < 512 - s % 512 ↔ count.toNat - w.toNat < 512 - s.toNat % 512 := by
    rw [UInt32.lt_iff_toNat_lt, h1, h2]
  unfold chunk
  split
  . next h =>
    rw [h1]
    have := h3.mp h
    omega
  . next h =>
    rw [h2]
    have : ¬ count.toNat - w.toNat < 512 - s.toNat % 512 := fun hc => h (h3.mpr hc)
    omega

theorem writeChunk_run (hlt : c.bytesWritten < count) {r : fileWrite.Cursor × Vol}
    (h : (writeChunk blocks buf count first c).run v = .ok r)
    : c.inode.iSize.toNat / 512 < 140
        ∧ ∃ k : UInt32, k.toNat = chunk count.toNat c.bytesWritten.toNat c.inode.iSize.toNat
        ∧ r.1.bytesWritten = c.bytesWritten + k ∧ r.1.inode = c.inode.grow k
        ∧ (part.IsData (blocks (c.inode.iSize.toNat / 512)) →
            r.2.image part = (v.image part).setSec (blocks (c.inode.iSize.toNat / 512)).toNat
              ((if first then (v.image part).sec (blocks (c.inode.iSize.toNat / 512)).toNat
                else Mem.zero).blit (c.inode.iSize.toNat % 512) k.toNat
                (buf.shift c.bytesWritten.toNat))) := by
  have hdiv : (c.inode.iSize / 512).toNat = c.inode.iSize.toNat / 512 := by
    rw [UInt32.toNat_div]
    rfl
  have hmod : (c.inode.iSize % 512).toNat = c.inode.iSize.toNat % 512 := by
    rw [UInt32.toNat_mod]
    rfl
  simp only [writeChunk, Cmd.bind_run, Cmd.assert_run, Cmd.pure_run, hdiv, hmod] at h
  obtain ⟨_, _, ⟨h1, h2⟩, ioBuf, v1, h3, _, v2, h4, h5⟩ := h
  cases h2
  rw [h5]
  refine ⟨h1, _, toNat_chunkSize hlt, rfl, rfl, ?_⟩
  intro hdata
  have hbuf : v1 = v ∧ ioBuf = if first
      then (v.image part).sec (blocks (c.inode.iSize.toNat / 512)).toNat
      else Mem.zero := by
    cases first with
    | true =>
      simp only [loadBlock, ↓reduceIte, ideRead_data hdata, Prod.mk.injEq] at h3
      exact ⟨h3.2.2, h3.2.1⟩
    | false =>
      simp only [loadBlock, Bool.false_eq_true, ↓reduceIte, Cmd.pure_run, Prod.mk.injEq] at h3
      exact ⟨h3.2, h3.1⟩
  have hv2 := ideWrite_data hdata h4
  dsimp only at hv2 ⊢
  rw [hv2, hbuf.1, hbuf.2]

theorem writeLoop_bound (part : Partition) {fuel : Nat} (hw : c.bytesWritten.toNat ≤ count.toNat)
    {r : fileWrite.Cursor × Vol} (h : (writeLoop blocks buf count fuel first c).run v = .ok r)
    : c.inode.iSize.toNat + (count.toNat - c.bytesWritten.toNat) ≤ 71680
        ∨ count.toNat = c.bytesWritten.toNat := by
  induction fuel generalizing v c first with
  | zero => exact absurd h Cmd.throw_run
  | succ fuel ih =>
    unfold writeLoop at h
    split at h
    . next hlt =>
      simp only [Cmd.bind_run] at h
      obtain ⟨c', v1, h1, h2⟩ := h
      obtain ⟨hidx, k, hk, hw', hi', -⟩ := @writeChunk_run part v blocks buf count c first hlt _ h1
      dsimp only at hw' hi'
      have hlt' : c.bytesWritten.toNat < count.toNat := hlt
      have hcount := count.toNat_lt
      have hsize := c.inode.iSize.toNat_lt
      unfold chunk at hk
      have hw1 : c'.bytesWritten.toNat = c.bytesWritten.toNat + k.toNat := by
        rw [hw', UInt32.toNat_add]
        omega
      have hs1 : c'.inode.iSize.toNat = c.inode.iSize.toNat + k.toNat := by
        rw [hi', Inode.grow_iSize, UInt32.toNat_add]
        omega
      have := ih (by omega) h2
      omega
    . next hge =>
      have hge' : ¬ c.bytesWritten.toNat < count.toNat := hge
      right
      omega

/--
The write of `n` bytes that made the file with the inode `ino₀` on the volume `a₀` longer than `n₀`
has come to the cursor `c` on the volume `a`. The contents of the file are `D`.
-/
structure Writing (part : Partition) (lim n₀ : Nat) (D : Nat → UInt8) (a₀ : Image) (ino₀ : Inode)
    (a : Image) (c : fileWrite.Cursor) : Prop where
  size : c.inode.iSize.toNat = n₀ + c.bytesWritten.toNat
  inode : ∃ k, c.inode = ino₀.grow k
  bytes : ∀ p < n₀ + c.bytesWritten.toNat, a.sec (a₀.ref ino₀ (p / 512)).toNat (p % 512) = D p
  ext : Extends part lim a₀ a (a₀.refs ino₀) (a₀.refs ino₀)
  table : ino₀.sector 12 ≠ 0 → a.sec (ino₀.sector 12).toNat = a₀.sec (ino₀.sector 12).toNat
  free : a.FreeBelow part lim

variable {a₀ : Image} {ino₀ : Inode} {n₀ : Nat} {D : Nat → UInt8}

theorem chunk_bytes {m : Mem} {s w k : Nat} (hs : s = n₀ + w) (hfirst : first = true ∨ s % 512 = 0)
    (hD : ∀ p, n₀ ≤ p → D p = buf (p - n₀)) (hold : ∀ p < s, p / 512 = s / 512 → m (p % 512) = D p)
    {p : Nat} (hp : p < s + k) (hidx : p / 512 = s / 512)
    : ((if first then m else Mem.zero).blit (s % 512) k (buf.shift w)) (p % 512) = D p := by
  by_cases hps : p < s
  . have hf : first = true := by
      cases hfirst with
      | inl h => exact h
      | inr h => omega
    rw [Mem.blit_of_not_mem (by omega), if_pos hf, hold p hps hidx]
  . rw [Mem.blit_of_mem (by omega) (by omega), Mem.shift_apply, hD p (by omega)]
    congr 1
    omega

theorem Writing.step (hW : Writing part lim n₀ D a₀ ino₀ (v.image part) c)
    (hlt : c.bytesWritten < count) (hfirst : first = true ∨ c.inode.iSize.toNat % 512 = 0)
    (hD : ∀ p, n₀ ≤ p → D p = buf (p - n₀))
    (hblock : blocks (c.inode.iSize.toNat / 512) = a₀.ref ino₀ (c.inode.iSize.toNat / 512))
    (hne : a₀.ref ino₀ (c.inode.iSize.toNat / 512) ≠ 0)
    {r : fileWrite.Cursor × Vol} (h : (writeChunk blocks buf count first c).run v = .ok r)
    : Writing part lim n₀ D a₀ ino₀ (r.2.image part) r.1
        ∧ r.1.bytesWritten.toNat ≤ count.toNat
        ∧ (r.1.inode.iSize.toNat % 512 = 0 ∨ r.1.bytesWritten.toNat = count.toNat)
        ∧ c.inode.iSize.toNat / 512 < 140 := by
  obtain ⟨hidx, k, hk, hw', hi', himg⟩ := @writeChunk_run part v blocks buf count c first hlt r h
  have hrefs : a₀.refs ino₀ (c.inode.iSize.toNat / 512) = a₀.ref ino₀ (c.inode.iSize.toNat / 512) :=
    Image.refs_of_lt (by omega)
  have hne' : a₀.refs ino₀ (c.inode.iSize.toNat / 512) ≠ 0 := by
    rw [hrefs]
    exact hne
  have hdata := (hW.ext.own.inArea _ hne').isData
  rw [hblock] at himg
  have himg := himg (by rw [← hrefs]; exact hdata)
  have hlt' : c.bytesWritten.toNat < count.toNat := hlt
  have hcount := count.toNat_lt
  have hsize := hW.size
  unfold chunk at hk
  have hw1 : r.1.bytesWritten.toNat = c.bytesWritten.toNat + k.toNat := by
    rw [hw', UInt32.toNat_add]
    omega
  have hs1 : r.1.inode.iSize.toNat = c.inode.iSize.toNat + k.toNat := by
    rw [hi', Inode.grow_iSize, UInt32.toNat_add]
    omega
  have hother : ∀ j < 141, j ≠ c.inode.iSize.toNat / 512 → a₀.ref ino₀ j ≠ 0 →
      (a₀.ref ino₀ j).toNat ≠ (a₀.ref ino₀ (c.inode.iSize.toNat / 512)).toNat := by
    intro j hj hne'' h0 heq
    apply hne''
    apply hW.ext.own.inj
    . rw [Image.refs_of_lt hj]
      exact h0
    . rw [Image.refs_of_lt hj, hrefs]
      exact UInt32.toNat_inj.mp heq
  refine ⟨?_, by omega, by omega, hidx⟩
  constructor
  . omega
  . obtain ⟨k', hk'⟩ := hW.inode
    refine ⟨k' + k, ?_⟩
    rw [hi', hk']
    simp only [Inode.grow, UInt32.add_assoc]
  . intro p hp
    rw [hw1] at hp
    rw [himg]
    by_cases hpj : p / 512 = c.inode.iSize.toNat / 512
    . rw [hpj, Image.sec_setSec_self, Mem.clip_of_lt (by omega)]
      apply chunk_bytes hsize hfirst hD _ (by omega) hpj
      intro q hq hqj
      rw [← hqj]
      exact hW.bytes q (by omega)
    . have hps : p < c.inode.iSize.toNat := by omega
      by_cases h0 : a₀.ref ino₀ (p / 512) = 0
      . rw [Image.sec_setSec_of_ne]
        . exact hW.bytes p (by omega)
        . rw [h0]
          intro heq
          exact hne (UInt32.toNat_inj.mp heq.symm)
      . rw [Image.sec_setSec_of_ne (hother _ (by omega) hpj h0)]
        exact hW.bytes p (by omega)
  . rw [himg]
    have hw := Extends.write (m := (if first then (v.image part).sec
      (a₀.ref ino₀ (c.inode.iSize.toNat / 512)).toNat else Mem.zero).blit
        (c.inode.iSize.toNat % 512)
        k.toNat (buf.shift c.bytesWritten.toNat)) hW.ext.own hne'
    rw [hrefs] at hw
    exact hW.ext.trans hw Keeps.refl
  . intro h12
    have h140 := hother 140 (by omega) (by omega) h12
    rw [Image.ref_table] at h140
    rw [himg, Image.sec_setSec_of_ne h140]
    exact hW.table h12
  . rw [himg]
    exact hW.free

theorem writeLoop_run {fuel : Nat} (hW : Writing part lim n₀ D a₀ ino₀ (v.image part) c)
    (hw : c.bytesWritten.toNat ≤ count.toNat)
    (hfirst : first = true ∨ c.inode.iSize.toNat % 512 = 0 ∨ c.bytesWritten.toNat = count.toNat)
    (hD : ∀ p, n₀ ≤ p → D p = buf (p - n₀))
    (hblocks : ∀ j, n₀ / 512 ≤ j → j ≤ (n₀ + count.toNat) / 512 → j < 140 →
      blocks j = a₀.ref ino₀ j ∧ a₀.ref ino₀ j ≠ 0)
    {r : fileWrite.Cursor × Vol} (h : (writeLoop blocks buf count fuel first c).run v = .ok r)
    : Writing part lim n₀ D a₀ ino₀ (r.2.image part) r.1 ∧ r.1.bytesWritten = count := by
  induction fuel generalizing v c first with
  | zero => exact absurd h Cmd.throw_run
  | succ fuel ih =>
    unfold writeLoop at h
    split at h
    . next hlt =>
      simp only [Cmd.bind_run] at h
      obtain ⟨c', v1, h1, h2⟩ := h
      have hlt' : c.bytesWritten.toNat < count.toNat := hlt
      have hsize := hW.size
      have hidx := (@writeChunk_run part v blocks buf count c first hlt _ h1).1
      obtain ⟨hb, hne⟩ := hblocks (c.inode.iSize.toNat / 512) (by omega) (by omega) hidx
      have hf : first = true ∨ c.inode.iSize.toNat % 512 = 0 := by
        cases hfirst with
        | inl h => exact .inl h
        | inr h => exact .inr (by omega)
      obtain ⟨hW', hw', hfirst', -⟩ := hW.step hlt hf hD hb hne h1
      exact ih hW' hw' (.inr hfirst') h2
    . next hge =>
      have hge' : ¬ c.bytesWritten.toNat < count.toNat := hge
      rw [Cmd.pure_run] at h
      rw [h]
      refine ⟨hW, ?_⟩
      apply UInt32.toNat_inj.mp
      dsimp only
      omega

end WriteLoop

section Write

variable {v : Vol} {ino : Inode} {a : Image}

structure FileShape (part : Partition) (lim : Nat) (a : Image) (ino : Inode) : Prop where
  own : Ownership part lim a.blockUsed (a.refs ino)
  has : (∀ j, a.refs ino j = 0) ∧ ino.iSize.toNat = 0 ∨ a.HasBlocks ino (ino.iSize.toNat / 512 + 1)
  small : ino.iSize.toNat < 71680

structure FileData (a : Image) (ino : Inode) (D : Nat → UInt8) : Prop where
  bytes : ∀ p < ino.iSize.toNat, a.sec (a.ref ino (p / 512)).toNat (p % 512) = D p

theorem FileShape.setSlot {n : Nat} {x : Inode} (h : FileShape part lim a ino)
    : FileShape part lim (a.setSlot n x) ino where
  own := h.own
  has := by
    cases h.has with
    | inl h => exact .inl h
    | inr h => exact .inr ⟨h.block, h.table⟩
  small := h.small

theorem refs_setSector {i j : Nat} {lba : UInt32} (hi : i < 12)
    : a.refs (ino.setSector i lba) j = if j = i then lba else a.refs ino j := by
  unfold Image.refs
  by_cases hj : j = i
  . rw [if_pos (by omega), if_pos hj, hj, Image.ref_direct hi,
      Inode.sector_setSector_self (by omega)]
  . rw [if_neg hj]
    split
    . by_cases hj' : j < 12
      . rw [Image.ref_direct hj', Image.ref_direct hj',
          Inode.sector_setSector_of_ne (by omega) (Ne.symm hj)]
      . have h12 : (ino.setSector i lba).sector 12 = ino.sector 12 :=
          Inode.sector_setSector_of_ne (by omega) (by omega)
        unfold Image.ref
        rw [h12]
        split
        . rfl
        . rw [Image.block_of_ge (by omega), Image.block_of_ge (by omega), h12]
    . rfl

structure Started (part : Partition) (lim : Nat) (ino : Inode) (a : Image) (ino' : Inode)
    (a' : Image)
    : Prop where
  ext : Extends part lim a a' (a.refs ino) (a'.refs ino')
  keeps : Keeps (a.refs ino) (a'.refs ino')
  free : a'.FreeBelow part lim
  same : ino.SameMeta ino'
  has : a'.HasBlocks ino' (ino.iSize.toNat / 512 + 1)
  sec : a'.sec = a.sec

theorem firstBlock_run (hS : FileShape part lim (v.image part) ino)
    (hfree : (v.image part).FreeBelow part lim) {r : (Bool × Inode) × Vol}
    (h : (fileWrite.firstBlock part (blockBitmapAlloc part) ino).run v = .ok r)
    : r.1.1 = true ∧ Started part lim ino (v.image part) r.1.2 (r.2.image part) := by
  unfold fileWrite.firstBlock at h
  split at h
  . next h0 =>
    have hnone : (∀ j, (v.image part).refs ino j = 0) ∧ ino.iSize.toNat = 0 := by
      cases hS.has with
      | inl h => exact h
      | inr h =>
        have := (h.block 0 (by omega)).mpr (by omega)
        rw [Image.ref_direct (by omega)] at this
        contradiction
    simp only [Cmd.bind_run] at h
    obtain ⟨o, v1, h1, h2⟩ := h
    obtain ⟨b, hb, ho, hv1⟩ := blockBitmapAlloc_image h1
    dsimp only at ho hv1
    rw [ho] at h2
    simp only [Cmd.bind_run, Cmd.assert_run, Cmd.pure_run] at h2
    obtain ⟨_, _, ⟨-, h3⟩, _, v2, h4, h5⟩ := h2
    cases h3
    have hv2 := bitmapSync_blockLba hb h4
    dsimp only at hv2
    rw [h5]
    refine ⟨rfl, ?_⟩
    dsimp only
    rw [hv2, hv1]
    have hrefs : ∀ j,
        ((v.image part).setBlockUsed b true).refs (ino.setSector 0 (part.blockLba b)) j
        = if j = 0 then part.blockLba b else (v.image part).refs ino j := by
      intro j
      exact refs_setSector (by omega)
    have hne := (part.isData_blockLba hb.lt_max).ne_zero
    constructor
    . apply Extends.alloc hS.own hb (hfree b hb.lt hb.clear) 0
      . rw [hrefs, if_pos rfl]
      . intro j hj
        rw [hrefs, if_neg hj]
    . apply Keeps.of_zero 0 (hnone.1 0)
      intro j hj
      rw [hrefs, if_neg hj]
    . exact hfree.setBlockUsed
    . exact Inode.SameMeta.setSector
    . rw [hnone.2]
      constructor
      . intro j hj
        rw [← Image.refs_of_lt (by omega), hrefs, hnone.1 j]
        split
        . next hj0 => simp [hj0, hne]
        . simp only [ne_eq, not_true_eq_false, false_iff]
          omega
      . rw [Inode.sector_setSector_of_ne (by omega) (by omega)]
        have := hnone.1 140
        rw [Image.refs_table] at this
        simp [this]
    . rfl
  . next h0 =>
    rw [Cmd.pure_run] at h
    rw [h]
    refine ⟨rfl, Extends.refl hS.own, Keeps.refl, hfree, Inode.SameMeta.refl, ?_, rfl⟩
    cases hS.has with
    | inl h =>
      have := h.1 0
      rw [Image.refs_of_lt (by omega), Image.ref_direct (by omega)] at this
      contradiction
    | inr h => exact h

theorem allocBlocks_ok {n i : Nat} {blocks : Nat → UInt32}
    {r : (Bool × (Nat → UInt32) × Inode) × Vol}
    (h : (fileWrite.allocBlocks part (blockBitmapAlloc part) n i blocks ino).run v = .ok r)
    : r.1.1 = true ∧ r.1.2.2.iSize = ino.iSize := by
  induction n generalizing i blocks ino v with
  | zero =>
    rw [fileWrite.allocBlocks, Cmd.pure_run] at h
    rw [h]
    exact ⟨rfl, rfl⟩
  | succ n ih =>
    simp only [fileWrite.allocBlocks, Cmd.bind_run] at h
    obtain ⟨o, v1, h1, h2⟩ := h
    obtain ⟨b, -, ho, -⟩ := blockBitmapAlloc_image h1
    dsimp only at ho
    rw [ho] at h2
    dsimp only at h2
    split at h2
    . simp only [Cmd.bind_run] at h2
      obtain ⟨_, _, -, _, _, -, h3⟩ := h2
      have := ih h3
      rw [Inode.setSector_iSize] at this
      exact this
    . simp only [Cmd.bind_run] at h2
      obtain ⟨_, _, -, h3⟩ := h2
      exact ih h3

theorem collect_ok {hasUsed willUse : UInt32} {r : (Bool × (Nat → UInt32) × Inode) × Vol}
    (h : (fileWrite.collect part (blockBitmapAlloc part) hasUsed willUse ino).run v = .ok r)
    : r.1.1 = true ∧ r.1.2.2.iSize = ino.iSize := by
  unfold fileWrite.collect at h
  split at h
  . split at h
    . rw [Cmd.pure_run] at h
      rw [h]
      exact ⟨rfl, rfl⟩
    . simp only [Cmd.bind_run, Cmd.pure_run] at h
      obtain ⟨_, _, -, _, _, -, h2⟩ := h
      rw [h2]
      exact ⟨rfl, rfl⟩
  . split at h
    . simp only [Cmd.bind_run] at h
      obtain ⟨_, _, -, _, _, -, h2⟩ := h
      exact allocBlocks_ok h2
    . split at h
      . simp only [Cmd.bind_run] at h
        obtain ⟨o, _, h1, h2⟩ := h
        obtain ⟨b, -, ho, -⟩ := blockBitmapAlloc_image h1
        dsimp only at ho
        rw [ho] at h2
        simp only [Cmd.bind_run] at h2
        obtain ⟨_, _, -, ⟨ok, blocks', ino'⟩, _, h3, h4⟩ := h2
        obtain ⟨hok, hsize⟩ := allocBlocks_ok h3
        dsimp only at hok hsize
        rw [hok] at h4
        simp only [Cmd.bind_run, Cmd.pure_run] at h4
        obtain ⟨_, _, -, h5⟩ := h4
        rw [h5]
        exact ⟨rfl, hsize⟩
      . simp only [Cmd.bind_run] at h
        obtain ⟨_, _, -, _, _, -, ⟨ok, blocks', ino'⟩, _, h3, h4⟩ := h
        obtain ⟨hok, hsize⟩ := allocBlocks_ok h3
        dsimp only at hok hsize
        rw [hok] at h4
        simp only [Cmd.bind_run, Cmd.pure_run] at h4
        obtain ⟨_, _, -, h5⟩ := h4
        rw [h5]
        exact ⟨rfl, hsize⟩

def appended (D : Nat → UInt8) (n : Nat) (buf : Mem) : Nat → UInt8 := fun p =>
  if p < n then D p else buf (p - n)

structure Wrote (part : Partition) (lim : Nat) (buf : Mem) (count : UInt32) (ino : Inode)
    (a : Image) (ino' : Inode) (a' : Image) : Prop where
  ext : Extends part lim a a' (a.refs ino) (a'.refs ino')
  keeps : Keeps (a.refs ino) (a'.refs ino')
  free : a'.FreeBelow part lim
  shape : FileShape part lim a' ino'
  size : ino'.iSize.toNat = ino.iSize.toNat + count.toNat
  same : ino'.iNo = ino.iNo ∧ ino'.iOpenCnts = ino.iOpenCnts ∧ ino'.writeDeny = ino.writeDeny
  data : ∀ D, FileData a ino D → FileData a' ino' (appended D ino.iSize.toNat buf)

def fileByte (a : Image) (ino : Inode) (p : Nat) : UInt8 :=
  a.sec (a.ref ino (p / 512)).toNat (p % 512)

theorem Collected.fileByte_eq {lo n s : Nat} {blocks' : Nat → UInt32} {ino' : Inode} {a' : Image}
    (h : Collected part lim lo n ino a blocks' ino' a') (hhas : a.HasBlocks ino (s / 512 + 1))
    (hs : s < 71680) {p : Nat} (hp : p < s) : fileByte a' ino' p = fileByte a ino p := by
  have h0 : a.ref ino (p / 512) ≠ 0 := (hhas.block _ (by omega)).mpr (by omega)
  have href : a'.ref ino' (p / 512) = a.ref ino (p / 512) := by
    have := h.keeps (p / 512) (by rw [Image.refs_of_lt (by omega)]; exact h0)
    rw [Image.refs_of_lt (by omega), Image.refs_of_lt (by omega)] at this
    exact this
  unfold fileByte
  rw [href, h.sec]
  intro h12 heq
  have := h.ext.own.inj 140 (p / 512) h12 (by
    rw [Image.refs_table, Image.refs_of_lt (by omega), href]
    exact UInt32.toNat_inj.mp heq)
  omega

theorem Started.fileByte_eq {ino' : Inode} {a' : Image} (h : Started part lim ino a ino' a')
    (hS : FileShape part lim a ino) {p : Nat} (hp : p < ino.iSize.toNat)
    : fileByte a' ino' p = fileByte a ino p := by
  have hsmall := hS.small
  have h0 : a.ref ino (p / 512) ≠ 0 := by
    cases hS.has with
    | inl h => omega
    | inr h => exact (h.block _ (by omega)).mpr (by omega)
  have href := h.keeps (p / 512) (by rw [Image.refs_of_lt (by omega)]; exact h0)
  rw [Image.refs_of_lt (by omega), Image.refs_of_lt (by omega)] at href
  unfold fileByte
  rw [href, h.sec]

theorem Writing.refs_eq {a₂ a₃ : Image} {ino₂ : Inode} {n : Nat} {D : Nat → UInt8}
    {c : fileWrite.Cursor}
    (h : Writing part lim n D a₂ ino₂ a₃ c) : a₃.refs c.inode = a₂.refs ino₂ := by
  obtain ⟨k, hk⟩ := h.inode
  funext j
  rw [hk]
  unfold Image.refs
  split
  . symm
    apply Image.ref_congr
    . intro _ _
      rfl
    . intro h12
      exact (h.table h12).symm
  . rfl

theorem Writing.hasBlocks {a₂ a₃ : Image} {ino₂ : Inode} {m n : Nat} {D : Nat → UInt8}
    {c : fileWrite.Cursor} (h : Writing part lim m D a₂ ino₂ a₃ c) (hhas : a₂.HasBlocks ino₂ n)
    : a₃.HasBlocks c.inode n := by
  obtain ⟨k, hk⟩ := h.inode
  constructor
  . intro j hj
    rw [← Image.refs_of_lt (by omega), h.refs_eq, Image.refs_of_lt (by omega)]
    exact hhas.block j hj
  . rw [hk]
    exact hhas.table

theorem Writing.wrote {a₁ a₂ a₃ : Image} {ino₁ ino₂ : Inode} {blocks : Nat → UInt32} {buf : Mem}
    {count : UInt32} {c : fileWrite.Cursor} {n : Nat} (hS : FileShape part lim a ino)
    (h1 : Started part lim ino a ino₁ a₁)
    (h2 : Collected part lim (ino.iSize.toNat / 512 + 1 - 1) n ino₁ a₁ blocks ino₂ a₂)
    (h3 : Writing part lim ino.iSize.toNat (appended (fileByte a₂ ino₂) ino.iSize.toNat buf) a₂ ino₂
      a₃ c)
    (hn : n = (ino.iSize.toNat + count.toNat) / 512 + 1) (hn' : n ≤ 140)
    (hc : c.bytesWritten = count)
    : Wrote part lim buf count ino a c.inode a₃ := by
  obtain ⟨k, hk⟩ := h3.inode
  have hsame := h1.same.trans h2.same
  have hrefs := h3.refs_eq
  have href : ∀ j < 141, a₃.ref c.inode j = a₂.ref ino₂ j := by
    intro j hj
    rw [← Image.refs_of_lt hj, ← Image.refs_of_lt hj, hrefs]
  have hsize : c.inode.iSize.toNat = ino.iSize.toNat + count.toNat := by
    rw [h3.size, hc]
  have hbytes : ∀ p < ino.iSize.toNat, fileByte a₂ ino₂ p = fileByte a ino p := by
    intro p hp
    rw [h2.fileByte_eq h1.has hS.small hp, h1.fileByte_eq hS hp]
  constructor
  . rw [hrefs]
    exact (h1.ext.trans h2.ext h2.keeps).trans h3.ext Keeps.refl
  . rw [hrefs]
    exact h1.keeps.trans h2.keeps
  . exact h3.free
  . constructor
    . rw [hrefs]
      exact h3.ext.own
    . right
      rw [hsize, ← hn]
      exact h3.hasBlocks h2.has
    . omega
  . exact hsize
  . rw [hk]
    exact ⟨hsame.1.symm, hsame.2.2.1.symm, hsame.2.2.2.symm⟩
  . intro D hD
    constructor
    intro p hp
    have hb := h3.bytes p (by rw [hc]; omega)
    rw [href _ (by omega), hb]
    unfold appended
    split
    . next hlt =>
      rw [hbytes p hlt]
      exact hD.bytes p hlt
    . rfl

theorem fileWrite_wrote {fdPos : UInt32} {buf : Mem} {count : UInt32}
    (hS : FileShape part lim (v.image part) ino) (hfree : (v.image part).FreeBelow part lim)
    (hshort : ¬ 512 * 140 < ino.iSize + count) {r : (Int × UInt32 × Inode) × Vol}
    (h : (fileWrite part fdPos ino buf count).run v = .ok r)
    : r.1.1 = count.toNat
        ∧ ∃ a', Wrote part lim buf count ino (v.image part) r.1.2.2 a'
          ∧ a'.HasBlocks r.1.2.2 (r.1.2.2.iSize.toNat / 512 + 1)
          ∧ r.2.image part = a'.setSlot (ino.iNo.toNat % 256) r.1.2.2.pure := by
  unfold fileWrite fileWriteWith at h
  rw [if_neg hshort] at h
  simp only [Cmd.bind_run] at h
  obtain ⟨⟨ok1, ino1⟩, v1, h1, h2⟩ := h
  obtain ⟨hok1, hst⟩ := firstBlock_run hS hfree h1
  dsimp only at hok1 hst
  rw [hok1] at h2
  simp only [Cmd.bind_run, Cmd.assert_run] at h2
  obtain ⟨_, _, ⟨h140, h3⟩, ⟨ok2, blocks, ino2⟩, v2, h4, h5⟩ := h2
  cases h3
  obtain ⟨hok2, hsize2⟩ := collect_ok h4
  dsimp only at hok2 hsize2
  rw [hok2] at h5
  simp only [Cmd.bind_run, Cmd.pure_run] at h5
  obtain ⟨c, v3, h6, _, v4, h7, h8⟩ := h5
  -- a sum that wrapped around would have sent the loop out of the 140 blocks
  have hbound := writeLoop_bound part (by simp) h6
  have hsmall := hS.small
  have hsize1 : ino1.iSize = ino.iSize := hst.same.2.1.symm
  dsimp only at hbound
  rw [hsize2, hsize1] at hbound
  simp only [UInt32.toNat_zero, Nat.sub_zero] at hbound
  have hsum : (ino1.iSize + count).toNat = ino.iSize.toNat + count.toNat := by
    rw [hsize1, UInt32.toNat_add]
    omega
  have c512 : (512 : UInt32).toNat = 512 := rfl
  have c1 : (1 : UInt32).toNat = 1 := rfl
  have hhas : (ino1.iSize / 512 + 1).toNat = ino.iSize.toNat / 512 + 1 := by
    rw [hsize1, UInt32.toNat_add, UInt32.toNat_div, c512, c1]
    omega
  have hwill : ((ino1.iSize + count) / 512 + 1).toNat
      = (ino.iSize.toNat + count.toNat) / 512 + 1 := by
    rw [UInt32.toNat_add, UInt32.toNat_div, hsum, c512, c1]
    omega
  have h140' : (ino.iSize.toNat + count.toNat) / 512 + 1 ≤ 140 := by
    rw [← hwill]
    exact h140
  have hcol := (collect_run (by omega) (by rw [hhas, hwill]; omega) (by rw [hwill]; exact h140')
    hst.ext.own hst.free (by rw [hhas]; exact hst.has) h4).2
  dsimp only at hcol
  rw [hhas, hwill] at hcol
  have hW : Writing part lim ino.iSize.toNat
      (appended (fileByte (v2.image part) ino2) ino.iSize.toNat buf) (v2.image part) ino2
        (v2.image part)
        ⟨0, ino2.iSize - 1, ino2⟩ := by
    constructor
    . simp only [hsize2, hsize1, UInt32.toNat_zero, Nat.add_zero]
    . exact ⟨0, by simp [Inode.grow]⟩
    . intro p hp
      simp only [UInt32.toNat_zero, Nat.add_zero] at hp
      rw [appended, if_pos hp]
      rfl
    . exact Extends.refl hcol.ext.own
    . intro _
      rfl
    . exact hcol.free
  obtain ⟨hW', hcount⟩ := writeLoop_run hW (by simp) (.inl rfl)
    (fun p hp => by rw [appended, if_neg (by omega)])
    (fun j hj1 hj2 hj3 => ⟨hcol.blocks j (by omega) (by omega),
      (hcol.has.block j hj3).mpr (by omega)⟩) h6
  dsimp only at hW' hcount
  have hwrote := hW'.wrote hS hst hcol rfl h140' hcount
  rw [h8]
  refine ⟨by rw [hcount], v3.image part, hwrote, ?_, ?_⟩
  . dsimp only
    rw [hwrote.size]
    exact hW'.hasBlocks hcol.has
  have hsync := (inodeSync_run.mp h7).2.2
  simp only [Prod.mk.injEq, true_and] at hsync
  dsimp only
  rw [hsync, image_blit_slot (by omega), Inode.decode_encode_pure, hwrote.same.1]

theorem fileWrite_refused {fdPos : UInt32} {buf : Mem} {count : UInt32}
    (hlong : 512 * 140 < ino.iSize + count)
    : (fileWrite part fdPos ino buf count).run v = .ok ((-1, fdPos, ino), v) := by
  unfold fileWrite fileWriteWith
  rw [if_pos hlong]
  rfl

theorem fileWrite_run {fdPos : UInt32} {buf : Mem} {count : UInt32}
    (hS : FileShape part lim (v.image part) ino) (hfree : (v.image part).FreeBelow part lim)
    {r : (Int × UInt32 × Inode) × Vol} (h : (fileWrite part fdPos ino buf count).run v = .ok r)
    : (r.1.1 = -1 ∧ r.1.2.2 = ino ∧ r.2 = v)
        ∨ r.1.1 = count.toNat
          ∧ ∃ a', Wrote part lim buf count ino (v.image part) r.1.2.2 a'
            ∧ r.2.image part = a'.setSlot (ino.iNo.toNat % 256) r.1.2.2.pure := by
  by_cases hlong : 512 * 140 < ino.iSize + count
  . left
    rw [fileWrite_refused hlong] at h
    cases h
    exact ⟨rfl, rfl, rfl⟩
  . right
    obtain ⟨hcount, a', hW, -, himg⟩ := fileWrite_wrote hS hfree hlong h
    exact ⟨hcount, a', hW, himg⟩

end Write

end RogOS
