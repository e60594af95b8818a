import RogOS.Fs.Lemmas.Dir

/-!
What `sync_dir_entry` does to a directory.
-/

namespace RogOS

variable {part : Partition}

section Insert

def freeSlot (buf : Mem) : Option Nat :=
  findSlot (fun k => (DirEntry.at buf k).fType == FileType.unknown.code) 21 0

def doubleSector (e : DirEntry) : Mem := (Mem.zero.blit 0 24 e.encode).blit 24 24 e.encode

def singleTable (lba : UInt32) : Mem := Mem.ofWords fun i => if i = 0 then lba else 0

def Image.FullBelow (a : Image) (ino : Inode) (i : Nat) : Prop :=
  ∀ j < i, ino.sector j ≠ 0 ∧ freeSlot (a.sec (ino.sector j).toNat) = none

def Image.TailUsed (part : Partition) (a : Image) : Prop :=
  ∀ b, part.bitLen ≤ b → b < 4096 * part.sb.blockBitmapSects.toNat → a.blockUsed b = true

/--
What `sync_dir_entry` does to the image of the volume and to the inode of the directory: the entry
goes to the first free slot of a direct block, or else, twice, to a new block. Behind the direct
blocks a new indirect table is made whatever `i_sectors[12]` was.
-/
inductive Image.Inserted (part : Partition) (a : Image) (ino : Inode) (e : DirEntry)
    : Image → Inode → Prop where
  | slot (i k : Nat) (hi : i < 12) (hfull : a.FullBelow ino i) (hblock : ino.sector i ≠ 0)
      (hk : freeSlot (a.sec (ino.sector i).toNat) = some k)
      : Inserted part a ino e
          (a.setSec (ino.sector i).toNat
            ((a.sec (ino.sector i).toNat).blit (k * 24) 24 e.encode))
          (ino.grow 24)
  | block (i b : Nat) (hi : i < 12) (hfull : a.FullBelow ino i) (hblock : ino.sector i = 0)
      (hb : a.FreeBlock part b)
      : Inserted part a ino e
          ((a.setBlockUsed b true).setSec (part.blockLba b).toNat (doubleSector e))
          (((ino.setSector i (part.blockLba b)).grow 24).grow 24)
  | table (b c : Nat) (hfull : a.FullBelow ino 12) (hb : a.FreeBlock part b)
      (hc : (a.setBlockUsed b true).FreeBlock part c)
      : Inserted part a ino e
          ((((a.setBlockUsed b true).setBlockUsed c true).setSec (part.blockLba b).toNat
            (singleTable (part.blockLba c))).setSec (part.blockLba c).toNat (doubleSector e))
          (((ino.setSector 12 (part.blockLba b)).grow 24).grow 24)

variable {v : Vol} {ino : Inode} {e : DirEntry} {a : Image}

theorem Image.TailUsed.setBlockUsed {b : Nat} (h : a.TailUsed part)
    : (a.setBlockUsed b true).TailUsed part := by
  intro c h1 h2
  rw [blockUsed_setBlockUsed]
  split
  . rfl
  . exact h c h1 h2

theorem Image.FreeBlock.lt_bitLen {b : Nat} (hb : a.FreeBlock part b) (ht : a.TailUsed part)
    : b < part.bitLen := by
  by_contra h
  have h1 := ht b (by omega) hb.lt
  rw [hb.clear] at h1
  contradiction

theorem fillSlot_run {lba : UInt32} (hlba : part.IsBlock lba) {r : (Bool × Inode) × Vol}
    (h : (syncDirEntry.fillSlot part e lba ino).run v = .ok r)
    : (∃ k, freeSlot ((v.image part).sec lba.toNat) = some k ∧ r.1 = (true, ino.grow 24)
        ∧ r.2.image part = (v.image part).setSec lba.toNat
            (((v.image part).sec lba.toNat).blit (k * 24) 24 e.encode))
      ∨ freeSlot ((v.image part).sec lba.toNat) = none ∧ r = ((false, ino), v) := by
  simp only [syncDirEntry.fillSlot, Cmd.bind_run, ideRead_block hlba] at h
  obtain ⟨_, _, h1, h2⟩ := h
  cases h1
  rw [Partition.entriesPerSec_eq, ← freeSlot] at h2
  cases hk : freeSlot ((v.image part).sec lba.toNat) with
  | some k =>
    left
    simp only [hk, Cmd.bind_run, Cmd.pure_run, Partition.dirEntrySize_eq] at h2
    obtain ⟨_, _, h3, h4⟩ := h2
    rw [h4]
    exact ⟨k, rfl, rfl, ideWrite_image hlba h3⟩
  | none =>
    right
    simp only [hk, Cmd.pure_run] at h2
    exact ⟨rfl, h2⟩

theorem newSector_eq : syncDirEntry.newSector part e = Mem.zero.blit 0 24 e.encode := by
  simp [syncDirEntry.newSector]

theorem bitmapSync_blockLba {b : Nat} (hb : a.FreeBlock part b) {r : Unit × Vol}
    (h : (bitmapSync part (part.blockIdx (part.blockLba b)) .block).run v = .ok r)
    : r.2.image part = v.image part := by
  rw [Partition.blockIdx_blockLba hb.lt_max] at h
  exact bitmapSync_image (show part.HasBit b .block from hb.lt) h

theorem Image.setSec_setSec {lba : Nat} {m m' : Mem}
    : (a.setSec lba m).setSec lba m' = a.setSec lba m' := by
  simp [setSec]

theorem Image.setSec_congr {lba : Nat} {m m' : Mem} (h : m.clip 512 = m'.clip 512)
    : a.setSec lba m = a.setSec lba m' := by
  simp [setSec, h]

theorem freeSlot_newSector (he : e.fType ≠ 0)
    : freeSlot ((Mem.zero.blit 0 24 e.encode).clip 512) = some 1 := by
  have h0 : DirEntry.at (Mem.zero.blit (0 * 24) 24 e.encode) 0 = e := by
    rw [DirEntry.at_blit_self, DirEntry.decode_encode]
  have h1 : DirEntry.at (Mem.zero.blit (0 * 24) 24 e.encode) 1 = DirEntry.blank := by
    rw [DirEntry.at_blit_of_ne (by omega), DirEntry.at_zero]
  rw [Nat.zero_mul] at h0 h1
  have hcode : (e.fType == FileType.unknown.code) = false := beq_false_of_ne he
  simp only [freeSlot]
  rw [findSlot, DirEntry.at_clip (by omega), h0, hcode, findSlot, DirEntry.at_clip (by omega), h1]
  rfl

theorem fillSlot_newSector {b : Nat} (hb : part.IsBlock (part.blockLba b)) (he : e.fType ≠ 0)
    (hv : v.image part = a.setSec (part.blockLba b).toNat (syncDirEntry.newSector part e))
    {r : (Bool × Inode) × Vol}
    (h : (syncDirEntry.fillSlot part e (part.blockLba b) ino).run v = .ok r)
    : r.1 = (true, ino.grow 24)
        ∧ r.2.image part = a.setSec (part.blockLba b).toNat (doubleSector e) := by
  have hfill := fillSlot_run hb h
  rw [hv, newSector_eq, Image.sec_setSec_self, freeSlot_newSector he] at hfill
  simp only [Option.some.injEq, exists_eq_left', reduceCtorEq, false_and, or_false] at hfill
  refine ⟨hfill.1, ?_⟩
  rw [hfill.2, Image.setSec_setSec]
  exact Image.setSec_congr Mem.clip_blit_clip

theorem newBlock_direct {i : Nat} {blocks : Nat → UInt32} (hi : i < 12)
    (ht : (v.image part).TailUsed part) {r : (Option (Nat → UInt32) × Inode) × Vol}
    (h : (syncDirEntry.newBlock part (blockBitmapAlloc part) e i blocks ino).run v = .ok r)
    : ∃ b, (v.image part).FreeBlock part b
        ∧ r.1 = (some (Function.update blocks i (part.blockLba b)),
            (ino.setSector i (part.blockLba b)).grow 24)
        ∧ r.2.image part = ((v.image part).setBlockUsed b true).setSec (part.blockLba b).toNat
            (syncDirEntry.newSector part e) := by
  simp only [syncDirEntry.newBlock, Cmd.bind_run] at h
  obtain ⟨o, v1, h1, h2⟩ := h
  obtain ⟨b, hb, ho, hv1⟩ := blockBitmapAlloc_image h1
  have hblock := part.isBlock_blockLba (hb.lt_bitLen ht)
  simp only at ho hv1
  rw [ho] at h2
  simp only [Cmd.bind_run, Cmd.assert_run, if_pos hi, Cmd.pure_run] at h2
  obtain ⟨_, _, ⟨-, h3⟩, _, v2, h4, _, v3, h5, h6⟩ := h2
  cases h3
  have hv2 := bitmapSync_blockLba hb h4
  have hv3 := ideWrite_image hblock h5
  simp only at hv2 hv3
  rw [h6]
  refine ⟨b, hb, by simp, ?_⟩
  rw [hv3, hv2, hv1]

theorem newBlock_table {blocks : Nat → UInt32} (hblocks : ∀ i, 12 < i → blocks i = 0)
    (ht : (v.image part).TailUsed part) {r : (Option (Nat → UInt32) × Inode) × Vol}
    (h : (syncDirEntry.newBlock part (blockBitmapAlloc part) e 12 blocks ino).run v = .ok r)
    : ∃ b c, (v.image part).FreeBlock part b
        ∧ ((v.image part).setBlockUsed b true).FreeBlock part c
        ∧ r.1 = (some (Function.update blocks 12 (part.blockLba c)),
            (ino.setSector 12 (part.blockLba b)).grow 24)
        ∧ r.2.image part = ((((v.image part).setBlockUsed b true).setBlockUsed c true).setSec
            (part.blockLba b).toNat (singleTable (part.blockLba c))).setSec (part.blockLba c).toNat
              (syncDirEntry.newSector part e) := by
  simp only [syncDirEntry.newBlock, Cmd.bind_run] at h
  obtain ⟨o, v1, h1, h2⟩ := h
  obtain ⟨b, hb, ho, hv1⟩ := blockBitmapAlloc_image h1
  have hbb := part.isBlock_blockLba (hb.lt_bitLen ht)
  simp only at ho hv1
  rw [ho] at h2
  simp only [Cmd.bind_run, Cmd.assert_run, Nat.lt_irrefl, ↓reduceIte] at h2
  obtain ⟨_, _, ⟨-, h3⟩, _, v2, h4, o', v3, h5, h6⟩ := h2
  cases h3
  have hv2 := bitmapSync_blockLba hb h4
  simp only at hv2
  obtain ⟨c, hc, ho', hv3⟩ := blockBitmapAlloc_image h5
  simp only at ho' hv3
  rw [hv2, hv1] at hc hv3
  have hcb := part.isBlock_blockLba (hc.lt_bitLen ht.setBlockUsed)
  rw [ho'] at h6
  simp only [Cmd.bind_run, Cmd.assert_run, Cmd.pure_run] at h6
  obtain ⟨_, _, ⟨-, h7⟩, _, v4, h8, _, v5, h9, _, v6, h10, h11⟩ := h6
  cases h7
  have hv4 := bitmapSync_blockLba hc h8
  rw [Inode.sector_setSector_self (by omega)] at h9
  have hv5 := ideWrite_image hbb h9
  have hv6 := ideWrite_image hcb h10
  simp only at hv4 hv5 hv6
  have htable : (Mem.ofWords fun i => Function.update blocks 12 (part.blockLba c) (i + 12))
      = singleTable (part.blockLba c) := by
    unfold singleTable
    congr
    funext i
    rw [Function.update_apply]
    by_cases hi : i = 0
    . simp [hi]
    . rw [if_neg (by omega), if_neg hi, hblocks _ (by omega)]
  rw [h11]
  refine ⟨b, c, hb, hc, by simp, ?_⟩
  rw [hv6, hv5, hv4, hv3, htable]

def directBlocks (ino : Inode) : Nat → UInt32 := fun i => if i < 12 then ino.sector i else 0

theorem syncDirEntry.go_run {n i : Nat} (hn : i + n = 140) (hi : i ≤ 12)
    (hfull : (v.image part).FullBelow ino i)
    (hino : ∀ j < 12, ino.sector j ≠ 0 → part.IsBlock (ino.sector j))
    (ht : (v.image part).TailUsed part) (he : e.fType ≠ 0) {r : (Bool × Inode) × Vol}
    (h : (go part (blockBitmapAlloc part) e n i (directBlocks ino) ino).run v = .ok r)
    : r.1.1 = true ∧ (v.image part).Inserted part ino e (r.2.image part) r.1.2 := by
  induction n generalizing i with
  | zero => omega
  | succ n ih =>
    unfold go at h
    split at h
    . next h0 =>
      simp only [Cmd.bind_run] at h
      obtain ⟨p, v1, h1, h2⟩ := h
      by_cases hlt : i < 12
      . obtain ⟨b, hb, hp, hv1⟩ := newBlock_direct hlt ht h1
        simp only at hp hv1
        simp only [hp, Cmd.bind_run, Function.update_self] at h2
        obtain ⟨q, v2, h3, h4⟩ := h2
        obtain ⟨hq, hv2⟩ := fillSlot_newSector (part.isBlock_blockLba (hb.lt_bitLen ht)) he hv1 h3
        simp only at hq hv2
        simp only [hq, Cmd.pure_run] at h4
        simp only [directBlocks, if_pos hlt] at h0
        rw [h4, hv2]
        exact ⟨rfl, .block i b hlt hfull h0 hb⟩
      . have hi12 : i = 12 := by omega
        subst hi12
        have hzero : ∀ j, 12 < j → directBlocks ino j = 0 := by
          intro j hj
          simp [directBlocks, show ¬ j < 12 by omega]
        obtain ⟨b, c, hb, hc, hp, hv1⟩ := newBlock_table hzero ht h1
        simp only at hp hv1
        simp only [hp, Cmd.bind_run, Function.update_self] at h2
        obtain ⟨q, v2, h3, h4⟩ := h2
        obtain ⟨hq, hv2⟩ := fillSlot_newSector
          (part.isBlock_blockLba (hc.lt_bitLen ht.setBlockUsed)) he hv1 h3
        simp only at hq hv2
        simp only [hq, Cmd.pure_run] at h4
        rw [h4, hv2]
        exact ⟨rfl, .table b c hfull hb hc⟩
    . next h0 =>
      have hlt : i < 12 := by
        by_contra hge
        simp [directBlocks, hge] at h0
      simp only [directBlocks, if_pos hlt] at h0
      simp only [Cmd.bind_run] at h
      obtain ⟨q, v1, h1, h2⟩ := h
      simp only [directBlocks, if_pos hlt] at h1
      obtain ⟨k, hk, hq, hv1⟩ | ⟨hk, hq⟩ := fillSlot_run (hino i hlt h0) h1
      . simp only at hq hv1
        simp only [hq, Cmd.pure_run] at h2
        rw [h2, hv1]
        exact ⟨rfl, .slot i k hlt hfull h0 hk⟩
      . simp only [Prod.mk.injEq] at hq
        obtain ⟨rfl, rfl⟩ := hq
        apply ih (by omega) (by omega) ?_ h2
        intro j hj
        by_cases hji : j = i
        . rw [hji]
          exact ⟨h0, hk⟩
        . exact hfull j (by omega)

theorem syncDirEntry_run (hino : ∀ j < 12, ino.sector j ≠ 0 → part.IsBlock (ino.sector j))
    (ht : (v.image part).TailUsed part) (he : e.fType ≠ 0) {r : (Bool × Inode) × Vol}
    (h : (syncDirEntry part ino e).run v = .ok r)
    : r.1.1 = true ∧ ino.iSize % 24 = 0
        ∧ (v.image part).Inserted part ino e (r.2.image part) r.1.2 := by
  simp only [syncDirEntry, syncDirEntryWith, Cmd.bind_run, Cmd.assert_run] at h
  obtain ⟨_, _, ⟨h1, h2⟩, h3⟩ := h
  cases h2
  rw [Partition.dirEntrySize_eq] at h1
  have h4 := syncDirEntry.go_run (by omega) (by omega) (by intro j hj; omega) hino ht he h3
  exact ⟨h4.1, h1, h4.2⟩

end Insert

section Effect

variable {a : Image} {ino : Inode} {e : DirEntry} {i j k l b c : Nat}

theorem at_doubleSector (hl : l < 21)
    : DirEntry.at ((doubleSector e).clip 512) l = if l < 2 then e else DirEntry.blank := by
  rw [DirEntry.at_clip hl]
  have h : doubleSector e = (Mem.zero.blit (0 * 24) 24 e.encode).blit (1 * 24) 24 e.encode := by
    rw [Nat.zero_mul, Nat.one_mul]
    rfl
  rw [h]
  by_cases h1 : l = 1
  . rw [h1, DirEntry.at_blit_self, DirEntry.decode_encode, if_pos (by omega)]
  . rw [DirEntry.at_blit_of_ne h1]
    by_cases h0 : l = 0
    . rw [h0, DirEntry.at_blit_self, DirEntry.decode_encode, if_pos (by omega)]
    . rw [DirEntry.at_blit_of_ne h0, DirEntry.at_zero, if_neg (by omega)]

theorem word_singleTable {lba : UInt32} (hj : j < 128)
    : ((singleTable lba).clip 512).word (4 * j) = if j = 0 then lba else 0 := by
  rw [Mem.word_clip (by omega), singleTable, Mem.word_ofWords]

namespace Image

theorem Owns.toNat_ne (h : a.Owns part ino) (hi : i < 141) (hj : j < 141) (h0 : a.ref ino i ≠ 0)
    (hij : i ≠ j) : (a.ref ino j).toNat ≠ (a.ref ino i).toNat := by
  intro heq
  exact hij (h.inj i hi j hj h0 (UInt32.toNat_inj.mp heq.symm))

theorem Owns.ref_setSec (h : a.Owns part ino) (hi : i < 140) (h0 : a.ref ino i ≠ 0) {m : Mem}
    : (a.setSec (a.ref ino i).toNat m).ref ino j = a.ref ino j := by
  symm
  apply ref_congr
  . intro _ _
    rfl
  . intro _
    rw [sec_setSec_of_ne]
    exact h.toNat_ne (j := 140) (by omega) (by omega) h0 (by omega)

theorem Owns.dirent_setSec_of_ne (h : a.Owns part ino) (hi : i < 140) (h0 : a.ref ino i ≠ 0)
    {m : Mem} (hj : j < 140) (hij : i ≠ j)
    : (a.setSec (a.ref ino i).toNat m).dirent ino j l = a.dirent ino j l := by
  apply dirent_congr (h.ref_setSec hi h0)
  intro _
  rw [h.ref_setSec hi h0, sec_setSec_of_ne]
  exact h.toNat_ne (by omega) (by omega) h0 hij

theorem Owns.dirent_setSec_self (h : a.Owns part ino) (hi : i < 140) (h0 : a.ref ino i ≠ 0)
    {m : Mem}
    (hl : l < 21) : (a.setSec (a.ref ino i).toNat m).dirent ino i l = some (DirEntry.at m l) := by
  unfold dirent
  rw [h.ref_setSec hi h0, if_neg h0, sec_setSec_self, DirEntry.at_clip hl]

theorem Owns.dirent_slot (h : a.Owns part ino) (hi : i < 12) (h0 : ino.sector i ≠ 0) (hj : j < 140)
    (hl : l < 21)
    : (a.setSec (ino.sector i).toNat
        ((a.sec (ino.sector i).toNat).blit (k * 24) 24 e.encode)).dirent
        (ino.grow 24) j l
        =
      if j = i ∧ l = k then some e else a.dirent ino j l := by
  rw [← a.ref_direct hi] at h0 ⊢
  rw [show ∀ (a' : Image), a'.dirent (ino.grow 24) j l = a'.dirent ino j l from fun _ => rfl]
  by_cases hji : j = i
  . subst hji
    rw [h.dirent_setSec_self hj h0 hl]
    by_cases hlk : l = k
    . rw [if_pos ⟨rfl, hlk⟩, hlk, DirEntry.at_blit_self, DirEntry.decode_encode]
    . rw [if_neg (by omega), DirEntry.at_blit_of_ne hlk, dirent, if_neg h0]
  . rw [if_neg (by omega), h.dirent_setSec_of_ne (by omega) h0 hj (Ne.symm hji)]

section Block

variable (h : a.Owns part ino) (hb : a.FreeBlock part b)
include h hb

theorem Owns.toNat_ne_free (hj : j < 141) (h0 : a.ref ino j ≠ 0)
    : (a.ref ino j).toNat ≠ (part.blockLba b).toNat := by
  intro heq
  exact h.ne_free hb.clear hb.lt_max hj h0 (UInt32.toNat_inj.mp heq)

theorem Owns.ref_block (hi : i < 12) (hj : j < 141)
    : ((a.setBlockUsed b true).setSec (part.blockLba b).toNat (doubleSector e)).ref
        (((ino.setSector i (part.blockLba b)).grow 24).grow 24) j
        =
      if j = i then part.blockLba b else a.ref ino j := by
  by_cases hji : j = i
  . rw [if_pos hji, hji, ref_direct hi]
    simp [show i < 13 by omega]
  . rw [if_neg hji]
    have hsec : ∀ x < 13, x ≠ i →
        (((ino.setSector i (part.blockLba b)).grow 24).grow 24).sector x = ino.sector x := by
      intro x _ hx
      simp [Inode.sector_setSector_of_ne (show i < 13 by omega) (Ne.symm hx)]
    by_cases hj12 : j < 12
    . rw [ref_direct hj12, ref_direct hj12, hsec j (by omega) hji]
    . have h12 := hsec 12 (by omega) (by omega)
      unfold ref
      split
      . exact h12
      . rw [block_of_ge (by omega), block_of_ge (by omega), h12]
        split
        . next hne =>
          have hfree := h.toNat_ne_free hb (show 140 < 141 by omega) hne
          rw [ref_table] at hfree
          rw [sec_setSec_of_ne hfree]
          rfl
        . rfl

theorem Owns.dirent_block (hi : i < 12) (hj : j < 140) (hl : l < 21)
    : ((a.setBlockUsed b true).setSec (part.blockLba b).toNat (doubleSector e)).dirent
        (((ino.setSector i (part.blockLba b)).grow 24).grow 24) j l
        =
      if j = i then some (if l < 2 then e else DirEntry.blank) else a.dirent ino j l := by
  have href := h.ref_block hb (e := e) hi (show j < 141 by omega)
  by_cases hji : j = i
  . have hne := (part.isData_blockLba hb.lt_max).ne_zero
    rw [if_pos hji] at href ⊢
    unfold dirent
    rw [href, if_neg hne, sec_setSec_self, at_doubleSector hl]
  . rw [if_neg hji] at href ⊢
    symm
    apply dirent_congr href.symm
    intro h0
    rw [sec_setSec_of_ne (h.toNat_ne_free hb (by omega) h0)]
    rfl

end Block

section Table

variable (h : a.Owns part ino) (hb : a.FreeBlock part b)
  (hc : (a.setBlockUsed b true).FreeBlock part c)

include hc in
theorem FreeBlock.ne : c ≠ b := by
  intro heq
  have := hc.clear
  rw [blockUsed_setBlockUsed, if_pos heq] at this
  contradiction

include hc in
theorem FreeBlock.clear_of_second : a.blockUsed c = false := by
  have := hc.clear
  rw [blockUsed_setBlockUsed, if_neg (FreeBlock.ne hc)] at this
  exact this

include hb hc

theorem FreeBlock.toNat_ne : (part.blockLba b).toNat ≠ (part.blockLba c).toNat := by
  intro heq
  have := part.blockLba_inj hb.lt_max hc.lt_max (UInt32.toNat_inj.mp heq)
  exact FreeBlock.ne hc this.symm

theorem ref_table_new (hj : j < 141)
    : ((((a.setBlockUsed b true).setBlockUsed c true).setSec (part.blockLba b).toNat
        (singleTable (part.blockLba c))).setSec (part.blockLba c).toNat (doubleSector e)).ref
          (((ino.setSector 12 (part.blockLba b)).grow 24).grow 24) j
        =
      if j = 140 then part.blockLba b else if j = 12 then part.blockLba c
      else if j < 12 then ino.sector j else 0 := by
  have hsec : (((ino.setSector 12 (part.blockLba b)).grow 24).grow 24).sector 12
      = part.blockLba b := by
    simp
  by_cases hj140 : j = 140
  . rw [if_pos hj140, hj140, ref_table, hsec]
  . rw [if_neg hj140, ref_of_lt (by omega)]
    by_cases hj12 : j < 12
    . rw [if_neg (by omega), if_pos hj12, block_of_lt hj12]
      simp [Inode.sector_setSector_of_ne (show 12 < 13 by omega) (show 12 ≠ j by omega)]
    . rw [block_of_ge (by omega), hsec, if_pos (part.isData_blockLba hb.lt_max).ne_zero,
        sec_setSec_of_ne (FreeBlock.toNat_ne hb hc), sec_setSec_self, word_singleTable (by omega)]
      by_cases hj' : j = 12
      . simp [hj']
      . rw [if_neg (by omega), if_neg hj', if_neg hj12]

include h in
theorem Owns.dirent_table (hj : j < 140) (hl : l < 21)
    : ((((a.setBlockUsed b true).setBlockUsed c true).setSec (part.blockLba b).toNat
        (singleTable (part.blockLba c))).setSec (part.blockLba c).toNat (doubleSector e)).dirent
          (((ino.setSector 12 (part.blockLba b)).grow 24).grow 24) j l
        =
      if j < 12 then a.dirent ino j l
      else if j = 12 then some (if l < 2 then e else DirEntry.blank) else none := by
  have href := @ref_table_new part a ino e j b c hb hc (by omega)
  rw [if_neg (by omega)] at href
  by_cases hj12 : j < 12
  . rw [if_neg (by omega), if_pos hj12] at href
    rw [if_pos hj12]
    symm
    apply dirent_congr
    . rw [href, ref_direct hj12]
    . intro h0
      rw [sec_setSec_of_ne, sec_setSec_of_ne (h.toNat_ne_free hb (by omega) h0)]
      . rfl
      . intro heq
        exact h.ne_free (FreeBlock.clear_of_second hc) hc.lt_max (by omega) h0
          (UInt32.toNat_inj.mp heq)
  . rw [if_neg hj12]
    by_cases hj' : j = 12
    . rw [if_pos hj'] at href ⊢
      unfold dirent
      rw [href, if_neg (part.isData_blockLba hc.lt_max).ne_zero, sec_setSec_self,
        at_doubleSector hl]
    . rw [if_neg hj', if_neg hj12] at href
      rw [if_neg hj']
      unfold dirent
      rw [href, if_pos rfl]

end Table

end Image

end Effect

end RogOS
