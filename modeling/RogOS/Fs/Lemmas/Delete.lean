import RogOS.Fs.Lemmas.Ownership

/-!
What `delete_dir_entry` and `inode_release` do to the image of a volume.
-/

namespace RogOS

variable {part : Partition} {v : Vol} {ino : Inode} {m : UInt32} {buf : Mem} {i k n : Nat}

def Ordinary (buf : Mem) (k : Nat) : Prop :=
  (DirEntry.at buf k).fType ≠ FileType.unknown.code ∧ nameEq buf k [46] = false
    ∧ nameEq buf k [46, 46] = false

def IsDot (buf : Mem) (k : Nat) : Prop :=
  (DirEntry.at buf k).fType ≠ FileType.unknown.code ∧ nameEq buf k [46] = true

section Scan

open deleteDirEntry

structure Scanned (m : UInt32) (buf : Mem) (i : Nat) (sc : Scan) : Prop where
  first : sc.isDirFirstBlock = false → ∀ k < i, ¬ IsDot buf k
  zero : sc.dirEntryCnt = 0 → ∀ k < i, ¬ Ordinary buf k
  one : sc.dirEntryCnt = 1 → ∀ k < i, ∀ l < i, Ordinary buf k → Ordinary buf l → k = l
  missing : sc.dirEntryFound = none → ∀ k < i, Ordinary buf k → (DirEntry.at buf k).iNo ≠ m
  found : ∀ k, sc.dirEntryFound = some k → k < i ∧ Ordinary buf k ∧ (DirEntry.at buf k).iNo = m
  only : ∀ k, sc.dirEntryFound = some k → ∀ l < i, Ordinary buf l → (DirEntry.at buf l).iNo = m
    → l = k

theorem Scanned.skip {sc : Scan} {first : Bool} (h : Scanned m buf i sc) (hord : ¬ Ordinary buf i)
    (hfirst : first = false → sc.isDirFirstBlock = false ∧ ¬ IsDot buf i)
    : Scanned m buf (i + 1) { sc with isDirFirstBlock := first } := by
  have hne : ∀ k, Ordinary buf k → k ≠ i := by
    intro k hk
    rintro rfl
    exact hord hk
  constructor
  . intro h0 k hk
    by_cases hki : k = i
    . rw [hki]
      exact (hfirst h0).2
    . exact h.first (hfirst h0).1 k (by omega)
  . intro h0 k hk ho
    have := hne k ho
    exact h.zero h0 k (by omega) ho
  . intro h1 k hk l hl hok hol
    have := hne k hok
    have := hne l hol
    exact h.one h1 k (by omega) l (by omega) hok hol
  . intro h0 k hk hok
    have := hne k hok
    exact h.missing h0 k (by omega) hok
  . intro k hk
    have hsome := h.found k hk
    exact ⟨by omega, hsome.2⟩
  . intro k hk l hl hol
    have := hne l hol
    exact h.only k hk l (by omega) hol

theorem Scanned.count {sc : Scan} (h : Scanned m buf i sc) (hord : Ordinary buf i)
    {found : Option Nat}
    (hfound : found = some i ∧ (DirEntry.at buf i).iNo = m ∧ sc.dirEntryFound = none
      ∨ found = sc.dirEntryFound ∧ (DirEntry.at buf i).iNo ≠ m)
    : Scanned m buf (i + 1)
        { sc with dirEntryCnt := sc.dirEntryCnt + 1, dirEntryFound := found } where
  first h0 k hk := by
    by_cases hki : k = i
    . rw [hki]
      intro hdot
      exact absurd (hord.2.1.symm.trans hdot.2) (by decide)
    . exact h.first h0 k (by omega)
  zero h0 := by contradiction
  one h1 k hk l hl hok hol := by
    have hz : sc.dirEntryCnt = 0 := Nat.succ.inj h1
    have hi : ∀ x < i + 1, Ordinary buf x → x = i := by
      intro x hx hox
      by_contra hne
      exact h.zero hz x (by omega) hox
    rw [hi k hk hok, hi l hl hol]
  missing h0 k hk hok := by
    dsimp only at h0
    obtain ⟨h1, -, -⟩ | ⟨h1, h2⟩ := hfound
    . rw [h0] at h1
      contradiction
    . by_cases hki : k = i
      . rw [hki]
        exact h2
      . exact h.missing (h1 ▸ h0) k (by omega) hok
  found k hk := by
    dsimp only at hk
    obtain ⟨h1, h2, -⟩ | ⟨h1, h2⟩ := hfound
    . rw [h1, Option.some.injEq] at hk
      rw [← hk]
      exact ⟨by omega, hord, h2⟩
    . have hsome := h.found k (h1 ▸ hk)
      exact ⟨by omega, hsome.2⟩
  only k hk l hl hol hno := by
    dsimp only at hk
    obtain ⟨h1, h2, h3⟩ | ⟨h1, h2⟩ := hfound
    . rw [h1, Option.some.injEq] at hk
      by_contra hne
      exact h.missing h3 l (by omega) hol hno
    . have hli : l ≠ i := by
        rintro rfl
        exact h2 hno
      exact h.only k (h1 ▸ hk) l (by omega) hol hno

theorem scan_run {σ : Type} {s : σ} {sc : Scan} {r : Scan × σ} (h : Scanned m buf i sc)
    (hr : (scan m buf n i sc).run s = .ok r) : Scanned m buf (i + n) r.1 ∧ r.2 = s := by
  induction n generalizing i sc with
  | zero =>
    rw [scan, Cmd.pure_run] at hr
    rw [hr]
    exact ⟨h, rfl⟩
  | succ n ih =>
    rw [show i + (n + 1) = i + 1 + n by omega]
    unfold scan at hr
    split at hr
    . next hty =>
      exact ih (h.skip (fun ho => ho.1 hty) fun h0 => ⟨h0, fun hd => hd.1 hty⟩) hr
    . next hty =>
      split at hr
      . next hdot =>
        exact ih (h.skip (fun ho => absurd (ho.2.1.symm.trans hdot) (by decide)) fun h0 => by
          contradiction) hr
      . next hdot =>
        split at hr
        . next hdd =>
          refine ih (h.skip (fun ho => absurd (ho.2.2.symm.trans hdd) (by decide)) ?_) hr
          exact fun h0 => ⟨h0, fun hd => hdot hd.2⟩
        . next hdd =>
          have hord : Ordinary buf i := ⟨hty, by simpa using hdot, by simpa using hdd⟩
          split at hr
          . next hno =>
            simp only [Cmd.bind_run, Cmd.assert_run] at hr
            obtain ⟨_, _, ⟨hnone, h1⟩, h2⟩ := hr
            cases h1
            exact ih (h.count hord (.inl ⟨rfl, hno, hnone⟩)) h2
          . next hno => exact ih (h.count hord (.inr ⟨rfl, hno⟩)) hr

end Scan

section Delete

variable {a : Image}

def Inode.shrink (ino : Inode) : Inode := { ino with iSize := ino.iSize - 24 }

inductive Image.Deleted (part : Partition) (a : Image) (ino : Inode) (m : UInt32)
    : Image → Bool × Inode → Prop
  | absent
      (none : ∀ i < 140, a.block ino i ≠ 0 → ∀ k < 21, Ordinary (a.blockSec ino i) k →
        (a.entry ino i k).iNo ≠ m)
      : Deleted part a ino m a (false, ino)
  | slot {i k : Nat} (hi : i < 140) (hblock : a.block ino i ≠ 0) (hk : k < 21)
      (ordinary : Ordinary (a.blockSec ino i) k) (number : (a.entry ino i k).iNo = m)
      (only : ∀ l < 21, Ordinary (a.blockSec ino i) l → (a.entry ino i l).iNo = m → l = k)
      (size : 24 ≤ ino.iSize)
      : Deleted part a ino m
          ((a.setSec (a.block ino i).toNat ((a.blockSec ino i).blit (k * 24) 24 Mem.zero)).setSlot
            (ino.iNo.toNat % 256) ino.shrink.pure)
          (true, ino.shrink)
  | block {i k : Nat} (hi : i < 12) (hblock : ino.sector i ≠ 0) (hk : k < 21)
      (ordinary : Ordinary (a.blockSec ino i) k) (number : (a.entry ino i k).iNo = m)
      (single : ∀ l < 21, Ordinary (a.blockSec ino i) l → l = k)
      (noDot : ∀ l < 21, ¬ IsDot (a.blockSec ino i) l) (size : 24 ≤ ino.iSize)
      : Deleted part a ino m
          ((a.setBlockUsed (part.blockIdx (ino.sector i)) false).setSlot (ino.iNo.toNat % 256)
            (ino.setSector i 0).shrink.pure)
          (true, (ino.setSector i 0).shrink)

theorem Inode.toNat_shrink (h : 24 ≤ ino.iSize)
    : 24 ≤ ino.iSize.toNat ∧ ino.shrink.iSize.toNat = ino.iSize.toNat - 24 := by
  have hle : (24 : UInt32).toNat ≤ ino.iSize.toNat := UInt32.le_iff_toNat_le.mp h
  refine ⟨hle, ?_⟩
  exact UInt32.toNat_sub_of_le _ _ h

theorem Image.ref_setSector_zero (hi : i < 12) {j : Nat}
    : a.ref (ino.setSector i 0) j = if j = i then 0 else a.ref ino j := by
  by_cases hji : j = i
  . rw [if_pos hji, hji, ref_direct hi, Inode.sector_setSector_self (by omega)]
  . rw [if_neg hji]
    by_cases hlt : j < 12
    . rw [ref_direct hlt, ref_direct hlt, Inode.sector_setSector_of_ne (by omega) (by omega)]
    . have h12 : (ino.setSector i 0).sector 12 = ino.sector 12 :=
        Inode.sector_setSector_of_ne (by omega) (by omega)
      unfold ref
      rw [h12]
      split
      . rfl
      . rw [block_of_ge (by omega), block_of_ge (by omega), h12]

theorem Image.dirent_setSector_zero (hi : i < 12) {j l : Nat}
    : a.dirent (ino.setSector i 0) j l = if j = i then none else a.dirent ino j l := by
  unfold dirent
  rw [ref_setSector_zero hi]
  by_cases hji : j = i
  . rw [if_pos hji, if_pos rfl, if_pos hji]
  . rw [if_neg hji, if_neg hji]

theorem Image.Owns.dirent_clear (h : a.Owns part ino) (hi : i < 140) (h0 : a.block ino i ≠ 0)
    {j l : Nat} (hj : j < 140) (hl : l < 21)
    : (a.setSec (a.block ino i).toNat ((a.blockSec ino i).blit (k * 24) 24 Mem.zero)).dirent ino j l
        =
      if j = i ∧ l = k then some DirEntry.blank else a.dirent ino j l := by
  have href : a.ref ino i ≠ 0 := by
    rw [ref_of_lt hi]
    exact h0
  rw [← ref_of_lt hi]
  by_cases hji : j = i
  . rw [hji, h.dirent_setSec_self hi href hl]
    by_cases hlk : l = k
    . rw [if_pos ⟨rfl, hlk⟩, hlk, DirEntry.at_blit_self, DirEntry.decode_zero]
    . rw [if_neg (fun h => hlk h.2), DirEntry.at_blit_of_ne hlk, dirent_of_ne_zero hi h0]
      rfl
  . rw [if_neg (fun h => hji h.1)]
    exact h.dirent_setSec_of_ne hi href hj (Ne.symm hji)

theorem inodeSync_image {bufSize : Nat} {r : Unit × Vol}
    (h : (inodeSync part bufSize ino).run v = .ok r)
    : r.2.image part = (v.image part).setSlot (ino.iNo.toNat % 256) ino.pure := by
  rw [inodeSync_run] at h
  rw [h.2.2, image_blit_slot (by omega), Inode.decode_encode_pure]

theorem countIndirect_eq {blocks : Nat → UInt32} {fuel cnt : Nat}
    : deleteDirEntry.countIndirect blocks fuel 12 cnt = none := by
  induction fuel generalizing cnt with
  | zero => rfl
  | succ fuel ih =>
    rw [deleteDirEntry.countIndirect, if_pos (by omega)]
    exact ih

theorem deleteDirEntry.go_run (hino : (v.image part).InBlocks part ino) (hn : i + n = 140)
    (hnone : ∀ j < i, (v.image part).block ino j ≠ 0
      → ∀ k < 21, Ordinary ((v.image part).blockSec ino j) k →
      ((v.image part).entry ino j k).iNo ≠ m) {r : (Bool × Inode) × Vol}
    (h : (go part m ((v.image part).block ino) ino n i).run v = .ok r)
    : (v.image part).Deleted part ino m (r.2.image part) r.1 := by
  induction n generalizing i with
  | zero =>
    rw [go, Cmd.pure_run] at h
    rw [h]
    apply Image.Deleted.absent
    intro j hj
    exact hnone j (by omega)
  | succ n ih =>
    unfold go at h
    split at h
    . next h0 =>
      apply ih (by omega) _ h
      intro j hj hb
      have hji : j ≠ i := by
        rintro rfl
        exact hb h0
      exact hnone j (by omega) hb
    . next h0 =>
      have hblock := hino.block i (by omega) h0
      simp only [Cmd.bind_run, ideRead_block hblock] at h
      obtain ⟨_, _, h1, sc, v1, h2, h3⟩ := h
      cases h1
      rw [Partition.entriesPerSec_eq] at h2
      have hinit : Scanned m ((v.image part).sec ((v.image part).block ino i).toNat) 0 ⟨false, 0,
          none⟩ :=
        ⟨fun _ k hk => by omega, fun _ k hk => by omega, fun _ k hk => by omega, fun _ k hk => by
          omega,
          fun k hk => by contradiction, fun k hk => by contradiction⟩
      obtain ⟨hsc, hv1⟩ := scan_run hinit h2
      rw [Nat.zero_add] at hsc
      dsimp only at hsc hv1
      rw [hv1] at h3
      cases hfound : sc.dirEntryFound with
      | none =>
        rw [hfound] at h3
        apply ih (by omega) _ h3
        intro j hj hb k hk ho
        by_cases hji : j = i
        . rw [hji] at ho ⊢
          exact hsc.missing hfound k hk ho
        . exact hnone j (by omega) hb k hk ho
      | some k =>
        rw [hfound] at h3
        obtain ⟨hk, hord, hno⟩ := hsc.found k hfound
        have honly := hsc.only k hfound
        simp only [Cmd.bind_run, Cmd.assert_run, Cmd.pure_run, Partition.dirEntrySize_eq] at h3
        obtain ⟨_, _, ⟨hcnt, h4⟩, ino1, v2, h5, _, _, ⟨hsize, h6⟩, _, v3, h7, h8⟩ := h3
        cases h4
        cases h6
        have himg := inodeSync_image h7
        rw [h8]
        unfold remove at h5
        split at h5
        . next hfree =>
          -- the block holds no other entry
          simp only [Cmd.bind_run] at h5
          obtain ⟨_, v4, h9, _, v5, h10, h11⟩ := h5
          have h12 := setBit_block h9
          have h13 := bitmapSync_image (show part.HasBit _ .block from h12.1) h10
          unfold unlink at h11
          split at h11
          . next hlt =>
            rw [Cmd.pure_run, Prod.mk.injEq] at h11
            rw [Image.block_of_lt hlt] at h0
            rw [h11.1] at hsize himg ⊢
            have hres := @Image.Deleted.block part (v.image part) ino m i k hlt h0 hk hord hno
              (fun l hl ho => hsc.one hfree.1 l hl k hk ho hord)
                (hsc.first (by simpa using hfree.2)) hsize
            rw [himg, h11.2, h13, h12.2, Image.block_of_lt hlt]
            exact hres
          . rw [countIndirect_eq] at h11
            exact absurd h11 Cmd.throw_run
        . simp only [Cmd.bind_run, Cmd.pure_run] at h5
          obtain ⟨_, v4, h9, h10⟩ := h5
          rw [Prod.mk.injEq] at h10
          rw [h10.1] at hsize himg ⊢
          rw [Partition.dirEntrySize_eq] at h9
          have h11 := ideWrite_image hblock h9
          have hres :=
            @Image.Deleted.slot part (v.image part) ino m i k (by omega) h0 hk hord hno honly hsize
          rw [himg, h10.2, h11]
          exact hres

theorem deleteDirEntry_run (hino : (v.image part).InBlocks part ino) {r : (Bool × Inode) × Vol}
    (h : (deleteDirEntry part ino m).run v = .ok r)
    : (v.image part).Deleted part ino m (r.2.image part) r.1 := by
  simp only [deleteDirEntry, Cmd.bind_run, allBlocks_run hino.table] at h
  obtain ⟨_, _, h1, h2⟩ := h
  cases h1
  exact deleteDirEntry.go_run hino (by omega) (fun j hj => by omega) h2

end Delete

section Release

structure Image.Freed (part : Partition) (a : Image) (gone : UInt32 → Prop) (a' : Image)
    : Prop where
  sec : a'.sec = a.sec
  slot : a'.slot = a.slot
  inodeUsed : a'.inodeUsed = a.inodeUsed
  blockUsed : ∀ b, a'.blockUsed b = true
    ↔ a.blockUsed b = true ∧ ∀ lba, gone lba → lba ≠ 0 → part.blockIdx lba ≠ b

theorem Image.Freed.trans {a a' a'' : Image} {p q : UInt32 → Prop} (h1 : a.Freed part p a')
    (h2 : a'.Freed part q a'') : a.Freed part (fun lba => p lba ∨ q lba) a'' where
  sec := h2.sec.trans h1.sec
  slot := h2.slot.trans h1.slot
  inodeUsed := h2.inodeUsed.trans h1.inodeUsed
  blockUsed b := by
    rw [h2.blockUsed, h1.blockUsed]
    constructor
    . rintro ⟨⟨h3, h4⟩, h5⟩
      refine ⟨h3, ?_⟩
      intro lba h6
      cases h6 with
      | inl h6 => exact h4 lba h6
      | inr h6 => exact h5 lba h6
    . rintro ⟨h3, h4⟩
      exact ⟨⟨h3, fun lba h => h4 lba (.inl h)⟩, fun lba h => h4 lba (.inr h)⟩

theorem releaseBlock_run {lba : UInt32} {r : Unit × Vol} (h : (releaseBlock part lba).run v = .ok r)
    : (v.image part).Freed part (fun x => x = lba) (r.2.image part) := by
  unfold releaseBlock at h
  split at h
  . next h0 =>
    simp only [Cmd.bind_run, Cmd.assert_run] at h
    obtain ⟨_, _, ⟨-, h1⟩, _, v1, h2, h3⟩ := h
    cases h1
    have h4 := setBit_block h2
    rw [bitmapSync_image (show part.HasBit _ .block from h4.1) h3, h4.2]
    refine ⟨rfl, rfl, rfl, ?_⟩
    intro b
    rw [Image.blockUsed_setBlockUsed]
    constructor
    . intro hb
      split at hb
      . contradiction
      . next hne =>
        refine ⟨hb, ?_⟩
        rintro x rfl -
        exact Ne.symm hne
    . rintro ⟨hb, hne⟩
      rw [if_neg (Ne.symm (hne lba rfl h0))]
      exact hb
  . next h0 =>
    rw [Cmd.pure_run] at h
    rw [h]
    refine ⟨rfl, rfl, rfl, ?_⟩
    intro b
    constructor
    . intro hb
      refine ⟨hb, ?_⟩
      rintro x rfl hx
      exact absurd hx h0
    . exact fun hb => hb.1

theorem releaseBlocks_run {blocks : Nat → UInt32} {r : Unit × Vol}
    (h : (releaseBlocks part blocks n i).run v = .ok r)
    : (v.image part).Freed part (fun x => ∃ j, i ≤ j ∧ j < i + n ∧ x = blocks j)
        (r.2.image part) := by
  induction n generalizing i v with
  | zero =>
    rw [releaseBlocks, Cmd.pure_run] at h
    rw [h]
    refine ⟨rfl, rfl, rfl, ?_⟩
    intro b
    constructor
    . intro hb
      refine ⟨hb, ?_⟩
      rintro x ⟨j, h1, h2, -⟩
      omega
    . exact fun hb => hb.1
  | succ n ih =>
    simp only [releaseBlocks, Cmd.bind_run] at h
    obtain ⟨_, v1, h1, h2⟩ := h
    have h3 := (releaseBlock_run h1).trans (ih h2)
    refine ⟨h3.sec, h3.slot, h3.inodeUsed, ?_⟩
    intro b
    rw [h3.blockUsed]
    constructor
    . rintro ⟨hb, hne⟩
      refine ⟨hb, ?_⟩
      rintro x ⟨j, h4, h5, hx⟩
      by_cases hj : j = i
      . exact hne x (.inl (by rw [hx, hj]))
      . exact hne x (.inr ⟨j, by omega, by omega, hx⟩)
    . rintro ⟨hb, hne⟩
      refine ⟨hb, ?_⟩
      rintro x (hx | ⟨j, h4, h5, hx⟩)
      . exact hne x ⟨i, by omega, by omega, hx⟩
      . exact hne x ⟨j, by omega, by omega, hx⟩

structure Image.Released (part : Partition) (a : Image) (ino : Inode) (n : Nat) (a' : Image)
    : Prop where
  sec : a'.sec = a.sec
  slot : a'.slot = Function.update a.slot n (inodeInit 0)
  inodeUsed : a'.inodeUsed = Function.update a.inodeUsed n false
  blockUsed : ∀ b, a'.blockUsed b = true
    ↔ a.blockUsed b = true ∧ ∀ j, a.refs ino j ≠ 0 → part.blockIdx (a.refs ino j) ≠ b

theorem releaseInode_run (hino : (v.image part).InBlocks part ino) {r : Unit × Vol}
    (h : (releaseInode part ino m).run v = .ok r)
    : ino.iNo = m ∧ (v.image part).Released part ino m.toNat (r.2.image part) := by
  simp only [releaseInode, Cmd.bind_run, Cmd.assert_run, allBlocks_run hino.table] at h
  obtain ⟨_, _, ⟨hno, h1⟩, _, _, h2, _, v2, h3, _, v3, h4, _, v4, h5, _, v5, h6, h7⟩ := h
  cases h1
  cases h2
  refine ⟨hno, ?_⟩
  have h8 := (releaseBlock_run h3).trans (releaseBlocks_run h4)
  have h9 := setBit_inode h5
  have h10 := bitmapSync_image (show part.HasBit _ .inode from h9.1) h6
  rw [inodeDelete_run] at h7
  have h11 : r.2.image part = (v5.image part).setSlot m.toNat (inodeInit 0) := by
    rw [h7.2.2.2, image_blit_slot h7.1, Inode.decode_zero]
  rw [h11, h10, h9.2]
  refine ⟨h8.sec, ?_, ?_, ?_⟩
  . exact congrArg (fun f => Function.update f m.toNat (inodeInit 0)) h8.slot
  . exact congrArg (fun f => Function.update f m.toNat false) h8.inodeUsed
  . intro b
    refine (h8.blockUsed b).trans ?_
    constructor
    . rintro ⟨hb, hne⟩
      refine ⟨hb, ?_⟩
      intro j h0
      by_cases hj : j < 141
      . rw [Image.refs_of_lt hj] at h0 ⊢
        by_cases hj140 : j = 140
        . rw [hj140] at h0 ⊢
          exact hne _ (.inl rfl) h0
        . rw [Image.ref_of_lt (by omega)] at h0 ⊢
          refine hne _ (.inr ⟨j, by omega, ?_, rfl⟩) h0
          split
          . omega
          . next h12 =>
            by_contra hge
            rw [Image.block_of_ge (by omega), if_neg (by simpa using h12)] at h0
            exact h0 rfl
      . rw [Image.refs, if_neg hj] at h0
        exact absurd rfl h0
    . rintro ⟨hb, hne⟩
      refine ⟨hb, ?_⟩
      rintro lba (rfl | ⟨j, h12, h13, rfl⟩) h0
      . exact hne 140 h0
      . have hj : j < 140 := by
          split at h13 <;> omega
        have href : (v.image part).refs ino j = (v.image part).block ino j := by
          rw [Image.refs_of_lt (by omega), Image.ref_of_lt hj]
        rw [← href] at h0 ⊢
        exact hne j h0

end Release

end RogOS
