import Mathlib.Data.Nat.Count
import RogOS.Fs.Lemmas.Delete

/-!
The run of `delete_dir_entry` on a directory that holds the inode number at most once.
-/

namespace RogOS

variable {part : Partition} {v : Vol} {ino : Inode} {m : UInt32} {buf : Mem} {i j k n : Nat}

instance : Decidable (Ordinary buf k) := inferInstanceAs (Decidable (_ ∧ _))

instance : Decidable (IsDot buf k) := inferInstanceAs (Decidable (_ ∧ _))

def Alone (buf : Mem) (k : Nat)
    : Prop := (∀ l < 21, Ordinary buf l → l = k) ∧ ∀ l < 21, ¬ IsDot buf l

instance : Decidable (Alone buf k) := inferInstanceAs (Decidable (_ ∧ _))

section Scan

open deleteDirEntry

def Match (m : UInt32) (buf : Mem) (k : Nat) : Prop := Ordinary buf k ∧ (DirEntry.at buf k).iNo = m

structure Tally (m : UInt32) (buf : Mem) (i : Nat) (sc : Scan) : Prop where
  first : sc.isDirFirstBlock = true ↔ ∃ k < i, IsDot buf k
  count : sc.dirEntryCnt = Nat.count (Ordinary buf) i
  found : ∀ k, sc.dirEntryFound = some k ↔ k < i ∧ Match m buf k

theorem Tally.init : Tally m buf 0 ⟨false, 0, none⟩ where
  first := by simp
  count := by simp
  found := by simp

theorem exists_lt_succ_iff {p : Nat → Prop} : (∃ k < i + 1, p k) ↔ (∃ k < i, p k) ∨ p i := by
  simp only [Nat.lt_succ_iff_lt_or_eq, or_and_right, exists_or, exists_eq_left]

theorem Tally.found_succ {sc : Scan} (h : Tally m buf i sc) (hno : ¬ Match m buf i)
    : ∀ k, sc.dirEntryFound = some k ↔ k < i + 1 ∧ Match m buf k := by
  intro k
  rw [h.found]
  constructor
  . rintro ⟨hk, hm⟩
    exact ⟨by omega, hm⟩
  . rintro ⟨hk, hm⟩
    have hki : k ≠ i := by
      rintro rfl
      exact hno hm
    exact ⟨by omega, hm⟩

theorem Tally.skip {sc : Scan} {first : Bool} (h : Tally m buf i sc) (hord : ¬ Ordinary buf i)
    (hfirst : first = true ↔ sc.isDirFirstBlock = true ∨ IsDot buf i)
    : Tally m buf (i + 1) { sc with isDirFirstBlock := first } where
  first := by
    rw [exists_lt_succ_iff, ← h.first]
    exact hfirst
  count := by
    rw [Nat.count_succ, if_neg hord]
    exact h.count
  found := h.found_succ fun hm => hord hm.1

theorem Ordinary.not_isDot (h : Ordinary buf k) : ¬ IsDot buf k := by
  intro hdot
  exact absurd (h.2.1.symm.trans hdot.2) (by decide)

theorem Tally.next {sc : Scan} (h : Tally m buf i sc) (hord : Ordinary buf i) {found : Option Nat}
    (hfound : ∀ k, found = some k ↔ k < i + 1 ∧ Match m buf k)
    : Tally m buf (i + 1) { sc with
        dirEntryCnt := sc.dirEntryCnt + 1, dirEntryFound := found } where
  first := by
    rw [exists_lt_succ_iff, ← h.first]
    simp only [hord.not_isDot, or_false]
  count := by
    rw [Nat.count_succ, if_pos hord, h.count]
  found := hfound

theorem scan_eq {σ : Type} {s : σ} {sc : Scan}
    (hone : ∀ k < i + n, ∀ l < i + n, Match m buf k → Match m buf l → k = l)
    (h : Tally m buf i sc)
    : ∃ sc', (scan m buf n i sc).run s = .ok (sc', s) ∧ Tally m buf (i + n) sc' := by
  induction n generalizing i sc with
  | zero => exact ⟨sc, rfl, h⟩
  | succ n ih =>
    rw [show i + (n + 1) = i + 1 + n by omega] at hone ⊢
    unfold scan
    split
    . next hty =>
      apply ih hone
      apply h.skip (fun ho => ho.1 hty)
      simp only [IsDot, hty, not_true_eq_false, ne_eq, false_and, or_false]
    . next hty =>
      split
      . next hdot =>
        apply ih hone
        apply h.skip (fun ho => absurd (ho.2.1.symm.trans hdot) (by decide))
        simp only [IsDot, hdot, ne_eq, hty, not_false_eq_true, and_self, or_true]
      . next hdot =>
        split
        . next hdd =>
          apply ih hone
          apply h.skip (fun ho => absurd (ho.2.2.symm.trans hdd) (by decide))
          simp only [IsDot, hdot, Bool.false_eq_true, and_false, or_false]
        . next hdd =>
          have hord : Ordinary buf i := ⟨hty, by simpa using hdot, by simpa using hdd⟩
          split
          . next hno =>
            have hmatch : Match m buf i := ⟨hord, hno⟩
            have hnone : sc.dirEntryFound = none := by
              apply Option.eq_none_iff_forall_ne_some.mpr
              intro k hk
              rw [h.found] at hk
              have := hone k (by omega) i (by omega) hk.2 hmatch
              omega
            rw [Cmd.exec_assert_bind, if_pos hnone]
            apply ih hone
            apply h.next hord
            intro k
            rw [Option.some.injEq]
            constructor
            . rintro rfl
              exact ⟨by omega, hmatch⟩
            . rintro ⟨hk, hm⟩
              exact hone i (by omega) k (by omega) hmatch hm
          . next hno =>
            apply ih hone
            exact h.next hord (h.found_succ fun hm => hno hm.2)

theorem Tally.alone_iff {sc : Scan} (h : Tally m buf 21 sc) (hk : k < 21) (hord : Ordinary buf k)
    : sc.dirEntryCnt = 1 ∧ ¬ sc.isDirFirstBlock ↔ Alone buf k := by
  have hmem : ∀ l, l ∈ (Finset.range 21).filter (Ordinary buf) ↔ l < 21 ∧ Ordinary buf l := by
    intro l
    rw [Finset.mem_filter, Finset.mem_range]
  have hcount : sc.dirEntryCnt = 1 ↔ ∀ l < 21, Ordinary buf l → l = k := by
    rw [h.count, Nat.count_eq_card_filter_range, Finset.card_eq_one]
    constructor
    . rintro ⟨x, hx⟩ l hl ho
      have hl' := (hmem l).mpr ⟨hl, ho⟩
      have hk' := (hmem k).mpr ⟨hk, hord⟩
      rw [hx, Finset.mem_singleton] at hl' hk'
      rw [hl', hk']
    . intro hall
      refine ⟨k, ?_⟩
      apply Finset.ext
      intro l
      rw [hmem, Finset.mem_singleton]
      constructor
      . rintro ⟨hl, ho⟩
        exact hall l hl ho
      . rintro rfl
        exact ⟨hk, hord⟩
  rw [hcount, h.first]
  simp only [not_exists, not_and]
  rfl

theorem Tally.count_pos {sc : Scan} (h : Tally m buf 21 sc) (hk : k < 21) (hord : Ordinary buf k)
    : 1 ≤ sc.dirEntryCnt := by
  rw [h.count]
  have h1 := Nat.count_monotone (Ordinary buf) (show k + 1 ≤ 21 by omega)
  rw [Nat.count_succ, if_pos hord] at h1
  omega

end Scan

section Run

open deleteDirEntry

variable {a : Image}

structure Image.Held (a : Image) (ino : Inode) (m : UInt32) (i k : Nat) : Prop where
  block : i < 140
  slot : k < 21
  present : a.block ino i ≠ 0
  holds : Match m (a.blockSec ino i) k

def Image.HeldOnce (a : Image) (ino : Inode) (m : UInt32) : Prop :=
  ∀ i j k l, a.Held ino m i k → a.Held ino m j l → i = j ∧ k = l

theorem Image.HeldOnce.match_eq (h : a.HeldOnce ino m) (hi : i < 140) (h0 : a.block ino i ≠ 0)
    : ∀ k < 0 + 21, ∀ l < 0 + 21, Match m (a.blockSec ino i) k → Match m (a.blockSec ino i) l
        → k = l := by
  intro k hk l hl h1 h2
  exact (h i i k l ⟨hi, by omega, h0, h1⟩ ⟨hi, by omega, h0, h2⟩).2

def deleteDirEntry.shrink (part : Partition) (ino : Inode) : VolM (Bool × Inode) := do
  Cmd.assert .panic (24 ≤ ino.iSize)
  inodeSync part 1024 ino.shrink
  pure (true, ino.shrink)

theorem deleteDirEntry.go_absent (hino : (v.image part).InBlocks part ino) (hn : i + n = 140)
    (hnone : ∀ j k, i ≤ j → ¬ (v.image part).Held ino m j k)
    : (go part m ((v.image part).block ino) ino n i).run v = .ok ((false, ino), v) := by
  induction n generalizing i with
  | zero => rfl
  | succ n ih =>
    unfold go
    have hrest := ih (i := i + 1) (by omega) fun j k hj => hnone j k (by omega)
    split
    . exact hrest
    . next h0 =>
      have hno : ∀ k < 21, ¬ Match m ((v.image part).blockSec ino i) k :=
        fun k hk hm => hnone i k (by omega) ⟨by omega, hk, h0, hm⟩
      obtain ⟨sc, hrun, hsc⟩ := @scan_eq m ((v.image part).blockSec ino i) 0 21 Vol v _
        (fun k hk l _ h1 _ => absurd h1 (hno k (by omega))) Tally.init
      have hnone : sc.dirEntryFound = none := by
        apply Option.eq_none_iff_forall_ne_some.mpr
        intro k hk
        rw [hsc.found] at hk
        exact hno k (by omega) hk.2
      rw [Cmd.exec_bind (ideRead_block (hino.block i (by omega) h0)), Partition.entriesPerSec_eq]
      rw [Image.blockSec] at hrun
      rw [Cmd.exec_bind hrun, hnone]
      exact hrest

theorem deleteDirEntry.go_held (hino : (v.image part).InBlocks part ino)
    (hone : (v.image part).HeldOnce ino m) (hheld : (v.image part).Held ino m j k)
    (hn : i + n = 140) (hij : i ≤ j)
    : ∃ sc, Tally m ((v.image part).blockSec ino j) 21 sc
        ∧ (go part m ((v.image part).block ino) ino n i).run v
            =
          (do
            let ino ← remove part j ((v.image part).block ino) ((v.image part).blockSec ino j) sc k
                ino
            deleteDirEntry.shrink part ino).run v := by
  have hj := hheld.block
  induction n generalizing i with
  | zero => omega
  | succ n ih =>
    unfold go
    split
    . next h0 =>
      have hne : i ≠ j := by
        rintro rfl
        exact hheld.present h0
      exact ih (by omega) (by omega)
    . next h0 =>
      obtain ⟨sc, hrun, hsc⟩ := @scan_eq m ((v.image part).blockSec ino i) 0 21 Vol v _
        (hone.match_eq (by omega) h0) Tally.init
      rw [Cmd.exec_bind (ideRead_block (hino.block i (by omega) h0)), Partition.entriesPerSec_eq]
      by_cases hji : i = j
      . subst hji
        have hfound : sc.dirEntryFound = some k := (hsc.found k).mpr ⟨hheld.slot, hheld.holds⟩
        refine ⟨sc, hsc, ?_⟩
        rw [Image.blockSec] at hrun
        rw [Cmd.exec_bind hrun, hfound]
        dsimp only
        rw [Cmd.exec_assert_bind, if_pos (hsc.count_pos hheld.slot hheld.holds.1),
          Partition.dirEntrySize_eq]
        rfl
      . have hnone : sc.dirEntryFound = none := by
          apply Option.eq_none_iff_forall_ne_some.mpr
          intro l hl
          rw [hsc.found] at hl
          exact hji (hone i j l k ⟨by omega, by omega, h0, hl.2⟩ hheld).1
        rw [Image.blockSec] at hrun
        rw [Cmd.exec_bind hrun, hnone]
        exact ih (by omega) (by omega)

theorem deleteDirEntry_absent (hino : (v.image part).InBlocks part ino)
    (hnone : ∀ j k, ¬ (v.image part).Held ino m j k)
    : (deleteDirEntry part ino m).run v = .ok ((false, ino), v) := by
  rw [deleteDirEntry, Cmd.exec_bind (allBlocks_run hino.table)]
  exact deleteDirEntry.go_absent (i := 0) hino (by omega) fun j k _ => hnone j k

theorem deleteDirEntry_held (hino : (v.image part).InBlocks part ino)
    (hone : (v.image part).HeldOnce ino m) (hheld : (v.image part).Held ino m i k)
    : ∃ sc, Tally m ((v.image part).blockSec ino i) 21 sc
        ∧ (deleteDirEntry part ino m).run v
            =
          (do
            let ino ← remove part i ((v.image part).block ino) ((v.image part).blockSec ino i) sc k
                ino
            deleteDirEntry.shrink part ino).run v := by
  rw [deleteDirEntry, Cmd.exec_bind (allBlocks_run hino.table)]
  exact deleteDirEntry.go_held (n := 140) hino hone hheld (by omega) (Nat.zero_le _)

theorem deleteDirEntry.shrink_eq (hsize : 24 ≤ ino.iSize)
    : ∃ v', (deleteDirEntry.shrink part ino).run v = .ok ((true, ino.shrink), v')
        ∧ v'.image part = (v.image part).setSlot (ino.iNo.toNat % 256) ino.shrink.pure := by
  have hsync : (inodeSync part 1024 ino.shrink).run v = .ok ((), _) :=
    inodeSync_run.mpr ⟨fun _ => by omega, by omega, rfl⟩
  refine ⟨_, ?_, inodeSync_image hsync⟩
  rw [deleteDirEntry.shrink, Cmd.exec_assert_bind, if_pos hsize, Cmd.exec_bind hsync]
  rfl

theorem Partition.hasBit_blockIdx {lba : UInt32} (h : part.IsBlock lba)
    : part.blockIdx lba < 4096 * part.sb.blockBitmapSects.toNat := by
  have h1 := Partition.blockIdx_lt h
  have h2 := part.layout.bits
  omega

theorem setBit_bitmapSync_eq {b : Nat} (hb : b < 4096 * part.sb.blockBitmapSects.toNat)
    : ∃ v1 v2, (setBit part .block b false).run v = .ok ((), v1) ∧ (bitmapSync part b .block).run v1
        = .ok ((), v2)
        ∧ v2.image part = (v.image part).setBlockUsed b false := by
  have hset : (setBit part .block b false).run v = .ok ((), _) :=
    setBit_run.mpr ⟨by simp only [Vol.bitmap]; omega, rfl⟩
  refine ⟨_, _, hset, bitmapSync_block hb, ?_⟩
  rw [← (setBit_block hset).2]
  exact bitmapSync_image (show part.HasBit b .block from hb) (bitmapSync_block hb)

theorem deleteDirEntry_alone (hino : (v.image part).InBlocks part ino)
    (hone : (v.image part).HeldOnce ino m) (hheld : (v.image part).Held ino m i k)
    (hsize : 24 ≤ ino.iSize) (halone : Alone ((v.image part).blockSec ino i) k) (hi : i < 12)
    : ∃ v', (deleteDirEntry part ino m).run v = .ok ((true, (ino.setSector i 0).shrink), v')
        ∧ v'.image part = ((v.image part).setBlockUsed (part.blockIdx (ino.sector i)) false).setSlot
            (ino.iNo.toNat % 256) (ino.setSector i 0).shrink.pure := by
  obtain ⟨sc, hsc, hrun⟩ := deleteDirEntry_held hino hone hheld
  have hblock := hino.block i (by omega) hheld.present
  obtain ⟨v1, v2, h1, h2, h3⟩ := @setBit_bitmapSync_eq part v _ (Partition.hasBit_blockIdx hblock)
  obtain ⟨v3, h4, h5⟩ := @deleteDirEntry.shrink_eq part v2 (ino.setSector i 0) hsize
  refine ⟨v3, ?_, ?_⟩
  . rw [hrun, remove, if_pos ((hsc.alone_iff hheld.slot hheld.holds.1).mpr halone), bind_assoc,
      Cmd.exec_bind h1, bind_assoc, Cmd.exec_bind h2, unlink, if_pos hi, pure_bind]
    exact h4
  . rw [h5, h3, Image.block_of_lt hi]
    rfl

theorem deleteDirEntry_alone_indirect (hino : (v.image part).InBlocks part ino)
    (hone : (v.image part).HeldOnce ino m) (hheld : (v.image part).Held ino m i k)
    (halone : Alone ((v.image part).blockSec ino i) k)
    (hi : 12 ≤ i)
    : (deleteDirEntry part ino m).run v = .error .hang := by
  obtain ⟨sc, hsc, hrun⟩ := deleteDirEntry_held hino hone hheld
  have hblock := hino.block i hheld.block hheld.present
  obtain ⟨v1, v2, h1, h2, -⟩ := @setBit_bitmapSync_eq part v _ (Partition.hasBit_blockIdx hblock)
  rw [hrun, remove, if_pos ((hsc.alone_iff hheld.slot hheld.holds.1).mpr halone), bind_assoc,
    Cmd.exec_bind h1, bind_assoc, Cmd.exec_bind h2, unlink, if_neg (by omega), countIndirect_eq]
  rfl

theorem deleteDirEntry_shared (hino : (v.image part).InBlocks part ino)
    (hone : (v.image part).HeldOnce ino m) (hheld : (v.image part).Held ino m i k)
    (hsize : 24 ≤ ino.iSize) (hshared : ¬ Alone ((v.image part).blockSec ino i) k)
    : ∃ v', (deleteDirEntry part ino m).run v = .ok ((true, ino.shrink), v')
        ∧ v'.image part = ((v.image part).setSec ((v.image part).block ino i).toNat
            (((v.image part).blockSec ino i).blit (k * 24) 24 Mem.zero)).setSlot
              (ino.iNo.toNat % 256) ino.shrink.pure := by
  obtain ⟨sc, hsc, hrun⟩ := deleteDirEntry_held hino hone hheld
  have hblock := hino.block i hheld.block hheld.present
  obtain ⟨v1, h1, h2⟩ := @ideWrite_block part v _
    (((v.image part).blockSec ino i).blit (k * 24) 24 Mem.zero) hblock
  obtain ⟨v2, h3, h4⟩ := @deleteDirEntry.shrink_eq part v1 ino hsize
  refine ⟨v2, ?_, ?_⟩
  . rw [hrun, remove, if_neg (fun h => hshared ((hsc.alone_iff hheld.slot hheld.holds.1).mp h)),
      Partition.dirEntrySize_eq]
    rw [bind_assoc]
    exact (Cmd.exec_bind h1).trans h3
  . rw [h4, h2]

end Run

end RogOS
