import RogOS.Fs.Lemmas.FileRead

/-!
When `file_read` and `file_write` return, for any inode on any volume.
-/

namespace RogOS

open Cmd

variable {part : Partition} {v : Vol} {ino : Inode} {blocks : Nat → UInt32} {buf : Mem}

def Vol.blockAddr (v : Vol) (ino : Inode) (k : Nat) : UInt32 :=
  if k < 12 then ino.sector k else ((v.disk.shift ((ino.sector 12).toNat * 512)).clip 512).word
    (4 * (k - 12))

structure TableFits (ino : Inode) (used : Prop) : Prop where
  onDisk : (ino.sector 12).toNat ≤ maxLba
  used : used → ino.sector 12 ≠ 0

def OnDisk (addr : Nat → UInt32) (p n : Nat)
    : Prop := ∀ q, p ≤ q → q < p + n → (addr (q / 512)).toNat ≤ maxLba

theorem onDisk_split {addr : Nat → UInt32} {p n : Nat} (hn : 0 < n)
    : OnDisk addr p n
        ↔
      (addr (p / 512)).toNat ≤ maxLba
        ∧ OnDisk addr (p + min n (512 - p % 512)) (n - min n (512 - p % 512)) := by
  constructor
  . intro h
    refine ⟨h p (by omega) (by omega), ?_⟩
    intro q h1 h2
    exact h q (by omega) (by omega)
  . rintro ⟨h1, h2⟩ q hq1 hq2
    by_cases hq : q / 512 = p / 512
    . rw [hq]
      exact h1
    . exact h2 q (by omega) (by omega)

theorem onDisk_congr {addr addr' : Nat → UInt32} {p n : Nat}
    (h : ∀ k, p / 512 ≤ k → 512 * k < p + n → addr k = addr' k)
    : OnDisk addr p n ↔ OnDisk addr' p n := by
  have himp : ∀ {a b : Nat → UInt32}, (∀ k, p / 512 ≤ k → 512 * k < p + n → a k = b k)
      → OnDisk a p n → OnDisk b p n := by
    intro a b hab ha q h1 h2
    rw [← hab (q / 512) (by omega) (by omega)]
    exact ha q h1 h2
  exact ⟨himp h, himp fun k h1 h2 => (h k h1 h2).symm⟩

theorem onDisk_zero {addr : Nat → UInt32} {p : Nat} : OnDisk addr p 0 := by
  intro q h1 h2
  omega

section Table

theorem readTable_succeeds
    : Succeeds (fileWrite.readTable blocks ino) v ↔ (ino.sector 12).toNat ≤ maxLba := by
  unfold fileWrite.readTable
  rw [succeeds_bind]
  constructor
  . rintro ⟨_, _, h, -⟩
    rw [ideRead_run] at h
    exact h.1
  . intro h
    exact ⟨_, _, ideRead_run.mpr ⟨h, rfl⟩, succeeds_pure⟩

theorem readTable_addr {r : (Nat → UInt32) × Vol}
    (h : (fileWrite.readTable blocks ino).run v = .ok r)
    : r.2 = v ∧ ∀ k, r.1 k = if k < 12 then blocks k else v.blockAddr ino k := by
  simp only [fileWrite.readTable, bind_run, ideRead_run, pure_run] at h
  obtain ⟨_, _, ⟨-, h1⟩, h2⟩ := h
  cases h1
  rw [h2]
  refine ⟨rfl, ?_⟩
  intro k
  dsimp only
  split
  . rfl
  . next hk => rw [Vol.blockAddr, if_neg hk, Nat.one_mul]

end Table

section Read

variable {lo hi : Nat} {size fdPos count : UInt32} {c : fileRead.Cursor}

theorem readCollect_succeeds
    : Succeeds (fileRead.collect lo hi ino) v ↔ (12 ≤ hi → TableFits ino (lo ≠ hi)) := by
  unfold fileRead.collect
  split
  . next heq =>
    split
    . next hlt => exact iff_of_true succeeds_pure fun h => by omega
    . next hge =>
      rw [readTable_succeeds]
      constructor
      . intro h _
        exact ⟨h, fun hne => absurd heq hne⟩
      . intro h
        exact (h (by omega)).onDisk
  . next hne =>
    split
    . exact iff_of_true succeeds_pure fun h => by omega
    . next hge =>
      have htable : ∀ blocks,
          Succeeds (do Cmd.assert .panic (ino.sector 12 ≠ 0); fileWrite.readTable blocks ino) v
          ↔ (12 ≤ hi → TableFits ino (lo ≠ hi)) := by
        intro blocks
        rw [succeeds_assert_bind, readTable_succeeds]
        constructor
        . intro h _
          exact ⟨h.2, fun _ => h.1⟩
        . intro h
          have htab := h (by omega)
          exact ⟨htab.used hne, htab.onDisk⟩
      split
      . exact htable _
      . exact htable _

theorem readCollect_addr {r : (Nat → UInt32) × Vol} (h : (fileRead.collect lo hi ino).run v = .ok r)
    : r.2 = v ∧ ∀ k, lo ≤ k → k ≤ hi → r.1 k = v.blockAddr ino k := by
  have hdirect : ∀ k < 12, v.blockAddr ino k = ino.sector k := fun k hk => if_pos hk
  unfold fileRead.collect at h
  split at h
  . next heq =>
    split at h
    . next hlt =>
      rw [pure_run] at h
      rw [h]
      refine ⟨rfl, ?_⟩
      intro k h1 h2
      rw [show k = hi by omega, hdirect hi hlt]
      exact Function.update_self ..
    . next hge =>
      obtain ⟨h1, h2⟩ := readTable_addr h
      refine ⟨h1, ?_⟩
      intro k h3 h4
      rw [h2, if_neg (by omega)]
  . split at h
    . rw [pure_run] at h
      rw [h]
      refine ⟨rfl, ?_⟩
      intro k h1 h2
      dsimp only
      rw [if_pos ⟨h1, h2⟩, hdirect k (by omega)]
    . split at h
      . simp only [bind_run, assert_run] at h
        obtain ⟨_, _, ⟨-, h0⟩, h1⟩ := h
        cases h0
        obtain ⟨h2, h3⟩ := readTable_addr h1
        refine ⟨h2, ?_⟩
        intro k h4 h5
        rw [h3]
        split
        . next hk => rw [hdirect k hk]
        . rfl
      . simp only [bind_run, assert_run] at h
        obtain ⟨_, _, ⟨-, h0⟩, h1⟩ := h
        cases h0
        obtain ⟨h2, h3⟩ := readTable_addr h1
        refine ⟨h2, ?_⟩
        intro k h4 h5
        rw [h3, if_neg (by omega)]

theorem readLoop_succeeds {fuel : Nat} (hpos : 0 < fuel) (hfuel : c.bytesRead.toNat < size.toNat →
      c.fdPos.toNat % 512 + (size.toNat - c.bytesRead.toNat) + 512 ≤ 512 * fuel)
    (hend : c.fdPos.toNat + (size.toNat - c.bytesRead.toNat) ≤ 71680)
    : Succeeds (fileRead.readLoop blocks size fuel c) v
        ↔
      OnDisk blocks c.fdPos.toNat (size.toNat - c.bytesRead.toNat) := by
  induction fuel generalizing c v with
  | zero => omega
  | succ fuel ih =>
    unfold fileRead.readLoop
    split
    . next hlt =>
      have hlt' : c.bytesRead.toNat < size.toNat := hlt
      have hdiv : (c.fdPos / 512).toNat = c.fdPos.toNat / 512 := by
        rw [UInt32.toNat_div]
        rfl
      have hk := @toNat_chunkSize size c.bytesRead c.fdPos hlt
      simp only [fileRead.readChunk, hdiv]
      generalize (if size - c.bytesRead < 512 - c.fdPos % 512 then size - c.bytesRead
        else 512 - c.fdPos % 512) = k at *
      unfold chunk at hk
      have hsize := size.toNat_lt
      have hread : (c.bytesRead + k).toNat = c.bytesRead.toNat + k.toNat := by
        rw [UInt32.toNat_add]
        omega
      have hadd : (c.fdPos + k).toNat = c.fdPos.toNat + k.toNat := by
        rw [UInt32.toNat_add]
        omega
      rw [onDisk_split (by omega), ← hk]
      have hrest : size.toNat - c.bytesRead.toNat - k.toNat
          = size.toNat - (c.bytesRead + k).toNat := by omega
      rw [hrest, ← hadd]
      have hneed := hfuel hlt'
      have hidx : c.fdPos.toNat / 512 < 140 := by omega
      rw [bind_assoc, succeeds_assert_bind, bind_assoc, succeeds_bind]
      constructor
      . rintro ⟨-, ioBuf, v1, hio, h⟩
        obtain ⟨hlba, hv⟩ := ideRead_run.mp hio
        cases hv
        rw [pure_bind, ih (by omega) (by dsimp only; omega) (by dsimp only; omega)] at h
        exact ⟨hlba, h⟩
      . rintro ⟨hlba, h⟩
        refine ⟨hidx, _, _, ideRead_run.mpr ⟨hlba, rfl⟩, ?_⟩
        rw [pure_bind, ih (by omega) (by dsimp only; omega) (by dsimp only; omega)]
        exact h
    . next hge =>
      have hge' : ¬ c.bytesRead.toNat < size.toNat := hge
      rw [show size.toNat - c.bytesRead.toNat = 0 by omega]
      exact iff_of_true succeeds_pure onDisk_zero

def readLen (ino : Inode) (fdPos count : UInt32) : UInt32 :=
  if ino.iSize < fdPos + count then ino.iSize - fdPos else count

inductive ReadFits (v : Vol) (ino : Inode) (fdPos count : UInt32) : Prop where
  | atEnd (less : ino.iSize < fdPos + count) (none : readLen ino fdPos count = 0)
  | inside (below : fdPos.toNat + (readLen ino fdPos count).toNat < 139 * 512)
    (table : 12 ≤ (fdPos.toNat + (readLen ino fdPos count).toNat) / 512 →
      TableFits ino (fdPos.toNat / 512 ≠ (fdPos.toNat + (readLen ino fdPos count).toNat) / 512))
    (blocks : OnDisk (v.blockAddr ino) fdPos.toNat (readLen ino fdPos count).toNat)

theorem fileRead_succeeds
    : Succeeds (fileRead fdPos ino buf count) v ↔ ReadFits v ino fdPos count := by
  unfold fileRead
  rw [← readLen]
  generalize hsize : readLen ino fdPos count = size
  dsimp only
  split
  . next hend => exact iff_of_true succeeds_pure (.atEnd hend.1 (hsize.trans hend.2))
  . next hend =>
    have c512 : (512 : UInt32).toNat = 512 := rfl
    have hlo : (fdPos / 512).toNat = fdPos.toNat / 512 := by rw [UInt32.toNat_div, c512]
    have hhi : ((fdPos + size) / 512).toNat = (fdPos.toNat + size.toNat) % 2 ^ 32 / 512 := by
      rw [UInt32.toNat_div, c512, UInt32.toNat_add]
    rw [succeeds_assert_bind, succeeds_bind, hlo, hhi]
    constructor
    . rintro ⟨hidx, blocks, v1, hcollect, hloop⟩
      have hbelow : fdPos.toNat + size.toNat < 139 * 512 := by
        by_contra hwrap
        rw [succeeds_bind] at hloop
        obtain ⟨c, v2, hrun, -⟩ := hloop
        have hsz := size.toNat_lt
        -- the sum wraps around, so that more bytes are asked for than there are passes for
        have hfew : (0 : UInt32).toNat + 512 * 142 < size.toNat := by
          rw [UInt32.toNat_zero]
          omega
        exact not_readLoop_run hfew hrun
      rw [Nat.mod_eq_of_lt (by omega)] at hcollect
      have htable := readCollect_succeeds.mp (succeeds_of_run hcollect)
      obtain ⟨hv, haddr⟩ := readCollect_addr hcollect
      dsimp only at hv haddr
      rw [succeeds_bind] at hloop
      obtain ⟨c, v2, hrun, -⟩ := hloop
      have hdisk := (readLoop_succeeds (by omega) (by simp only [UInt32.toNat_zero]; omega)
        (by simp only [UInt32.toNat_zero]; omega)).mp (succeeds_of_run hrun)
      rw [UInt32.toNat_zero, Nat.sub_zero] at hdisk
      refine .inside ?_ ?_ ?_
      . rw [hsize]
        exact hbelow
      . rw [hsize]
        exact htable
      . rw [hsize, ← onDisk_congr fun k h1 h2 => haddr k h1 (by omega)]
        exact hdisk
    . intro h
      cases h with
      | atEnd less none => exact absurd ⟨less, hsize.symm.trans none⟩ hend
      | inside below table blocks =>
        rw [hsize] at below table blocks
        rw [Nat.mod_eq_of_lt (by omega)]
        refine ⟨⟨by omega, by omega⟩, ?_⟩
        obtain ⟨⟨blocks', v1⟩, hcollect⟩ := (@readCollect_succeeds v ino _ _).mpr table
        obtain ⟨hv, haddr⟩ := readCollect_addr hcollect
        dsimp only at hv haddr
        refine ⟨blocks', v1, hcollect, ?_⟩
        rw [succeeds_bind]
        rw [← onDisk_congr fun k h1 h2 => haddr k h1 (by omega)] at blocks
        have hloop : Succeeds (fileRead.readLoop blocks' size 142 ⟨0, fdPos, buf⟩) v1 := by
          rw [readLoop_succeeds (by omega) (by simp only [UInt32.toNat_zero]; omega)
            (by simp only [UInt32.toNat_zero]; omega)]
          rw [UInt32.toNat_zero, Nat.sub_zero]
          exact blocks
        obtain ⟨⟨c, v2⟩, hrun⟩ := hloop
        exact ⟨c, v2, hrun, succeeds_pure⟩

end Read

section Alloc

inductive FirstClears (len : Nat) : Mem → List Nat → Prop where
  | nil {bits : Mem} : FirstClears len bits []
  | cons {bits : Mem} {b : Nat} {bs : List Nat} (head : FirstClear bits len b)
    (tail : FirstClears len (bits.setBit b true) bs) : FirstClears len bits (b :: bs)

theorem FirstClears.unique {len : Nat} {bits : Mem} {bs cs : List Nat}
    (hb : FirstClears len bits bs) (hc : FirstClears len bits cs)
    (hlen : bs.length = cs.length) : bs = cs := by
  induction hb generalizing cs with
  | nil => exact (List.length_eq_zero_iff.mp hlen.symm).symm
  | cons head tail ih =>
    cases hc with
    | nil => contradiction
    | cons head' tail' =>
      rw [head'.unique head] at tail' ⊢
      rw [ih tail' (Nat.succ.inj hlen)]

def addBlocks (part : Partition) (addr : Nat → UInt32) (i : Nat) (bs : List Nat) (k : Nat)
    : UInt32 :=
  if k < i then addr k else part.blockLba (bs.getD (k - i) 0)

structure Filled (part : Partition) (i : Nat) (bs : List Nat) (blocks : Nat → UInt32) (ino : Inode)
    (r : Bool × (Nat → UInt32) × Inode) : Prop where
  ok : r.1 = true
  same : ino.SameMeta r.2.2
  table : r.2.2.sector 12 = ino.sector 12
  addr : ∀ k < i + bs.length, r.2.1 k = addBlocks part blocks i bs k

theorem FirstClear.lt_bits {b : Nat}
    (hb : FirstClear v.blockBits (part.sb.blockBitmapSects.toNat * 512) b)
    : b < 4096 * part.sb.blockBitmapSects.toNat := by
  have := hb.lt
  omega

def Vol.taken (part : Partition) (v : Vol) (b : Nat) : Vol :=
  Vol.synced part { v with blockBits := v.blockBits.setBit b true } b

def Inode.addBlock (ino : Inode) (i : Nat) (lba : UInt32)
    : Inode := if i < 12 then ino.setSector i lba else ino

theorem Inode.addBlock_same {i : Nat} {lba : UInt32} : ino.SameMeta (ino.addBlock i lba) := by
  unfold Inode.addBlock
  split
  . exact Inode.SameMeta.setSector
  . exact Inode.SameMeta.refl

theorem Inode.addBlock_of_ne {i k : Nat} {lba : UInt32} (h : k ≠ i)
    : (ino.addBlock i lba).sector k = ino.sector k := by
  unfold Inode.addBlock
  split
  . exact Inode.sector_setSector_of_ne (by omega) (Ne.symm h)
  . rfl

theorem allocBlocks_step {n i b : Nat} {r : (Bool × (Nat → UInt32) × Inode) × Vol}
    (hb : FirstClear v.blockBits (part.sb.blockBitmapSects.toNat * 512) b)
    : (fileWrite.allocBlocks part (blockBitmapAlloc part) (n + 1) i blocks ino).run v = .ok r
        ↔
      (i < 12 → ino.sector i = 0)
        ∧ (fileWrite.allocBlocks part (blockBitmapAlloc part) n (i + 1)
            (Function.update blocks i (part.blockLba b))
            (ino.addBlock i (part.blockLba b))).run (v.taken part b) = .ok r := by
  have hlt := hb.lt_bits
  have hidx : part.blockIdx (part.blockLba b) = b := by
    apply Partition.blockIdx_blockLba
    have := part.sects_le
    omega
  have hsync := @bitmapSync_block part { v with blockBits := v.blockBits.setBit b true } b hlt
  rw [fileWrite.allocBlocks, exec_bind (blockBitmapAlloc_run.mpr ⟨b, hb, rfl⟩)]
  dsimp only
  rw [hidx]
  split
  . next hi =>
    rw [exec_assert_bind]
    split
    . next h0 =>
      rw [exec_bind hsync, Inode.addBlock, if_pos hi]
      exact ⟨fun h => ⟨fun _ => h0, h⟩, fun h => h.2⟩
    . next h0 =>
      constructor
      . intro h
        contradiction
      . intro h
        exact absurd (h.1 hi) h0
  . next hi =>
    rw [exec_bind hsync, Inode.addBlock, if_neg hi]
    exact ⟨fun h => ⟨fun hlt => absurd hlt hi, h⟩, fun h => h.2⟩

theorem Filled.cons {i b : Nat} {bs : List Nat} {r : Bool × (Nat → UInt32) × Inode}
    (h : Filled part (i + 1) bs (Function.update blocks i (part.blockLba b))
      (ino.addBlock i (part.blockLba b)) r)
    : Filled part i (b :: bs) blocks ino r where
  ok := h.ok
  same := Inode.addBlock_same.trans h.same
  table := by
    rw [h.table]
    unfold Inode.addBlock
    split
    . exact Inode.sector_setSector_of_ne (by omega) (by omega)
    . rfl
  addr := by
    intro k hk
    rw [List.length_cons] at hk
    rw [h.addr k (by omega)]
    unfold addBlocks
    by_cases hki : k < i
    . rw [if_pos (by omega), if_pos hki, Function.update_of_ne (by omega)]
    . rw [if_neg hki]
      by_cases heq : k = i
      . rw [if_pos (by omega), heq, Function.update_self, Nat.sub_self]
        rfl
      . rw [if_neg (by omega), show k - i = k - (i + 1) + 1 by omega, List.getD_cons_succ]

def FreshSectors (ino : Inode) (i n : Nat)
    : Prop := ∀ k, i ≤ k → k < i + n → k < 12 → ino.sector k = 0

theorem freshSectors_succ {i n : Nat} {lba : UInt32}
    : FreshSectors ino i (n + 1) ↔ (i < 12 → ino.sector i = 0)
        ∧ FreshSectors (ino.addBlock i lba) (i + 1) n := by
  constructor
  . intro h
    refine ⟨h i (by omega) (by omega), ?_⟩
    intro k h1 h2 h3
    rw [Inode.addBlock_of_ne (by omega)]
    exact h k (by omega) (by omega) h3
  . rintro ⟨h0, h⟩ k h1 h2 h3
    by_cases hki : k = i
    . rw [hki] at h3 ⊢
      exact h0 h3
    . have hk := h k (by omega) (by omega) h3
      rw [Inode.addBlock_of_ne hki] at hk
      exact hk

theorem allocBlocks_filled {n i : Nat} {r : (Bool × (Nat → UInt32) × Inode) × Vol}
    (h : (fileWrite.allocBlocks part (blockBitmapAlloc part) n i blocks ino).run v = .ok r)
    : FreshSectors ino i n
        ∧ ∃ bs, bs.length = n ∧ FirstClears (part.sb.blockBitmapSects.toNat * 512) v.blockBits bs
          ∧ Filled part i bs blocks ino r.1 := by
  induction n generalizing i blocks ino v with
  | zero =>
    rw [fileWrite.allocBlocks, pure_run] at h
    rw [h]
    refine ⟨fun k _ _ => by omega, [], rfl, .nil, rfl, Inode.SameMeta.refl, rfl, ?_⟩
    intro k hk
    exact (if_pos hk).symm
  | succ n ih =>
    have hfirst : ∃ b, FirstClear v.blockBits (part.sb.blockBitmapSects.toNat * 512) b := by
      rw [fileWrite.allocBlocks, bind_run] at h
      obtain ⟨o, v1, h1, -⟩ := h
      obtain ⟨b, hb, -⟩ := blockBitmapAlloc_run.mp h1
      exact ⟨b, hb⟩
    obtain ⟨b, hb⟩ := hfirst
    obtain ⟨h0, hrest⟩ := (allocBlocks_step hb).mp h
    obtain ⟨hfresh, bs, hlen, hbs, hfill⟩ := ih hrest
    refine ⟨freshSectors_succ.mpr ⟨h0, hfresh⟩, b :: bs, ?_, .cons hb hbs, hfill.cons⟩
    rw [List.length_cons, hlen]

theorem allocBlocks_of_fresh {i : Nat} {bs : List Nat} (hfresh : FreshSectors ino i bs.length)
    (hbs : FirstClears (part.sb.blockBitmapSects.toNat * 512) v.blockBits bs)
    : ∃ r, (fileWrite.allocBlocks part (blockBitmapAlloc part) bs.length i blocks ino).run v = .ok r
        ∧ Filled part i bs blocks ino r.1 := by
  have hrun : Succeeds (fileWrite.allocBlocks part (blockBitmapAlloc part) bs.length i blocks ino)
      v := by
    induction bs generalizing i blocks ino v with
    | nil => exact succeeds_pure
    | cons b bs ih =>
      cases hbs with
      | cons head tail =>
        obtain ⟨h0, hrest⟩ := (@freshSectors_succ ino i bs.length (part.blockLba b)).mp hfresh
        obtain ⟨r, hr⟩ := @ih (v.taken part b) _ (Function.update blocks i (part.blockLba b))
          (i + 1) hrest tail
        exact ⟨r, (allocBlocks_step head).mpr ⟨h0, hr⟩⟩
  obtain ⟨r, hr⟩ := hrun
  obtain ⟨-, cs, hlen, hcs, hfill⟩ := allocBlocks_filled hr
  rw [hcs.unique hbs hlen] at hfill
  exact ⟨r, hr, hfill⟩

end Alloc

section Collect

variable {u w : Nat} {hasUsed willUse : UInt32} {addr : Nat → UInt32}

/--
The four situations of `file_write` for a file whose last block has the index `u` and is to have the
index `w`, each with what its assertions and its allocations need, and with the addresses of the
blocks `u .. w` that it leads to.
-/
inductive CollectFits (part : Partition) (v : Vol) (ino : Inode) (u w : Nat)
    : (Nat → UInt32) → Prop where
  | same (heq : u = w) (table : 12 ≤ u → TableFits ino True)
      : CollectFits part v ino u w (v.blockAddr ino)
  | direct {bs : List Nat} (hlt : u < w) (hw : w < 12) (current : ino.sector u ≠ 0)
      (hlen : bs.length = w - u)
    (fresh : FreshSectors ino (u + 1) bs.length)
    (bits : FirstClears (part.sb.blockBitmapSects.toNat * 512) v.blockBits bs)
    : CollectFits part v ino u w (addBlocks part (v.blockAddr ino) (u + 1) bs)
  | crossing {t : Nat} {bs : List Nat} (hu : u < 12) (hw : 12 ≤ w) (noTable : ino.sector 12 = 0)
    (hlen : bs.length = w - u) (fresh : FreshSectors ino (u + 1) bs.length)
    (bits : FirstClears (part.sb.blockBitmapSects.toNat * 512) v.blockBits (t :: bs))
    (onDisk : (part.blockLba t).toNat ≤ maxLba)
    : CollectFits part v ino u w (addBlocks part (v.blockAddr ino) (u + 1) bs)
  | indirect {bs : List Nat} (hu : 12 ≤ u) (hlt : u < w) (table : TableFits ino True)
      (hlen : bs.length = w - u)
    (bits : FirstClears (part.sb.blockBitmapSects.toNat * 512) v.blockBits bs)
    : CollectFits part v ino u w (addBlocks part (v.blockAddr ino) (u + 1) bs)

structure Gathered (u w : Nat) (addr : Nat → UInt32) (ino : Inode)
    (r : Bool × (Nat → UInt32) × Inode) : Prop where
  ok : r.1 = true
  same : ino.SameMeta r.2.2
  addr : ∀ k, u ≤ k → k ≤ w → r.2.1 k = addr k

theorem addBlocks_congr {addr' : Nat → UInt32} {bs : List Nat} {k : Nat} (h : addr u = addr' u)
    (hk : u ≤ k)
    : addBlocks part addr (u + 1) bs k = addBlocks part addr' (u + 1) bs k := by
  unfold addBlocks
  split
  . rw [show k = u by omega, h]
  . rfl

theorem Filled.gathered {ino' : Inode} {bs : List Nat} {r : Bool × (Nat → UInt32) × Inode}
    (h : Filled part (u + 1) bs blocks ino' r) (hsame : ino.SameMeta ino')
    (hlen : bs.length = w - u) (hle : u ≤ w) (haddr : blocks u = v.blockAddr ino u)
    : Gathered u w (addBlocks part (v.blockAddr ino) (u + 1) bs) ino r where
  ok := h.ok
  same := hsame.trans h.same
  addr := by
    intro k h1 h2
    rw [h.addr k (by omega)]
    exact addBlocks_congr haddr h1

theorem blockAddr_direct {k : Nat} (hk : k < 12) : v.blockAddr ino k = ino.sector k := if_pos hk

theorem blockAddr_indirect {k : Nat} (hk : 12 ≤ k) {r : (Nat → UInt32) × Vol}
    (h : (fileWrite.readTable blocks ino).run v = .ok r) : r.1 k = v.blockAddr ino k := by
  rw [(readTable_addr h).2, if_neg (by omega)]

theorem freshSectors_setTable {i n : Nat} {lba : UInt32}
    : FreshSectors (ino.setSector 12 lba) i n ↔ FreshSectors ino i n := by
  unfold FreshSectors
  constructor
  . intro h k h1 h2 h3
    have := h k h1 h2 h3
    rw [Inode.sector_setSector_of_ne (by omega) (by omega)] at this
    exact this
  . intro h k h1 h2 h3
    rw [Inode.sector_setSector_of_ne (by omega) (by omega)]
    exact h k h1 h2 h3

theorem ideWrite_one {lba : UInt32} : Succeeds (ideWrite lba buf 1) v ↔ lba.toNat ≤ maxLba := by
  constructor
  . rintro ⟨r, h⟩
    exact (ideWrite_run.mp h).1
  . intro h
    exact ⟨_, ideWrite_run.mpr ⟨h, rfl⟩⟩

section Equations

variable {alloc : VolM (Option UInt32)}

theorem collect_eq_same (hhas : hasUsed.toNat = u + 1) (heq : willUse = hasUsed)
    : fileWrite.collect part alloc hasUsed willUse ino
        =
      if u < 12 then
        pure (true, Function.update fileWrite.noBlocks u (ino.sector u), ino)
      else (do
        Cmd.assert .panic (ino.sector 12 ≠ 0)
        let blocks ← fileWrite.readTable fileWrite.noBlocks ino
        pure (true, blocks, ino)) := by
  have hle : hasUsed ≤ 12 ↔ u < 12 := by
    have c12 : (12 : UInt32).toNat = 12 := rfl
    rw [UInt32.le_iff_toNat_le, hhas, c12]
    omega
  unfold fileWrite.collect
  simp only [heq, UInt32.sub_self, hhas, hle, ↓reduceIte, Nat.add_sub_cancel]

variable (hhas : hasUsed.toNat = u + 1) (hwill : willUse.toNat = w + 1) (hlt : u < w)

include hhas hwill hlt

theorem collect_more : ¬ willUse - hasUsed = 0 := by
  intro h
  have hle : hasUsed ≤ willUse := by
    rw [UInt32.le_iff_toNat_le]
    omega
  have := UInt32.toNat_sub_of_le _ _ hle
  rw [h, UInt32.toNat_zero] at this
  omega

theorem collect_eq_direct (hw : w < 12)
    : fileWrite.collect part alloc hasUsed willUse ino
        =
      (do
        Cmd.assert .overrun (u < 13)
        Cmd.assert .panic (ino.sector u ≠ 0)
        fileWrite.allocBlocks part alloc (w - u) (u + 1)
          (Function.update fileWrite.noBlocks u (ino.sector u)) ino) := by
  have hle : willUse ≤ 12 := by
    have c12 : (12 : UInt32).toNat = 12 := rfl
    rw [UInt32.le_iff_toNat_le, hwill, c12]
    omega
  unfold fileWrite.collect
  rw [if_neg (collect_more hhas hwill hlt), if_pos hle, hhas, hwill, Nat.add_sub_cancel,
    Nat.add_sub_add_right]

theorem collect_eq_crossing (hu : u < 12) (hw : 12 ≤ w)
    : fileWrite.collect part alloc hasUsed willUse ino
        =
      (do
        match ← alloc with
        | none => pure (false, fileWrite.noBlocks, ino)
        | some lba =>
          Cmd.assert .panic (ino.sector 12 = 0)
          match ← fileWrite.allocBlocks part alloc (w - u) (u + 1)
            (Function.update fileWrite.noBlocks u (ino.sector u)) (ino.setSector 12 lba) with
          | (false, blocks, inode) => pure (false, blocks, inode)
          | (true, blocks, inode) =>
            ideWrite lba (fileWrite.tableOf blocks) 1
            pure (true, blocks, inode)) := by
  have c12 : (12 : UInt32).toNat = 12 := rfl
  have hgt : ¬ willUse ≤ 12 := by
    rw [UInt32.le_iff_toNat_le, hwill, c12]
    omega
  have hle : hasUsed ≤ 12 := by
    rw [UInt32.le_iff_toNat_le, hhas, c12]
    omega
  unfold fileWrite.collect
  rewrite [if_neg (collect_more hhas hwill hlt), if_neg hgt, if_pos hle, hhas, hwill,
    Nat.add_sub_cancel, Nat.add_sub_add_right]
  rfl

theorem collect_eq_indirect (hu : 12 ≤ u)
    : fileWrite.collect part alloc hasUsed willUse ino
        =
      (do
        Cmd.assert .panic (ino.sector 12 ≠ 0)
        let blocks ← fileWrite.readTable fileWrite.noBlocks ino
        match ← fileWrite.allocBlocks part alloc (w - u) (u + 1) blocks ino with
        | (false, blocks, inode) => pure (false, blocks, inode)
        | (true, blocks, inode) =>
          ideWrite (inode.sector 12) (fileWrite.tableOf blocks) 1
          pure (true, blocks, inode)) := by
  have c12 : (12 : UInt32).toNat = 12 := rfl
  have hgt : ¬ willUse ≤ 12 := by
    rw [UInt32.le_iff_toNat_le, hwill, c12]
    omega
  have hgt' : ¬ hasUsed ≤ 12 := by
    rw [UInt32.le_iff_toNat_le, hhas, c12]
    omega
  unfold fileWrite.collect
  rewrite [if_neg (collect_more hhas hwill hlt), if_neg hgt, if_neg hgt', hhas, hwill,
    Nat.add_sub_add_right]
  rfl

end Equations

theorem collect_gathers (hhas : hasUsed.toNat = u + 1) (hwill : willUse.toNat = w + 1) (hle : u ≤ w)
    {r : (Bool × (Nat → UInt32) × Inode) × Vol}
    (h : (fileWrite.collect part (blockBitmapAlloc part) hasUsed willUse ino).run v = .ok r)
    : ∃ addr, CollectFits part v ino u w addr ∧ Gathered u w addr ino r.1 := by
  by_cases heq : u = w
  . rw [collect_eq_same hhas (UInt32.toNat_inj.mp (by omega))] at h
    split at h
    . next hu =>
      rw [pure_run] at h
      rw [h]
      refine ⟨_, .same heq fun hge => by omega, rfl, Inode.SameMeta.refl, ?_⟩
      intro k h1 h2
      rw [show k = u by omega, blockAddr_direct hu]
      exact Function.update_self ..
    . next hu =>
      simp only [bind_run, assert_run, pure_run] at h
      obtain ⟨_, _, ⟨h12, h0⟩, blocks, v1, hread, hr⟩ := h
      cases h0
      rw [hr]
      have htable : TableFits ino True := ⟨readTable_succeeds.mp (succeeds_of_run hread), fun _ =>
          h12⟩
      refine ⟨_, .same heq fun _ => htable, rfl, Inode.SameMeta.refl, ?_⟩
      intro k h1 h2
      exact blockAddr_indirect (by omega) hread
  . have hlt : u < w := by omega
    by_cases hw : w < 12
    . rw [collect_eq_direct hhas hwill hlt hw] at h
      simp only [bind_run, assert_run] at h
      obtain ⟨_, _, ⟨-, h0⟩, _, _, ⟨hcur, h1⟩, halloc⟩ := h
      cases h0
      cases h1
      obtain ⟨hfresh, bs, hlen, hbs, hfill⟩ := allocBlocks_filled halloc
      rw [← hlen] at hfresh
      refine ⟨_, .direct hlt hw hcur hlen hfresh hbs, ?_⟩
      apply hfill.gathered Inode.SameMeta.refl hlen hle
      rw [Function.update_self, blockAddr_direct (by omega)]
    . by_cases hu : u < 12
      . rw [collect_eq_crossing hhas hwill hlt hu (by omega), bind_run] at h
        obtain ⟨o, v1, htab, h⟩ := h
        obtain ⟨t, ht, hr⟩ := blockBitmapAlloc_run.mp htab
        cases hr
        simp only [bind_run, assert_run] at h
        obtain ⟨_, _, ⟨h12, h0⟩, ⟨ok, blocks, ino'⟩, v2, halloc, h⟩ := h
        cases h0
        obtain ⟨hfresh, bs, hlen, hbs, hfill⟩ := allocBlocks_filled halloc
        have hok := hfill.ok
        dsimp only at hok
        subst hok
        simp only [bind_run, pure_run] at h
        obtain ⟨_, _, hwrite, hr⟩ := h
        rw [hr]
        rw [← hlen, freshSectors_setTable] at hfresh
        refine ⟨_, .crossing hu (by omega) h12 hlen hfresh (.cons ht hbs)
          (ideWrite_one.mp (succeeds_of_run hwrite)), ?_⟩
        apply hfill.gathered Inode.SameMeta.setSector hlen hle
        rw [Function.update_self, blockAddr_direct hu]
      . rw [collect_eq_indirect hhas hwill hlt (by omega)] at h
        simp only [bind_run, assert_run] at h
        obtain ⟨_, _, ⟨h12, h0⟩, blocks, v1, hread, ⟨ok, blocks', ino'⟩, v2, halloc, h⟩ := h
        cases h0
        obtain ⟨-, bs, hlen, hbs, hfill⟩ := allocBlocks_filled halloc
        have hok := hfill.ok
        dsimp only at hok
        subst hok
        simp only [bind_run, pure_run] at h
        obtain ⟨_, _, -, hr⟩ := h
        rw [hr]
        have htable : TableFits ino True := ⟨readTable_succeeds.mp (succeeds_of_run hread), fun _ =>
            h12⟩
        rw [show v1 = v from (readTable_addr hread).1] at hbs
        refine ⟨_, .indirect (by omega) hlt htable hlen hbs, ?_⟩
        apply hfill.gathered Inode.SameMeta.refl hlen hle
        exact blockAddr_indirect (by omega) hread

theorem CollectFits.run (hhas : hasUsed.toNat = u + 1) (hwill : willUse.toNat = w + 1)
    (h : CollectFits part v ino u w addr)
    : ∃ r, (fileWrite.collect part (blockBitmapAlloc part) hasUsed willUse ino).run v = .ok r
        ∧ Gathered u w addr ino r.1 := by
  cases h with
  | same heq table =>
    rw [collect_eq_same hhas (UInt32.toNat_inj.mp (by omega))]
    split
    . next hu =>
      refine ⟨_, rfl, rfl, Inode.SameMeta.refl, ?_⟩
      intro k h1 h2
      rw [show k = u by omega, blockAddr_direct hu]
      exact Function.update_self ..
    . next hu =>
      have htable := table (by omega)
      obtain ⟨r, hread⟩ := (@readTable_succeeds v ino fileWrite.noBlocks).mpr htable.onDisk
      rw [exec_assert_bind, if_pos (htable.used trivial), exec_bind hread]
      refine ⟨_, rfl, rfl, Inode.SameMeta.refl, ?_⟩
      intro k h1 h2
      exact blockAddr_indirect (by omega) hread
  | direct hlt hw current hlen fresh bits =>
    rename_i bs
    rw [collect_eq_direct hhas hwill hlt hw, exec_assert_bind, if_pos (by omega), exec_assert_bind,
      if_pos current, ← hlen]
    obtain ⟨r, hrun, hfill⟩ :=
      @allocBlocks_of_fresh part v ino (Function.update fileWrite.noBlocks u (ino.sector u))
        (u + 1) bs fresh bits
    refine ⟨r, hrun, ?_⟩
    apply hfill.gathered Inode.SameMeta.refl hlen (by omega)
    rw [Function.update_self, blockAddr_direct (by omega)]
  | crossing hu hw noTable hlen fresh bits onDisk =>
    rename_i t bs
    cases bits with
    | cons head tail =>
      rw [collect_eq_crossing hhas hwill (by omega) hu hw,
        exec_bind (blockBitmapAlloc_run.mpr ⟨t, head, rfl⟩)]
      dsimp only
      rw [exec_assert_bind, if_pos noTable, ← hlen]
      rw [← @freshSectors_setTable ino _ _ (part.blockLba t)] at fresh
      obtain ⟨⟨⟨ok, blocks, ino'⟩, v2⟩, hrun, hfill⟩ :=
        @allocBlocks_of_fresh part { v with blockBits := v.blockBits.setBit t true } _
          (Function.update fileWrite.noBlocks u (ino.sector u)) (u + 1) bs fresh tail
      have hok := hfill.ok
      dsimp only at hok
      subst hok
      obtain ⟨⟨_, v3⟩, hwrite⟩ :=
        (@ideWrite_one v2 (fileWrite.tableOf blocks) (part.blockLba t)).mpr onDisk
      rw [exec_bind hrun]
      dsimp only
      rw [exec_bind hwrite]
      refine ⟨_, rfl, ?_⟩
      apply hfill.gathered Inode.SameMeta.setSector hlen (by omega)
      rw [Function.update_self, blockAddr_direct hu]
  | indirect hu hlt table hlen bits =>
    rename_i bs
    obtain ⟨⟨blocks, v1⟩, hread⟩ := (@readTable_succeeds v ino fileWrite.noBlocks).mpr table.onDisk
    have hv1 : v1 = v := (readTable_addr hread).1
    subst hv1
    rw [collect_eq_indirect hhas hwill hlt hu, exec_assert_bind, if_pos (table.used trivial),
      exec_bind hread, ← hlen]
    obtain ⟨⟨⟨ok, blocks', ino'⟩, v2⟩, hrun, hfill⟩ :=
      @allocBlocks_of_fresh part v1 ino blocks (u + 1) bs (fun k h1 h2 h3 => by omega) bits
    have hok := hfill.ok
    have htab := hfill.table
    dsimp only at hok htab
    subst hok
    obtain ⟨⟨_, v3⟩, hwrite⟩ := (@ideWrite_one v2 (fileWrite.tableOf blocks') (ino'.sector 12)).mpr
      (by
      rw [htab]
      exact table.onDisk)
    rw [exec_bind hrun]
    dsimp only
    rw [exec_bind hwrite]
    refine ⟨_, rfl, ?_⟩
    apply hfill.gathered Inode.SameMeta.refl hlen (by omega)
    exact blockAddr_indirect hu hread

end Collect

section Write

variable {first : Bool} {c : fileWrite.Cursor} {count : UInt32}

theorem loadBlock_returns {lba : UInt32} (h : lba.toNat ≤ maxLba)
    : ∃ ioBuf, (fileWrite.loadBlock first lba).run v = .ok (ioBuf, v) := by
  unfold fileWrite.loadBlock
  split
  . exact ⟨_, ideRead_run.mpr ⟨h, rfl⟩⟩
  . exact ⟨_, rfl⟩

theorem writeLoop_succeeds {fuel : Nat} (hpos : 0 < fuel)
    (hfuel : c.bytesWritten.toNat < count.toNat →
      c.inode.iSize.toNat % 512 + (count.toNat - c.bytesWritten.toNat) + 512 ≤ 512 * fuel)
    (hend : c.inode.iSize.toNat + (count.toNat - c.bytesWritten.toNat) ≤ 71680)
    : Succeeds (fileWrite.writeLoop blocks buf count fuel first c) v
        ↔
      OnDisk blocks c.inode.iSize.toNat (count.toNat - c.bytesWritten.toNat) := by
  induction fuel generalizing c v first with
  | zero => omega
  | succ fuel ih =>
    unfold fileWrite.writeLoop
    split
    . next hlt =>
      have hlt' : c.bytesWritten.toNat < count.toNat := hlt
      have hdiv : (c.inode.iSize / 512).toNat = c.inode.iSize.toNat / 512 := by
        rw [UInt32.toNat_div]
        rfl
      have hk := @toNat_chunkSize count c.bytesWritten c.inode.iSize hlt
      simp only [fileWrite.writeChunk, hdiv]
      generalize (if count - c.bytesWritten < 512 - c.inode.iSize % 512 then count - c.bytesWritten
        else 512 - c.inode.iSize % 512) = k at *
      unfold chunk at hk
      have hcount := count.toNat_lt
      have hwritten : (c.bytesWritten + k).toNat = c.bytesWritten.toNat + k.toNat := by
        rw [UInt32.toNat_add]
        omega
      have hadd : (c.inode.grow k).iSize.toNat = c.inode.iSize.toNat + k.toNat := by
        rw [Inode.grow_iSize, UInt32.toNat_add]
        omega
      rw [onDisk_split (by omega), ← hk]
      have hrest : count.toNat - c.bytesWritten.toNat - k.toNat
          = count.toNat - (c.bytesWritten + k).toNat := by omega
      have hidx : c.inode.iSize.toNat / 512 < 140 := by omega
      have hneed := hfuel hlt'
      rw [hrest, ← hadd, bind_assoc, succeeds_assert_bind, bind_assoc]
      constructor
      . rintro ⟨-, h⟩
        rw [succeeds_bind] at h
        obtain ⟨ioBuf, v1, -, h⟩ := h
        rw [bind_assoc, succeeds_bind] at h
        obtain ⟨_, v2, hwrite, h⟩ := h
        rw [pure_bind, ih (by omega) (by dsimp only; omega) (by dsimp only; omega)] at h
        exact ⟨ideWrite_one.mp (succeeds_of_run hwrite), h⟩
      . rintro ⟨hlba, h⟩
        obtain ⟨ioBuf, hload⟩ := @loadBlock_returns v first _ hlba
        refine ⟨hidx, ?_⟩
        rw [succeeds_bind_of_run hload, bind_assoc, succeeds_bind]
        obtain ⟨⟨_, v2⟩, hwrite⟩ := ideWrite_one.mpr hlba
        refine ⟨_, v2, hwrite, ?_⟩
        rw [pure_bind, ih (by omega) (by dsimp only; omega) (by dsimp only; omega)]
        exact h
    . next hge =>
      have hge' : ¬ c.bytesWritten.toNat < count.toNat := hge
      rw [show count.toNat - c.bytesWritten.toNat = 0 by omega]
      exact iff_of_true succeeds_pure onDisk_zero

theorem writeLoop_iNo {fuel : Nat} {r : fileWrite.Cursor × Vol}
    (h : (fileWrite.writeLoop blocks buf count fuel first c).run v = .ok r)
    : r.1.inode.iNo = c.inode.iNo := by
  induction fuel generalizing c v first with
  | zero => exact absurd h throw_run
  | succ fuel ih =>
    unfold fileWrite.writeLoop at h
    split at h
    . simp only [fileWrite.writeChunk, bind_run, pure_run, Prod.mk.injEq] at h
      obtain ⟨c', _, ⟨_, _, -, _, _, -, _, _, -, h1, -⟩, h2⟩ := h
      rw [ih h2, h1, Inode.grow]
    . rw [pure_run] at h
      rw [h]

inductive StartFits (part : Partition) (v : Vol) (ino : Inode) : Vol → Inode → Prop where
  | present (h0 : ino.sector 0 ≠ 0) : StartFits part v ino v ino
  | first {b : Nat} (h0 : ino.sector 0 = 0)
      (bit : FirstClear v.blockBits (part.sb.blockBitmapSects.toNat * 512) b)
    (root : b ≠ 0) : StartFits part v ino (v.taken part b) (ino.setSector 0 (part.blockLba b))

/--
`file_write` refuses a file that would become too long, or the file stays below 140 full blocks, the
blocks that it needs are there and on the disk, and its inode does not cross a sector boundary of
the inode table.
-/
inductive WriteFits (part : Partition) (v : Vol) (ino : Inode) (count : UInt32) : Prop where
  | refused (long : 512 * 140 < ino.iSize + count)
  | fits {v' : Vol} {ino' : Inode} {addr : Nat → UInt32}
      (short : ino.iSize.toNat + count.toNat < 512 * 140)
    (start : StartFits part v ino v' ino')
    (collect : CollectFits part v' ino' (ino.iSize.toNat / 512)
      ((ino.iSize.toNat + count.toNat) / 512) addr)
    (blocks : OnDisk addr ino.iSize.toNat count.toNat) (inode : ¬ Straddles (ino.iNo.toNat % 256))

theorem StartFits.same {v' : Vol} {ino' : Inode} (h : StartFits part v ino v' ino')
    : ino.SameMeta ino' := by
  cases h with
  | present h0 => exact Inode.SameMeta.refl
  | first h0 bit root => exact Inode.SameMeta.setSector

theorem firstBlock_succeeds {r : (Bool × Inode) × Vol}
    : (fileWrite.firstBlock part (blockBitmapAlloc part) ino).run v = .ok r
        ↔
      r.1.1 = true ∧ StartFits part v ino r.2 r.1.2 := by
  obtain ⟨⟨ok, ino'⟩, v'⟩ := r
  dsimp only
  unfold fileWrite.firstBlock
  split
  . next h0 =>
    have htake : ∀ b, FirstClear v.blockBits (part.sb.blockBitmapSects.toNat * 512) b →
        part.blockIdx (part.blockLba b) = b := by
      intro b hb
      apply Partition.blockIdx_blockLba
      have h1 := part.sects_le
      have h2 := hb.lt_bits
      omega
    constructor
    . intro h
      rw [bind_run] at h
      obtain ⟨o, v1, halloc, h⟩ := h
      obtain ⟨b, hb, hr⟩ := blockBitmapAlloc_run.mp halloc
      cases hr
      simp only [htake b hb, bind_run, assert_run, pure_run] at h
      obtain ⟨_, _, ⟨hroot, h1⟩, _, v2, hsync, hr⟩ := h
      cases h1
      rw [bitmapSync_block hb.lt_bits] at hsync
      cases hsync
      cases hr
      exact ⟨rfl, .first h0 hb hroot⟩
    . rintro ⟨rfl, h⟩
      cases h with
      | present hne => exact absurd h0 hne
      | @first b _ hb hroot =>
        rw [exec_bind (blockBitmapAlloc_run.mpr ⟨b, hb, rfl⟩)]
        dsimp only
        rw [htake b hb, exec_assert_bind, if_pos hroot, exec_bind (bitmapSync_block hb.lt_bits)]
        rfl
  . next h0 =>
    rw [pure_run]
    constructor
    . intro h
      cases h
      exact ⟨rfl, .present h0⟩
    . rintro ⟨rfl, h⟩
      cases h with
      | present _ => rfl
      | first hz _ _ => exact absurd hz h0

inductive WriteReaches (part : Partition) (v : Vol) (ino : Inode) (count : UInt32) : Prop where
  | reaches {v' : Vol} {ino' : Inode} {addr : Nat → UInt32}
      (short : ino.iSize.toNat + count.toNat < 512 * 140)
    (start : StartFits part v ino v' ino')
    (collect : CollectFits part v' ino' (ino.iSize.toNat / 512)
      ((ino.iSize.toNat + count.toNat) / 512) addr)
    (blocks : OnDisk addr ino.iSize.toNat count.toNat)

theorem writeFits_iff : WriteFits part v ino count
    ↔ 512 * 140 < ino.iSize + count ∨ WriteReaches part v ino count
        ∧ ¬ Straddles (ino.iNo.toNat % 256) := by
  constructor
  . intro h
    cases h with
    | refused long => exact .inl long
    | fits short start collect blocks inode => exact .inr ⟨.reaches short start collect blocks,
        inode⟩
  . rintro (long | ⟨h, inode⟩)
    . exact .refused long
    . cases h with
      | reaches short start collect blocks => exact .fits short start collect blocks inode

def fileWrite.upToSync (part : Partition) (alloc : VolM (Option UInt32)) (inode : Inode) (buf : Mem)
    (count : UInt32)
    : VolM (Inode ⊕ fileWrite.Cursor) := do
  if 512 * 140 < inode.iSize + count then
    pure (.inl inode)
  else
    match ← fileWrite.firstBlock part alloc inode with
    | (false, inode) => pure (.inl inode)
    | (true, inode) =>
      Cmd.assert .panic ((inode.iSize + count) / 512 + 1 ≤ 140)
      match ← fileWrite.collect part alloc (inode.iSize / 512 + 1) ((inode.iSize + count) / 512 + 1)
        inode with
      | (false, _, inode) => pure (.inl inode)
      | (true, blocks, inode) =>
        let c ← fileWrite.writeLoop blocks buf count 142 true ⟨0, inode.iSize - 1, inode⟩
        pure (.inr c)

theorem fileWriteWith_eq {alloc : VolM (Option UInt32)} {fdPos : UInt32}
    : fileWriteWith part alloc fdPos ino buf count
        =
      (do
        match ← fileWrite.upToSync part alloc ino buf count with
        | .inl inode => pure (-1, fdPos, inode)
        | .inr c =>
          inodeSync part 512 c.inode
          pure (c.bytesWritten.toNat, c.fdPos, c.inode)) := by
  unfold fileWriteWith fileWrite.upToSync
  split
  . rfl
  . rw [bind_assoc]
    congr 1
    funext r
    obtain ⟨ok, ino'⟩ := r
    cases ok with
    | false => rfl
    | true =>
      dsimp only
      rw [bind_assoc]
      congr 1
      funext _
      rw [bind_assoc]
      congr 1
      funext r
      obtain ⟨ok, blocks, ino''⟩ := r
      cases ok with
      | false => rfl
      | true =>
        dsimp only
        rw [bind_assoc]
        rfl

theorem WriteReaches.run (h : WriteReaches part v ino count)
    : ∃ c v', (fileWrite.upToSync part (blockBitmapAlloc part) ino buf count).run v
        = .ok (.inr c, v') := by
  unfold fileWrite.upToSync
  cases h with
  | @reaches v' ino' addr short start collect blocks =>
    have c512 : (512 : UInt32).toNat = 512 := rfl
    have c1 : (1 : UInt32).toNat = 1 := rfl
    have hsum : (ino.iSize + count).toNat = ino.iSize.toNat + count.toNat := by
      rw [UInt32.toNat_add]
      omega
    have hshort : ¬ 512 * 140 < ino.iSize + count := by
      have c71680 : (512 * 140 : UInt32).toNat = 71680 := rfl
      rw [UInt32.lt_iff_toNat_lt, hsum, c71680]
      omega
    have hsame := start.same
    have hhas : (ino'.iSize / 512 + 1).toNat = ino.iSize.toNat / 512 + 1 := by
      rw [← hsame.2.1, UInt32.toNat_add, UInt32.toNat_div, c512, c1]
      omega
    have hwill : ((ino'.iSize + count) / 512 + 1).toNat
        = (ino.iSize.toNat + count.toNat) / 512 + 1 := by
      rw [← hsame.2.1, UInt32.toNat_add, UInt32.toNat_div, hsum, c512, c1]
      omega
    have hle : (ino'.iSize + count) / 512 + 1 ≤ 140 := by
      have c140 : (140 : UInt32).toNat = 140 := rfl
      rw [UInt32.le_iff_toNat_le, hwill, c140]
      omega
    obtain ⟨⟨⟨ok, blocks', ino''⟩, v''⟩, hcollect, hgather⟩ := collect.run hhas hwill
    have hok := hgather.ok
    dsimp only at hok
    subst hok
    have hsize : ino''.iSize = ino.iSize := (hsame.trans hgather.same).2.1.symm
    have hdisk : OnDisk blocks' ino''.iSize.toNat count.toNat := by
      rw [hsize, onDisk_congr fun k h1 h2 => hgather.addr k h1 (by omega)]
      exact blocks
    have hloop : Succeeds (fileWrite.writeLoop blocks' buf count 142 true ⟨0, ino''.iSize - 1,
        ino''⟩) v'' := by
      rw [writeLoop_succeeds (by omega) (by simp only [UInt32.toNat_zero, hsize]; omega)
        (by simp only [UInt32.toNat_zero, hsize]; omega)]
      rw [UInt32.toNat_zero, Nat.sub_zero]
      exact hdisk
    obtain ⟨⟨c, v3⟩, hrun⟩ := hloop
    refine ⟨c, v3, ?_⟩
    rw [if_neg hshort,
      exec_bind ((@firstBlock_succeeds part v ino ((true, ino'), v')).mpr ⟨rfl, start⟩)]
    dsimp only
    rw [exec_assert_bind, if_pos hle, exec_bind hcollect]
    dsimp only
    rw [exec_bind hrun]
    rfl

theorem upToSync_run {r : (Inode ⊕ fileWrite.Cursor) × Vol}
    (h : (fileWrite.upToSync part (blockBitmapAlloc part) ino buf count).run v = .ok r)
    : 512 * 140 < ino.iSize + count ∧ r = (.inl ino, v)
        ∨ WriteReaches part v ino count ∧ ∃ c, r.1 = .inr c ∧ c.inode.iNo = ino.iNo := by
  unfold fileWrite.upToSync at h
  split at h
  . next long =>
    rw [pure_run] at h
    exact .inl ⟨long, h⟩
  . next hshort =>
    right
    have c512 : (512 : UInt32).toNat = 512 := rfl
    have c1 : (1 : UInt32).toNat = 1 := rfl
    have c140 : (140 : UInt32).toNat = 140 := rfl
    rw [bind_run] at h
    obtain ⟨⟨ok, ino'⟩, v', hfirst, h⟩ := h
    obtain ⟨hok, start⟩ := firstBlock_succeeds.mp hfirst
    dsimp only at hok start
    subst hok
    simp only [bind_run, assert_run] at h
    obtain ⟨_, _, ⟨hle, h0⟩, ⟨ok, blocks, ino''⟩, v'', hcollect, h⟩ := h
    cases h0
    rw [UInt32.le_iff_toNat_le, c140] at hle
    have hsame := start.same
    obtain ⟨hok, hsize⟩ := collect_ok hcollect
    dsimp only at hok hsize
    subst hok
    simp only [bind_run, pure_run] at h
    obtain ⟨c, v3, hloop, hr⟩ := h
    have hbound := writeLoop_bound part (Nat.zero_le _) hloop
    rw [UInt32.toNat_zero, Nat.sub_zero, hsize, ← hsame.2.1] at hbound
    rw [← hsame.2.1] at hle
    have hlt1 := ino.iSize.toNat_lt
    have hlt2 := count.toNat_lt
    -- the sum does not wrap around, and is not 140 full blocks
    have hsum : (ino.iSize + count).toNat = ino.iSize.toNat + count.toNat := by
      rw [UInt32.toNat_add]
      omega
    have hwill : ((ino.iSize + count) / 512 + 1).toNat
        = (ino.iSize.toNat + count.toNat) / 512 + 1 := by
      rw [UInt32.toNat_add, UInt32.toNat_div, hsum, c512, c1]
      omega
    have hhas : (ino'.iSize / 512 + 1).toNat = ino.iSize.toNat / 512 + 1 := by
      rw [← hsame.2.1, UInt32.toNat_add, UInt32.toNat_div, c512, c1]
      omega
    have hshort' : ino.iSize.toNat + count.toNat < 512 * 140 := by
      rw [hwill] at hle
      omega
    obtain ⟨addr, hfits, hgather⟩ := collect_gathers hhas (by rw [← hsame.2.1]; exact hwill)
      (by omega) hcollect
    have hdisk :=
      (writeLoop_succeeds (by omega) (by simp only [UInt32.toNat_zero, hsize, ← hsame.2.1]; omega)
      (by simp only [UInt32.toNat_zero, hsize, ← hsame.2.1]; omega)).mp (succeeds_of_run hloop)
    rw [UInt32.toNat_zero, Nat.sub_zero, hsize, ← hsame.2.1,
      onDisk_congr fun k h1 h2 => hgather.addr k h1 (by omega)] at hdisk
    refine ⟨.reaches hshort' start hfits hdisk, c, ?_, ?_⟩
    . rw [hr]
    . exact (writeLoop_iNo hloop).trans (hsame.trans hgather.same).1.symm

theorem WriteFits.run {fdPos : UInt32} (h : WriteFits part v ino count)
    : Succeeds (fileWrite part fdPos ino buf count) v := by
  unfold fileWrite
  rw [fileWriteWith_eq]
  cases writeFits_iff.mp h with
  | inl long =>
    have hrun : (fileWrite.upToSync part (blockBitmapAlloc part) ino buf count).run v
        = .ok (.inl ino, v) := by
      unfold fileWrite.upToSync
      rw [if_pos long]
      rfl
    rw [succeeds_bind_of_run hrun]
    exact succeeds_pure
  | inr h =>
    obtain ⟨hreach, inode⟩ := h
    obtain ⟨c, v', hrun⟩ := hreach.run
    obtain ⟨-, c', hc, hno⟩ := (upToSync_run hrun).resolve_left fun h => by cases h.2
    cases hc
    rw [succeeds_bind_of_run hrun, succeeds_bind]
    refine ⟨_, _, inodeSync_run.mpr ⟨?_, by omega, rfl⟩, succeeds_pure⟩
    rw [hno]
    exact fun hstr => absurd hstr inode

theorem writeFits_of_run {fdPos : UInt32} (h : Succeeds (fileWrite part fdPos ino buf count) v)
    : WriteFits part v ino count := by
  unfold fileWrite at h
  rw [fileWriteWith_eq, succeeds_bind] at h
  obtain ⟨r, v', hrun, h⟩ := h
  apply writeFits_iff.mpr
  cases upToSync_run hrun with
  | inl long => exact .inl long.1
  | inr hreach =>
    right
    obtain ⟨hreach, c, rfl, hno⟩ := hreach
    refine ⟨hreach, ?_⟩
    intro hstr
    rw [succeeds_bind] at h
    obtain ⟨_, _, hsync, -⟩ := h
    have hbuf := (inodeSync_run.mp hsync).1
    rw [hno] at hbuf
    have := hbuf hstr
    omega

end Write

end RogOS
