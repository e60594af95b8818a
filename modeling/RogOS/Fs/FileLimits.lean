import Mathlib.Order.Interval.Finset.Nat
import RogOS.Fs.FileBlocks

/-!
How much of a file can be read, and how long a file can become.
-/

namespace RogOS

open Cmd

variable {part : Partition} {v : Vol} {s : Fs} {fdIdx : Fin 32} {ino : Inode} {p count : UInt32}
  {buf : Mem}

section Blocks

variable {a : Image} {n k : Nat}

theorem blockAddr_eq_ref
    (hown : Ownership part part.bitLen (v.image part).blockUsed ((v.image part).refs ino))
    (h12 : 12 ≤ k → ino.sector 12 ≠ 0) (hk : k < 140)
    : v.blockAddr ino k = (v.image part).ref ino k := by
  by_cases hlt : k < 12
  . rw [blockAddr_direct hlt, Image.ref_direct hlt]
  . have hne := h12 (by omega)
    have hdata : part.IsData (ino.sector 12) := (hown.inArea 140 hne).isData
    rw [Image.ref_of_lt hk, Image.block_of_ge (by omega), if_pos hne, Vol.blockAddr, if_neg hlt]
    unfold Partition.IsData at hdata
    simp only [Vol.image, hdata, Mem.block, ↓reduceIte]

theorem Image.HasBlocks.le_maxLba (h : a.HasBlocks ino n)
    (hown : Ownership part part.bitLen a.blockUsed (a.refs ino)) (hk : k < 140) (hkn : k < n)
    : (a.ref ino k).toNat ≤ maxLba := by
  have h0 := (h.block k hk).mpr hkn
  rw [← refs_of_lt (by omega)] at h0 ⊢
  have hblock : part.IsBlock (a.refs ino k) := hown.inArea k h0
  exact hblock.le_maxLba

theorem Image.HasBlocks.tableFits (h : a.HasBlocks ino n)
    (hown : Ownership part part.bitLen a.blockUsed (a.refs ino)) (hn : 12 < n) {used : Prop}
    : TableFits ino used := by
  have hne := h.table.mpr hn
  have hblock : part.IsBlock (ino.sector 12) := hown.inArea 140 hne
  exact ⟨hblock.le_maxLba, fun _ => hne⟩

end Blocks

section Read

def ReadsRest (v : Vol) (ino : Inode) (p count : UInt32) (buf : Mem) : Prop :=
  ∃ buf' p', (fileRead p ino buf count).run v
    = .ok (((min count.toNat (ino.iSize.toNat - p.toNat) : Nat), buf', p'), v)

theorem toNat_readLen (hp : p.toNat ≤ ino.iSize.toNat) (hsum : p.toNat + count.toNat < 2 ^ 32)
    : (readLen ino p count).toNat = min count.toNat (ino.iSize.toNat - p.toNat) := by
  have hlt : ino.iSize < p + count ↔ ino.iSize.toNat < p.toNat + count.toNat := by
    rw [UInt32.lt_iff_toNat_lt, UInt32.toNat_add]
    omega
  have hsize := ino.iSize.toNat_lt
  unfold readLen
  rw [if_congr hlt rfl rfl]
  split
  . rw [UInt32.toNat_sub]
    omega
  . omega

theorem FileShape.readFits (hS : FileShape part part.bitLen (v.image part) ino)
    (hp : p.toNat < ino.iSize.toNat) (hsum : p.toNat + count.toNat < 2 ^ 32)
    (hcount : 0 < count.toNat)
    : ReadFits v ino p count ↔ p.toNat + min count.toNat (ino.iSize.toNat - p.toNat)
        < 139 * 512 := by
  have hlen : (readLen ino p count).toNat = min count.toNat (ino.iSize.toNat - p.toNat) :=
    toNat_readLen (by omega) hsum
  have hhas : (v.image part).HasBlocks ino (ino.iSize.toNat / 512 + 1) := by
    cases hS.has with
    | inl h => omega
    | inr h => exact h
  constructor
  . intro h
    cases h with
    | atEnd less none =>
      rw [none, UInt32.toNat_zero] at hlen
      omega
    | inside below table blocks =>
      rw [hlen] at below
      exact below
  . intro h
    apply ReadFits.inside
    . rw [hlen]
      exact h
    . intro h12
      rw [hlen] at h12
      exact hhas.tableFits hS.own (by omega)
    . rw [hlen]
      intro q h1 h2
      rw [blockAddr_eq_ref hS.own (fun h12 => hhas.table.mpr (by omega)) (by omega)]
      exact hhas.le_maxLba hS.own (by omega) (by omega)

theorem FileShape.readsRest_iff (hS : FileShape part part.bitLen (v.image part) ino)
    (hp : p.toNat < ino.iSize.toNat) (hcount : 0 < count.toNat)
    : ReadsRest v ino p count buf
        ↔
      p.toNat + count.toNat < 2 ^ 32 ∧ p.toNat + min count.toNat (ino.iSize.toNat - p.toNat)
        < 139 * 512 := by
  constructor
  . rintro ⟨buf', p', h⟩
    have hsum := fileRead_no_wrap (by omega) hS.small h
    exact ⟨hsum, (hS.readFits hp hsum hcount).mp (fileRead_succeeds.mp (succeeds_of_run h))⟩
  . rintro ⟨hsum, hend⟩
    have hfits := (hS.readFits hp hsum hcount).mpr hend
    obtain ⟨⟨⟨k, buf', p'⟩, v'⟩, hrun⟩ := (@fileRead_succeeds v ino buf p count).mpr hfits
    have hv : v' = v := fileRead_keeps _ _ hrun
    have hdata : FileData (v.image part) ino (fileByte (v.image part) ino) := ⟨fun _ _ => rfl⟩
    have hk := (fileRead_run hS hdata (by omega) hsum hrun).1
    dsimp only at hk
    rw [readSize, if_neg (by omega)] at hk
    refine ⟨buf', p', ?_⟩
    rw [hrun, hk, hv]

/--
Whatever was written is read back from any position in the file, unless the range ends at the block
with index 139 or behind it, which `file_read` does not admit, or `fd_pos + count` wraps around.
-/
theorem readsRest_of_writeFiles_iff {task : Nat} {parentDir : DirRef} {filename : List UInt8}
    {flag : UInt8} {fd : Int} {ws : List (Mem × UInt32)} {ks : List Int} {s0 s1 s2 : Fs}
    (hslot : getFreeSlotInGlobal s0 = some fdIdx)
    (hcreate : (fileCreate part task parentDir filename flag).run s0 = .ok (fd, s1)) (hfd : fd ≠ -1)
    (htail : (s1.vol.image part).TailUsed part)
    (hwrite : (writeFiles part fdIdx ws).run s1 = .ok (ks, s2))
    (hino : s2.fileInode? fdIdx = some ino) (hp : p.toNat < ino.iSize.toNat)
    (hcount : 1 ≤ count.toNat)
    : ReadsRest s2.vol ino p count buf
        ↔
      p.toNat + count.toNat < 2 ^ 32 ∧ p.toNat + min count.toNat (ino.iSize.toNat - p.toNat)
        < 139 * 512 := by
  obtain ⟨⟨addr, hF⟩, -, -⟩ := fileOn_of_writeFiles hslot hcreate hfd htail hwrite hino
  exact hF.shape.readsRest_iff hp hcount

theorem readsRest_fiveBytes
    : ∃ fd s1 s2 ino,
        (fileCreate smallPartition 0 .root [102] oRdwr).run smallFs = .ok (fd, s1) ∧ fd ≠ -1
          ∧ (writeFiles smallPartition 3 fiveBytes).run s1 = .ok ([3, 2], s2)
          ∧ s2.fileInode? 3 = some ino ∧ ino.iSize = 5 ∧ ReadsRest s2.vol ino 1 10 Mem.zero := by
  obtain ⟨fd, s1, s2, ino, hcreate, hfd, htail, hwrite, hino, h5⟩ := exists_fiveBytes
  refine ⟨fd, s1, s2, ino, hcreate, hfd, hwrite, hino, h5, ?_⟩
  apply (readsRest_of_writeFiles_iff getFreeSlot_smallFs hcreate hfd htail hwrite hino _ _).mpr
  . rw [h5]
    decide
  . rw [h5]
    decide
  . decide

/-- Not so with a count for which the end of the range wraps around. -/
theorem not_readsRest_fiveBytes
    : ∃ fd s1 s2 ino,
        (fileCreate smallPartition 0 .root [102] oRdwr).run smallFs = .ok (fd, s1) ∧ fd ≠ -1
          ∧ (writeFiles smallPartition 3 fiveBytes).run s1 = .ok ([3, 2], s2)
          ∧ s2.fileInode? 3 = some ino ∧ ino.iSize = 5
              ∧ ¬ ReadsRest s2.vol ino 1 0xffffffff Mem.zero := by
  obtain ⟨fd, s1, s2, ino, hcreate, hfd, htail, hwrite, hino, h5⟩ := exists_fiveBytes
  refine ⟨fd, s1, s2, ino, hcreate, hfd, hwrite, hino, h5, ?_⟩
  rintro ⟨buf', p', h⟩
  have hsum := fileRead_no_wrap (by rw [h5]; decide) (by rw [h5]; decide) h
  exact absurd hsum (by decide)

end Read

section Alloc

variable {a : Image} {bits : Mem} {bs : List Nat} {b n len : Nat}

theorem FirstClear.exists_of_clear (hb : b < 8 * len) (hclear : bits.bit b = false)
    : ∃ c, FirstClear bits len c := by
  have hex : ∃ c, c < 8 * len ∧ bits.bit c = false := ⟨b, hb, hclear⟩
  refine ⟨Nat.find hex, (Nat.find_spec hex).1, (Nat.find_spec hex).2, ?_⟩
  intro c hc
  have hmin := Nat.find_min hex hc
  rw [not_and, Bool.not_eq_false] at hmin
  apply hmin
  exact Nat.lt_trans hc (Nat.find_spec hex).1

theorem clearBits_setBit
    : ((Finset.range (8 * len)).filter fun c => (bits.setBit b true).bit c = false)
        =
      ((Finset.range (8 * len)).filter fun c => bits.bit c = false).erase b := by
  apply Finset.ext
  intro c
  rw [Finset.mem_erase, Finset.mem_filter, Finset.mem_filter, Mem.bit_setBit]
  split
  . next h => simp [h]
  . next h => simp [Ne.symm h]

theorem FirstClears.exists_of_card
    (h : n ≤ ((Finset.range (8 * len)).filter fun c => bits.bit c = false).card)
    : ∃ bs, bs.length = n ∧ FirstClears len bits bs := by
  induction n generalizing bits with
  | zero => exact ⟨[], rfl, .nil⟩
  | succ n ih =>
    obtain ⟨c, hc⟩ := Finset.card_pos.mp (Nat.lt_of_lt_of_le (Nat.succ_pos n) h)
    rw [Finset.mem_filter, Finset.mem_range] at hc
    obtain ⟨b, hb⟩ := FirstClear.exists_of_clear hc.1 hc.2
    have hmem : b ∈ (Finset.range (8 * len)).filter fun c => bits.bit c = false := by
      rw [Finset.mem_filter, Finset.mem_range]
      exact ⟨hb.lt, hb.clear⟩
    have hcard := Finset.card_erase_of_mem hmem
    rw [← clearBits_setBit] at hcard
    obtain ⟨bs, hlen, hbs⟩ := @ih (bits.setBit b true) (by omega)
    refine ⟨b :: bs, ?_, .cons hb hbs⟩
    rw [List.length_cons, hlen]

theorem FirstClears.clear (h : FirstClears len bits bs) (hb : b ∈ bs)
    : b < 8 * len ∧ bits.bit b = false := by
  induction h with
  | nil => contradiction
  | @cons bits c bs head tail ih =>
    rw [List.mem_cons] at hb
    cases hb with
    | inl h =>
      rw [h]
      exact ⟨head.lt, head.clear⟩
    | inr h =>
      obtain ⟨h1, h2⟩ := ih h
      rw [Mem.bit_setBit] at h2
      split at h2
      . contradiction
      . exact ⟨h1, h2⟩

def Image.freeCount (part : Partition) (a : Image) : Nat :=
  ((Finset.range part.bitLen).filter fun b => a.blockUsed b = false).card

def Image.blockCount (a : Image) (ino : Inode)
    : Nat := ((Finset.range 141).filter fun j => a.refs ino j ≠ 0).card

def blocksFor (size : Nat) : Nat := size / 512 + 1 + if 12 ≤ size / 512 then 1 else 0

theorem Image.HasBlocks.blockCount_eq (h : a.HasBlocks ino n) (hn : n ≤ 140)
    : a.blockCount ino = n + if 12 < n then 1 else 0 := by
  rw [← card_indices hn, Image.blockCount]
  congr 1
  apply Finset.ext
  intro j
  rw [Finset.mem_filter, h.refs_iff hn, and_iff_right_iff_imp]
  intro hj
  have h0 := (h.refs_iff hn).mpr hj
  rw [Finset.mem_range]
  exact refs_ne_zero h0

theorem exists_firstClears (h : n ≤ (v.image part).freeCount part)
    : ∃ bs, bs.length = n ∧ FirstClears (part.sb.blockBitmapSects.toNat * 512) v.blockBits bs := by
  apply FirstClears.exists_of_card
  apply Nat.le_trans h
  apply Finset.card_le_card
  have hbits := part.layout.bits
  intro b
  rw [Finset.mem_filter, Finset.mem_filter, Finset.mem_range, Finset.mem_range]
  rintro ⟨h1, h2⟩
  exact ⟨by omega, h2⟩

theorem FirstClears.le_maxLba
    (h : FirstClears (part.sb.blockBitmapSects.toNat * 512) v.blockBits bs)
    (ht : (v.image part).TailUsed part) (hb : b ∈ bs) : (part.blockLba b).toNat ≤ maxLba := by
  obtain ⟨h1, h2⟩ := h.clear hb
  have hlt : b < part.bitLen := by
    by_contra hge
    have hused : v.blockBits.bit b = true := ht b (by omega) (by omega)
    rw [h2] at hused
    contradiction
  exact (part.isBlock_blockLba hlt).le_maxLba

end Alloc

section Write

variable {bs : List Nat} {u w : Nat} {pos : UInt32}

theorem collectFits_of_hasBlocks
    (hown : Ownership part part.bitLen (v.image part).blockUsed ((v.image part).refs ino))
    (ht : (v.image part).TailUsed part) (hhas : (v.image part).HasBlocks ino (u + 1)) (hle : u ≤ w)
    (hw : w < 140) (hbs : FirstClears (part.sb.blockBitmapSects.toNat * 512) v.blockBits bs)
    (hlen : bs.length = w - u + if u < 12 ∧ 12 ≤ w then 1 else 0)
    : ∃ addr, CollectFits part v ino u w addr ∧ ∀ k, u ≤ k → k ≤ w → (addr k).toNat ≤ maxLba := by
  have haddr : (v.blockAddr ino u).toNat ≤ maxLba := by
    rw [blockAddr_eq_ref hown (fun h12 => hhas.table.mpr (by omega)) (by omega)]
    exact hhas.le_maxLba hown (by omega) (by omega)
  have hcurrent : u < 12 → ino.sector u ≠ 0 := by
    intro hu
    rw [← (v.image part).ref_direct hu]
    exact (hhas.block u (by omega)).mpr (by omega)
  have hfresh : FreshSectors ino (u + 1) (w - u) := by
    intro k h1 h2 h3
    by_contra h0
    rw [← (v.image part).ref_direct h3] at h0
    have := (hhas.block k (by omega)).mp h0
    omega
  have hadded : ∀ cs : List Nat, cs.length = w - u → (∀ b ∈ cs, (part.blockLba b).toNat ≤ maxLba) →
      ∀ k, u ≤ k → k ≤ w → (addBlocks part (v.blockAddr ino) (u + 1) cs k).toNat ≤ maxLba := by
    intro cs hcs hall k h1 h2
    unfold addBlocks
    split
    . rw [show k = u by omega]
      exact haddr
    . rw [List.getD_eq_getElem _ _ (by omega)]
      apply hall
      exact List.getElem_mem _
  have hdisk : ∀ b ∈ bs, (part.blockLba b).toNat ≤ maxLba := fun b hb => hbs.le_maxLba ht hb
  by_cases heq : u = w
  . refine ⟨_, .same heq fun h12 => hhas.tableFits hown (by omega), ?_⟩
    intro k h1 h2
    rw [show k = u by omega]
    exact haddr
  . by_cases hw12 : w < 12
    . rw [if_neg (by omega), Nat.add_zero] at hlen
      rw [← hlen] at hfresh
      exact ⟨_, .direct (by omega) hw12 (hcurrent (by omega)) hlen hfresh hbs, hadded bs hlen hdisk⟩
    . by_cases hu : u < 12
      . rw [if_pos ⟨hu, by omega⟩] at hlen
        have hno : ino.sector 12 = 0 := by
          by_contra h0
          have := hhas.table.mp h0
          omega
        cases bs with
        | nil => simp at hlen
        | cons t cs =>
          rw [List.length_cons, Nat.add_left_inj] at hlen
          rw [← hlen] at hfresh
          refine ⟨_, .crossing hu (by omega) hno hlen hfresh hbs (hdisk t List.mem_cons_self), ?_⟩
          apply hadded cs hlen
          intro b hb
          exact hdisk b (List.mem_cons_of_mem t hb)
      . rw [if_neg (by omega), Nat.add_zero] at hlen
        exact ⟨_, .indirect (by omega) (by omega) (hhas.tableFits hown (by omega)) hlen hbs,
          hadded bs hlen hdisk⟩

theorem FileShape.startFits (hS : FileShape part part.bitLen (v.image part) ino)
    (hroot : (v.image part).blockUsed 0 = true) {total : Nat}
    (htotal : blocksFor ino.iSize.toNat ≤ total)
    (hfree : total ≤ (v.image part).blockCount ino + (v.image part).freeCount part)
    : ∃ v' ino' cs, StartFits part v ino v' ino' ∧ cs.length = total - blocksFor ino.iSize.toNat
        ∧ FirstClears (part.sb.blockBitmapSects.toNat * 512) v'.blockBits cs := by
  have hsmall := hS.small
  cases hS.has with
  | inl h =>
    obtain ⟨hnone, hsize⟩ := h
    have h0 : ino.sector 0 = 0 := by
      have := hnone 0
      rw [Image.refs_of_lt (by omega), Image.ref_direct (by omega)] at this
      exact this
    have hcount : (v.image part).blockCount ino = 0 := by
      simp [Image.blockCount, hnone]
    have h1 : blocksFor ino.iSize.toNat = 1 := by
      rw [hsize]
      rfl
    obtain ⟨bs, hlen, hbs⟩ := @exists_firstClears part v total (by omega)
    cases hbs with
    | nil =>
      rw [List.length_nil] at hlen
      omega
    | @cons _ b cs head tail =>
      refine ⟨_, _, cs, .first h0 head ?_, ?_, tail⟩
      . rintro rfl
        have hclear := head.clear
        rw [show v.blockBits.bit 0 = true from hroot] at hclear
        contradiction
      . rw [List.length_cons] at hlen
        omega
  | inr hhas =>
    have h0 : ino.sector 0 ≠ 0 := by
      rw [← (v.image part).ref_direct (by omega)]
      exact (hhas.block 0 (by omega)).mpr (by omega)
    have hcount := hhas.blockCount_eq (by omega)
    have hsame : blocksFor ino.iSize.toNat = (v.image part).blockCount ino := by
      rw [hcount, blocksFor]
      congr 1
      apply if_congr _ rfl rfl
      omega
    obtain ⟨bs, hlen, hbs⟩ := @exists_firstClears part v (total - blocksFor ino.iSize.toNat)
      (by omega)
    exact ⟨v, ino, bs, .present h0, hlen, hbs⟩

theorem FileShape.writeFits (hS : FileShape part part.bitLen (v.image part) ino)
    (ht : (v.image part).TailUsed part) (hroot : (v.image part).blockUsed 0 = true)
    (hshort : ino.iSize.toNat + count.toNat < 512 * 140)
    (hfree : blocksFor (ino.iSize.toNat + count.toNat)
      ≤ (v.image part).blockCount ino + (v.image part).freeCount part)
    (hslot : ¬ Straddles (ino.iNo.toNat % 256)) : WriteFits part v ino count := by
  have hmono : blocksFor ino.iSize.toNat ≤ blocksFor (ino.iSize.toNat + count.toNat) := by
    unfold blocksFor
    split
    . rw [if_pos (by omega)]
      omega
    . omega
  obtain ⟨v', ino', cs, hstart, hlen, hcs⟩ := hS.startFits hroot hmono hfree
  have hrun := (@firstBlock_succeeds part v ino ((true, ino'), v')).mpr ⟨rfl, hstart⟩
  obtain ⟨-, hst⟩ := firstBlock_run hS ht.freeBelow hrun
  dsimp only at hst
  have ht' : (v'.image part).TailUsed part := fun b h1 h2 => hst.ext.used b (ht b h1 h2)
  have hlen' : cs.length = (ino.iSize.toNat + count.toNat) / 512 - ino.iSize.toNat / 512
      + if ino.iSize.toNat / 512 < 12 ∧ 12 ≤ (ino.iSize.toNat + count.toNat) / 512 then 1
        else 0 := by
    rw [hlen]
    unfold blocksFor
    split <;> split <;> split <;> omega
  obtain ⟨addr, hcollect, hdisk⟩ :=
    collectFits_of_hasBlocks hst.ext.own ht' hst.has (by omega) (by omega) hcs hlen'
  refine .fits hshort hstart hcollect ?_ hslot
  intro q h1 h2
  exact hdisk (q / 512) (by omega) (by omega)

/--
What a limit of 140 blocks means for a write: up to `512 * 140` bytes the file grows by the count,
behind them the write is refused.
-/
def WritesToLimit (part : Partition) (v : Vol) (ino : Inode) (pos count : UInt32) (buf : Mem)
    : Prop :=
  if ino.iSize.toNat + count.toNat ≤ 512 * 140 then
    ∃ pos' ino' v', (fileWrite part pos ino buf count).run v = .ok ((count.toNat, pos', ino'), v')
      ∧ ino'.iSize.toNat = ino.iSize.toNat + count.toNat
  else
    (fileWrite part pos ino buf count).run v = .ok ((-1, pos, ino), v)

theorem FileShape.writesToLimit_iff (hS : FileShape part part.bitLen (v.image part) ino)
    (ht : (v.image part).TailUsed part) (hroot : (v.image part).blockUsed 0 = true)
    (hfree : ino.iSize.toNat + count.toNat < 512 * 140 →
      blocksFor (ino.iSize.toNat + count.toNat)
        ≤ (v.image part).blockCount ino + (v.image part).freeCount part)
    : WritesToLimit part v ino pos count buf
        ↔
      ino.iSize.toNat + count.toNat < 512 * 140 ∧ ¬ Straddles (ino.iNo.toNat % 256)
        ∨ 512 * 140 < ino.iSize.toNat + count.toNat ∧ ino.iSize.toNat + count.toNat < 2 ^ 32 := by
  have hsmall := hS.small
  have hcount := count.toNat_lt
  have c71680 : (512 * 140 : UInt32).toNat = 71680 := rfl
  have hlong : 512 * 140 < ino.iSize + count
      ↔ 512 * 140 < ino.iSize.toNat + count.toNat ∧ ino.iSize.toNat + count.toNat < 2 ^ 32 := by
    rw [UInt32.lt_iff_toNat_lt, c71680, UInt32.toNat_add]
    omega
  unfold WritesToLimit
  constructor
  . intro h
    have hsucc : Succeeds (fileWrite part pos ino buf count) v := by
      split at h
      . obtain ⟨_, _, _, hrun, -⟩ := h
        exact succeeds_of_run hrun
      . exact succeeds_of_run h
    cases writeFits_of_run hsucc with
    | refused long => exact .inr (hlong.mp long)
    | fits short _ _ _ inode => exact .inl ⟨short, inode⟩
  . rintro (⟨hshort, hslot⟩ | h)
    . obtain ⟨⟨⟨k, pos', ino'⟩, v'⟩, hrun⟩ :=
        @WriteFits.run part v ino buf count pos (hS.writeFits ht hroot hshort (hfree hshort) hslot)
      obtain ⟨hk, a', hW, -, -⟩ :=
        fileWrite_wrote hS ht.freeBelow (fun h => by have := hlong.mp h; omega) hrun
      dsimp only at hk hW
      rw [if_pos (by omega)]
      refine ⟨pos', ino', v', ?_, hW.size⟩
      rw [hrun, hk]
    . rw [if_neg (by omega)]
      exact fileWrite_refused (hlong.mpr h)

/--
A file that was written to takes further bytes up to the limit, but for its last byte, for a count
with which the new size wraps around and for an inode that crosses a sector boundary of the inode
table.
-/
theorem writesToLimit_of_writeFiles_iff {task : Nat} {parentDir : DirRef} {filename : List UInt8}
    {flag : UInt8} {fd : Int} {ws : List (Mem × UInt32)} {ks : List Int} {s0 s1 s2 : Fs}
    (hslot : getFreeSlotInGlobal s0 = some fdIdx)
    (hcreate : (fileCreate part task parentDir filename flag).run s0 = .ok (fd, s1)) (hfd : fd ≠ -1)
    (htail : (s1.vol.image part).TailUsed part) (hroot : (s1.vol.image part).blockUsed 0 = true)
    (hwrite : (writeFiles part fdIdx ws).run s1 = .ok (ks, s2))
    (hino : s2.fileInode? fdIdx = some ino) (hfree : ino.iSize.toNat + count.toNat < 512 * 140 →
      blocksFor (ino.iSize.toNat + count.toNat)
        ≤ (s2.vol.image part).blockCount ino + (s2.vol.image part).freeCount part)
    : WritesToLimit part s2.vol ino pos count buf
        ↔
      ino.iSize.toNat + count.toNat < 512 * 140 ∧ ¬ Straddles (ino.iNo.toNat % 256)
        ∨ 512 * 140 < ino.iSize.toNat + count.toNat ∧ ino.iSize.toNat + count.toNat < 2 ^ 32 := by
  obtain ⟨⟨addr, hF⟩, hG, -⟩ := fileOn_of_writeFiles hslot hcreate hfd htail hwrite hino
  exact hF.shape.writesToLimit_iff hF.tail (hG.used 0 hroot) hfree

theorem exists_newFile
    : ∃ fd s1 ino,
        (fileCreate smallPartition 0 .root [102] oRdwr).run smallFs = .ok (fd, s1) ∧ fd ≠ -1
          ∧ (s1.vol.image smallPartition).TailUsed smallPartition
          ∧ (s1.vol.image smallPartition).blockUsed 0 = true
          ∧ 142 ≤ (s1.vol.image smallPartition).freeCount smallPartition
          ∧ s1.fileInode? 3 = some ino ∧ ino.iSize = 0 ∧ ino.iNo = 1 := by
  have hret : (fileCreate smallPartition 0 .root [102] oRdwr).returns smallFs (· ≠ -1) = true := by
    decide +kernel
  obtain ⟨fd, hrun, hfd⟩ := Cmd.run_of_returns hret
  rw [decide_eq_true_iff] at hfd
  have htail := fileCreate_tailUsed_small
  generalize hs1 : (fileCreate smallPartition 0 .root [102] oRdwr).after smallFs = s1 at *
  have hroot : (s1.vol.image smallPartition).blockUsed 0 = true := by
    rw [← hs1]
    decide +kernel
  have hclear : (List.range 142).all (fun i => !s1.vol.blockBits.bit (1 + i)) = true := by
    rw [← hs1]
    decide +kernel
  have hnew : (s1.fileInode? 3).map (fun ino => (ino.iSize, ino.iNo)) = some (0, 1) := by
    rw [← hs1]
    decide +kernel
  obtain ⟨ino, hino, h⟩ := Option.map_eq_some_iff.mp hnew
  rw [Prod.mk.injEq] at h
  refine ⟨fd, s1, ino, hrun, hfd, htail, hroot, ?_, hino, h⟩
  rw [show 142 = (Finset.Ico 1 143).card by rw [Nat.card_Ico]]
  apply Finset.card_le_card
  intro b hb
  rw [Finset.mem_Ico] at hb
  rw [Finset.mem_filter, Finset.mem_range]
  have hbit := List.all_eq_true.mp hclear (b - 1) (by rw [List.mem_range]; omega)
  rw [show 1 + (b - 1) = b by omega, Bool.not_eq_true'] at hbit
  refine ⟨?_, hbit⟩
  show b < 4387
  omega

theorem writesToLimit_newFile
    : ∃ fd s1 ino,
        (fileCreate smallPartition 0 .root [102] oRdwr).run smallFs = .ok (fd, s1) ∧ fd ≠ -1
          ∧ s1.fileInode? 3 = some ino
              ∧ WritesToLimit smallPartition s1.vol ino 0 1000 Mem.zero := by
  obtain ⟨fd, s1, ino, hcreate, hfd, htail, hroot, hfree, hino, hsize, hno⟩ := exists_newFile
  refine ⟨fd, s1, ino, hcreate, hfd, hino, ?_⟩
  have hwrite : (writeFiles smallPartition 3 []).run s1 = .ok ([], s1) := rfl
  have hneed : blocksFor (ino.iSize.toNat + (1000 : UInt32).toNat) ≤ 2 := by
    rw [hsize]
    decide
  refine (writesToLimit_of_writeFiles_iff getFreeSlot_smallFs hcreate hfd htail hroot hwrite
    hino ?_).mpr ?_
  . intro _
    omega
  . rw [hsize, hno]
    decide

/-- Not so the 140 full blocks, which the size limit admits. -/
theorem not_writesToLimit_newFile
    : ∃ fd s1 ino,
        (fileCreate smallPartition 0 .root [102] oRdwr).run smallFs = .ok (fd, s1) ∧ fd ≠ -1
          ∧ 142 ≤ (s1.vol.image smallPartition).freeCount smallPartition
          ∧ s1.fileInode? 3 = some ino ∧ ino.iSize = 0
          ∧ ¬ WritesToLimit smallPartition s1.vol ino 0 71680 Mem.zero := by
  obtain ⟨fd, s1, ino, hcreate, hfd, htail, hroot, hfree, hino, hsize, hno⟩ := exists_newFile
  refine ⟨fd, s1, ino, hcreate, hfd, hfree, hino, hsize, ?_⟩
  unfold WritesToLimit
  rw [hsize, if_pos (by decide)]
  rintro ⟨_, _, _, hrun, -⟩
  cases writeFits_of_run (succeeds_of_run hrun) with
  | refused long =>
    rw [hsize] at long
    exact absurd long (by decide)
  | fits short _ _ _ _ =>
    rw [hsize] at short
    exact absurd short (by decide)

end Write

end RogOS
