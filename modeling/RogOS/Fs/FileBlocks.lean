import Mathlib.Data.Finset.Card
import RogOS.Fs.FileContent
import RogOS.Fs.Lemmas.DeleteRun
import RogOS.Fs.Lemmas.FileReturns

/-!
The blocks of a file that `file_create` made and `file_write` has written to.
-/

namespace RogOS

variable {part : Partition} {s s' : Fs} {fdIdx : Fin 32} {addr : Nat} {ino : Inode} {a a' : Image}
  {lim n : Nat}

section Run

structure FileOn (part : Partition) (s : Fs) (fdIdx : Fin 32) (addr : Nat) (ino : Inode)
    : Prop where
  entry : (s.fileTable fdIdx).fdInode = some addr
  inode : s.inode? addr = some ino
  shape : FileShape part part.bitLen (s.vol.image part) ino
  tail : (s.vol.image part).TailUsed part

structure Image.Grown (part : Partition) (a a' : Image) (ino : Inode) : Prop where
  used : ∀ b, a.blockUsed b = true → a'.blockUsed b = true
  new : ∀ b, a'.blockUsed b = true → a.blockUsed b = true ∨ ∃ j, a'.refs ino j ≠ 0 ∧ a'.refs ino j
    = part.blockLba b
  fresh : ∀ j, a'.refs ino j ≠ 0 → a.blockUsed (part.blockIdx (a'.refs ino j)) = false

theorem Image.Grown.trans {a'' : Image} {ino' : Inode} (h : a.Grown part a' ino)
    (he : Extends part lim a' a'' (a'.refs ino) (a''.refs ino'))
    (hk : Keeps (a'.refs ino) (a''.refs ino'))
    : a.Grown part a'' ino' where
  used b hb := he.used b (h.used b hb)
  new b hb := by
    cases he.new b hb with
    | inr hnew => exact .inr hnew
    | inl hold =>
      cases h.new b hold with
      | inl h => exact .inl h
      | inr h =>
        right
        obtain ⟨j, h0, hj⟩ := h
        refine ⟨j, ?_, ?_⟩
        . rw [hk j h0]
          exact h0
        . rw [hk j h0, hj]
  fresh j hj := by
    cases he.old j hj with
    | inl hold =>
      rw [hold] at hj ⊢
      exact h.fresh j hj
    | inr hnew =>
      by_contra hu
      rw [h.used _ (by simpa using hu)] at hnew
      contradiction

theorem Image.Grown.setSlot {k : Nat} {x : Inode} (h : a.Grown part a' ino)
    : a.Grown part (a'.setSlot k x) ino :=
  ⟨h.used, h.new, h.fresh⟩

theorem FileOn.write {w : Mem × UInt32} (hF : FileOn part s fdIdx addr ino)
    (hG : a.Grown part (s.vol.image part) ino) {r : Int × Fs}
    (h : (writeFile part fdIdx w.1 w.2).run s = .ok r)
    : ∃ ino', FileOn part r.2 fdIdx addr ino' ∧ a.Grown part (r.2.vol.image part) ino'
        ∧ (r.1 = w.2.toNat → (r.2.vol.image part).HasBlocks ino' (ino'.iSize.toNat / 512 + 1)) := by
  obtain ⟨q, v, hrun, hq, hentry, hino, hvol⟩ := writeFile_run hF.entry hF.inode h
  by_cases hlong : 512 * 140 < ino.iSize + w.2
  . rw [fileWrite_refused hlong] at hrun
    cases hrun
    dsimp only at hq hino
    refine ⟨ino, ⟨hentry, hino, ?_, ?_⟩, ?_, ?_⟩
    . rw [hvol]
      exact hF.shape
    . rw [hvol]
      exact hF.tail
    . rw [hvol]
      exact hG
    . intro hcount
      omega
  . obtain ⟨-, a', hW, hhas, himg⟩ := fileWrite_wrote hF.shape hF.tail.freeBelow hlong hrun
    dsimp only at hW hhas himg
    rw [← hvol] at himg
    refine ⟨q.2.2, ⟨hentry, hino, ?_, ?_⟩, ?_, ?_⟩
    . rw [himg]
      exact hW.shape.setSlot
    . rw [himg]
      intro b h1 h2
      exact hW.ext.used b (hF.tail b h1 h2)
    . rw [himg]
      exact (hG.trans hW.ext hW.keeps).setSlot
    . intro _
      rw [himg]
      exact ⟨hhas.block, hhas.table⟩

theorem FileOn.writes {ws : List (Mem × UInt32)} (hF : FileOn part s fdIdx addr ino)
    (hG : a.Grown part (s.vol.image part) ino) {r : List Int × Fs}
    (h : (writeFiles part fdIdx ws).run s = .ok r)
    : ∃ ino', FileOn part r.2 fdIdx addr ino' ∧ a.Grown part (r.2.vol.image part) ino'
        ∧ (r.1 = ws.map (fun w => (w.2.toNat : Int)) →
            ws ≠ [] ∨ (s.vol.image part).HasBlocks ino (ino.iSize.toNat / 512 + 1) →
            (r.2.vol.image part).HasBlocks ino' (ino'.iSize.toNat / 512 + 1)) := by
  induction ws generalizing s ino r with
  | nil =>
    rw [writeFiles, Cmd.pure_run] at h
    rw [h]
    refine ⟨ino, hF, hG, ?_⟩
    intro _ hhas
    exact hhas.resolve_left fun hne => hne rfl
  | cons w ws ih =>
    simp only [writeFiles, Cmd.bind_run, Cmd.pure_run] at h
    obtain ⟨k, s1, h1, ks, s2, h2, h3⟩ := h
    obtain ⟨ino1, hF1, hG1, hhas1⟩ := hF.write hG h1
    obtain ⟨ino2, hF2, hG2, hhas2⟩ := ih hF1 hG1 h2
    rw [h3]
    refine ⟨ino2, hF2, hG2, ?_⟩
    intro hr _
    dsimp only at hr hhas1
    rw [List.map_cons, List.cons.injEq] at hr
    exact hhas2 hr.2 (.inr (hhas1 hr.1))

theorem fileCreate_fileOn {task : Nat} {parentDir : DirRef} {filename : List UInt8} {flag : UInt8}
    {r : Int × Fs} (hidx : getFreeSlotInGlobal s = some fdIdx)
    (h : (fileCreate part task parentDir filename flag).run s = .ok r) (hr : r.1 ≠ -1)
    (htail : (r.2.vol.image part).TailUsed part)
    : ∃ addr ino, FileOn part r.2 fdIdx addr ino
        ∧ (r.2.vol.image part).Grown part (r.2.vol.image part) ino := by
  obtain ⟨addr, n, hentry, hino⟩ := fileCreate_inode hidx h hr
  refine ⟨addr, _, ⟨hentry, hino, fileShape_inodeInit part.bitLen_le, htail⟩, ?_⟩
  refine ⟨fun _ hb => hb, fun _ hb => .inl hb, ?_⟩
  intro j hj
  exact absurd Image.refs_inodeInit hj

end Run

section Count

theorem Image.HasBlocks.refs_iff (h : a.HasBlocks ino n) (hn : n ≤ 140) {j : Nat}
    : a.refs ino j ≠ 0 ↔ j ∈ Finset.range n ∪ (if 12 < n then {140} else ∅) := by
  have hmem : j ∈ Finset.range n ∪ (if 12 < n then {140} else ∅) ↔ j < n ∨ 12 < n ∧ j = 140 := by
    rw [Finset.mem_union, Finset.mem_range]
    split
    . next h12 => simp [h12]
    . next h12 => simp [h12]
  rw [hmem]
  by_cases hj : j < 140
  . rw [refs_of_lt (by omega), h.block j hj]
    omega
  . by_cases hj' : j = 140
    . rw [hj', refs_table, h.table]
      omega
    . unfold refs
      rw [if_neg (by omega)]
      simp only [ne_eq, not_true_eq_false, false_iff]
      omega

theorem card_indices (hn : n ≤ 140)
    : (Finset.range n ∪ (if 12 < n then {140} else ∅)).card = n + if 12 < n then 1 else 0 := by
  split
  . rw [Finset.card_union_of_disjoint, Finset.card_range, Finset.card_singleton]
    rw [Finset.disjoint_singleton_right, Finset.mem_range]
    omega
  . rw [Finset.union_empty, Finset.card_range, Nat.add_zero]

theorem Image.Grown.card_eq (h : a.Grown part a' ino)
    (hown : Ownership part part.bitLen a'.blockUsed (a'.refs ino))
    (hhas : a'.HasBlocks ino n) (hn : n ≤ 140)
    : ((Finset.range (4096 * part.sb.blockBitmapSects.toNat)).filter
        fun b => a.blockUsed b = false ∧ a'.blockUsed b = true).card
        =
      n + if 12 < n then 1 else 0 := by
  have himage : (Finset.range (4096 * part.sb.blockBitmapSects.toNat)).filter
        (fun b => a.blockUsed b = false ∧ a'.blockUsed b = true)
      = (Finset.range n ∪ (if 12 < n then {140} else ∅)).image fun j =>
          part.blockIdx (a'.refs ino j) := by
    apply Finset.ext
    intro b
    rw [Finset.mem_filter, Finset.mem_range, Finset.mem_image]
    constructor
    . rintro ⟨hb, hclear, hset⟩
      obtain ⟨j, h0, hj⟩ := (h.new b hset).resolve_left (by rw [hclear]; decide)
      refine ⟨j, (hhas.refs_iff hn).mp h0, ?_⟩
      rw [hj]
      apply Partition.blockIdx_blockLba
      have := part.sects_le
      omega
    . rintro ⟨j, hj, rfl⟩
      have h0 := (hhas.refs_iff hn).mpr hj
      have hlt := Partition.blockIdx_lt (hown.inArea j h0)
      have hbits := part.layout.bits
      exact ⟨by omega, h.fresh j h0, hown.used j h0⟩
  rw [himage, Finset.card_image_of_injOn, card_indices hn]
  intro i hi j hj heq
  by_contra hne
  exact hown.blockIdx_ne ((hhas.refs_iff hn).mpr hi) ((hhas.refs_iff hn).mpr hj) hne heq

end Count

section Assertions

open fileWrite

variable {v : Vol} {blocks : Nat → UInt32} {alloc : VolM (Option UInt32)} {hasUsed willUse : UInt32}

def Allocates (part : Partition) (alloc : VolM (Option UInt32)) : Prop :=
  ∀ v : Vol, (v.image part).TailUsed part → alloc.run v ≠ .error .panic
    ∧ ∀ lba v', alloc.run v = .ok (some lba, v') → part.IsBlock lba ∧ (v'.image part).TailUsed part

theorem allocBlocks_no_panic (halloc : Allocates part alloc) (ht : (v.image part).TailUsed part)
    {i : Nat} (hfresh : FreshSectors ino i n)
    : (allocBlocks part alloc n i blocks ino).run v ≠ .error .panic := by
  induction n generalizing v i blocks ino with
  | zero => exact fun h => by contradiction
  | succ n ih =>
    rw [allocBlocks]
    apply Cmd.bind_ne_error (halloc v ht).1
    intro o v1 hrun
    cases o with
    | none => exact fun h => by contradiction
    | some lba =>
      obtain ⟨hblock, ht1⟩ := (halloc v ht).2 lba v1 hrun
      have hbit := Partition.hasBit_blockIdx hblock
      have hsync := @bitmapSync_block part v1 _ hbit
      have ht2 : ((v1.synced part (part.blockIdx lba)).image part).TailUsed part := by
        rw [bitmapSync_image (show part.HasBit _ .block from hbit) hsync]
        exact ht1
      obtain ⟨h0, hrest⟩ := (@freshSectors_succ ino i n lba).mp hfresh
      unfold Inode.addBlock at hrest
      dsimp only
      split
      . next hi =>
        rw [if_pos hi] at hrest
        rw [Cmd.exec_assert_bind, if_pos (h0 hi), Cmd.exec_bind hsync]
        exact ih ht2 hrest
      . next hi =>
        rw [if_neg hi] at hrest
        rw [Cmd.exec_bind hsync]
        exact ih ht2 hrest

theorem allocBlocks_table {i : Nat} {r : (Bool × (Nat → UInt32) × Inode) × Vol}
    (h : (allocBlocks part alloc n i blocks ino).run v = .ok r)
    : r.1.2.2.sector 12 = ino.sector 12 := by
  induction n generalizing v i blocks ino with
  | zero =>
    rw [allocBlocks, Cmd.pure_run] at h
    rw [h]
  | succ n ih =>
    simp only [allocBlocks, Cmd.bind_run] at h
    obtain ⟨o, v1, -, h⟩ := h
    cases o with
    | none =>
      rw [Cmd.pure_run] at h
      rw [h]
    | some lba =>
      dsimp only at h
      split at h
      . next hi =>
        simp only [Cmd.bind_run] at h
        obtain ⟨_, _, -, _, _, -, h⟩ := h
        rw [ih h, Inode.sector_setSector_of_ne (by omega) (by omega)]
      . simp only [Cmd.bind_run] at h
        obtain ⟨_, _, -, h⟩ := h
        exact ih h

theorem readTable_run_of_isBlock (h12 : part.IsBlock (ino.sector 12))
    : ∃ blocks', (readTable blocks ino).run v = .ok (blocks', v) := by
  rw [readTable, Cmd.exec_bind (ideRead_block h12)]
  exact ⟨_, rfl⟩

theorem ideWrite_no_panic {lba : UInt32} (h : part.IsBlock lba) {buf : Mem}
    {r : Bool × (Nat → UInt32) × Inode}
    : (do ideWrite lba buf 1; pure r : VolM _).run v ≠ .error .panic := by
  obtain ⟨v', hrun, -⟩ := @ideWrite_block part v lba buf h
  rw [Cmd.exec_bind hrun]
  exact fun h => by contradiction

theorem Image.HasBlocks.collect_no_panic (halloc : Allocates part alloc)
    (ht : (v.image part).TailUsed part)
    (hown : Ownership part part.bitLen (v.image part).blockUsed ((v.image part).refs ino))
    (hhas : (v.image part).HasBlocks ino (n + 1)) (hused : hasUsed.toNat = n + 1) (hn : n < 140)
    : (collect part alloc hasUsed willUse ino).run v ≠ .error .panic := by
  have c12 : (12 : UInt32).toNat = 12 := rfl
  have hle : hasUsed ≤ 12 ↔ n < 12 := by
    rw [UInt32.le_iff_toNat_le, hused, c12]
    omega
  have htable : 12 ≤ n → ino.sector 12 ≠ 0 := fun h => hhas.table.mpr (by omega)
  have hblock : ino.sector 12 ≠ 0 → part.IsBlock (ino.sector 12) := hown.inArea 140
  have hfresh : ∀ k, FreshSectors ino (n + 1) k := by
    intro k j h1 _ h3
    by_contra h0
    rw [← (v.image part).ref_direct h3] at h0
    have := (hhas.block j (by omega)).mp h0
    omega
  unfold collect
  rw [hused, Nat.add_sub_cancel]
  dsimp only
  split
  . split
    . exact fun h => by contradiction
    . next h12 =>
      have hne := htable (by rw [hle] at h12; omega)
      obtain ⟨blocks', hread⟩ := @readTable_run_of_isBlock part ino v noBlocks (hblock hne)
      rw [Cmd.exec_assert_bind, if_pos hne, Cmd.exec_bind hread]
      exact fun h => by contradiction
  . split
    . rw [Cmd.exec_assert_bind]
      split
      . next h13 =>
        have hne : ino.sector n ≠ 0 := by
          by_cases hlt : n < 12
          . rw [← (v.image part).ref_direct hlt]
            exact (hhas.block n hn).mpr (by omega)
          . rw [show n = 12 by omega]
            exact htable (by omega)
        rw [Cmd.exec_assert_bind, if_pos hne]
        exact allocBlocks_no_panic halloc ht (hfresh _)
      . exact fun h => by cases h
    . split
      . next h12 =>
        rw [hle] at h12
        have hno : ino.sector 12 = 0 := by
          by_contra h0
          have := hhas.table.mp h0
          omega
        apply Cmd.bind_ne_error (halloc v ht).1
        intro o v1 hrun
        cases o with
        | none => exact fun h => by contradiction
        | some lba =>
          obtain ⟨hlba, ht1⟩ := (halloc v ht).2 lba v1 hrun
          dsimp only
          rw [Cmd.exec_assert_bind, if_pos hno]
          apply Cmd.bind_ne_error
            (allocBlocks_no_panic halloc ht1 (freshSectors_setTable.mpr (hfresh _)))
          rintro ⟨ok, blocks', ino'⟩ v2 -
          cases ok with
          | false => exact fun h => by contradiction
          | true => exact ideWrite_no_panic hlba
      . next h12 =>
        have hne := htable (by rw [hle] at h12; omega)
        obtain ⟨blocks', hread⟩ := @readTable_run_of_isBlock part ino v noBlocks (hblock hne)
        rw [Cmd.exec_assert_bind, if_pos hne, Cmd.exec_bind hread]
        apply Cmd.bind_ne_error (allocBlocks_no_panic halloc ht (hfresh _))
        rintro ⟨ok, blocks'', ino'⟩ v2 hrun
        have hsec := allocBlocks_table hrun
        dsimp only at hsec
        cases ok with
        | false => exact fun h => by contradiction
        | true =>
          dsimp only
          rw [hsec]
          exact ideWrite_no_panic (hblock hne)

end Assertions

section Accounting

structure FileBlocks (part : Partition) (a : Image) (v : Vol) (ino : Inode) : Prop where
  small : ino.iSize.toNat < 512 * 140
  present : ∀ j ≤ ino.iSize.toNat / 512, (v.image part).block ino j ≠ 0
  distinct : ∀ i ≤ ino.iSize.toNat / 512, ∀ j ≤ ino.iSize.toNat / 512,
    (v.image part).block ino i = (v.image part).block ino j → i = j
  absent : ∀ j < 140, ino.iSize.toNat / 512 < j → (v.image part).block ino j = 0
  table : ino.sector 12 ≠ 0 ↔ 12 ≤ ino.iSize.toNat / 512
  bits : ((Finset.range (4096 * part.sb.blockBitmapSects.toNat)).filter
      fun b => a.blockUsed b = false ∧ (v.image part).blockUsed b = true).card
    = ino.iSize.toNat / 512 + 1 + if 12 ≤ ino.iSize.toNat / 512 then 1 else 0
  assertions : ∀ alloc, Allocates part alloc → ∀ willUse,
    (fileWrite.collect part alloc (ino.iSize / 512 + 1) willUse ino).run v ≠ .error .panic

theorem FileOn.fileBlocks (hF : FileOn part s fdIdx addr ino)
    (hG : a.Grown part (s.vol.image part) ino)
    (hhas : (s.vol.image part).HasBlocks ino (ino.iSize.toNat / 512 + 1))
    : FileBlocks part a s.vol ino := by
  have hsmall := hF.shape.small
  have hblock : ∀ j < 140, ((s.vol.image part).block ino j ≠ 0 ↔ j ≤ ino.iSize.toNat / 512) := by
    intro j hj
    rw [← Image.ref_of_lt hj, hhas.block j hj]
    omega
  have htable : 12 < ino.iSize.toNat / 512 + 1 ↔ 12 ≤ ino.iSize.toNat / 512 := by omega
  constructor
  . exact hsmall
  . intro j hj
    exact (hblock j (by omega)).mpr hj
  . intro i hi j hj heq
    have hrefs : ∀ k < 140, (s.vol.image part).refs ino k = (s.vol.image part).block ino k := by
      intro k hk
      rw [Image.refs_of_lt (by omega), Image.ref_of_lt hk]
    apply hF.shape.own.inj
    . rw [hrefs i (by omega)]
      exact (hblock i (by omega)).mpr hi
    . rw [hrefs i (by omega), hrefs j (by omega)]
      exact heq
  . intro j hj hlt
    by_contra h0
    have := (hblock j hj).mp h0
    omega
  . rw [hhas.table, htable]
  . rw [hG.card_eq hF.shape.own hhas (by omega)]
    simp only [htable]
  . intro alloc halloc willUse
    apply hhas.collect_no_panic halloc hF.tail hF.shape.own _ (by omega)
    have c512 : (512 : UInt32).toNat = 512 := rfl
    have c1 : (1 : UInt32).toNat = 1 := rfl
    rw [UInt32.toNat_add, UInt32.toNat_div, c512, c1]
    omega

theorem fileOn_of_writeFiles {task : Nat} {parentDir : DirRef} {filename : List UInt8}
    {flag : UInt8} {fd : Int} {ws : List (Mem × UInt32)} {ks : List Int} {s0 s1 s2 : Fs}
    (hslot : getFreeSlotInGlobal s0 = some fdIdx)
    (hcreate : (fileCreate part task parentDir filename flag).run s0 = .ok (fd, s1)) (hfd : fd ≠ -1)
    (htail : (s1.vol.image part).TailUsed part)
    (hwrite : (writeFiles part fdIdx ws).run s1 = .ok (ks, s2))
    (hino : s2.fileInode? fdIdx = some ino)
    : (∃ addr, FileOn part s2 fdIdx addr ino)
        ∧ (s1.vol.image part).Grown part (s2.vol.image part) ino
        ∧ (ks = ws.map (fun w => (w.2.toNat : Int)) → ws ≠ [] →
            (s2.vol.image part).HasBlocks ino (ino.iSize.toNat / 512 + 1)) := by
  obtain ⟨addr, ino0, hF0, hG0⟩ := fileCreate_fileOn hslot hcreate hfd htail
  obtain ⟨ino2, hF, hG, hhas⟩ := hF0.writes hG0 hwrite
  have hsame : ino2 = ino := by
    rw [Fs.fileInode?, hF.entry, Option.bind_some, hF.inode] at hino
    exact Option.some.inj hino
  subst hsame
  refine ⟨⟨addr, hF⟩, hG, ?_⟩
  intro hks hne
  exact hhas hks (.inl hne)

/-- After writes that return their counts a new file has the blocks that its size needs. -/
theorem fileBlocks_of_writeFiles {task : Nat} {parentDir : DirRef} {filename : List UInt8}
    {flag : UInt8} {fd : Int} {ws : List (Mem × UInt32)} {s0 s1 s2 : Fs}
    (hslot : getFreeSlotInGlobal s0 = some fdIdx)
    (hcreate : (fileCreate part task parentDir filename flag).run s0 = .ok (fd, s1)) (hfd : fd ≠ -1)
    (htail : (s1.vol.image part).TailUsed part) (hne : ws ≠ [])
    (hwrite : (writeFiles part fdIdx ws).run s1 = .ok (ws.map fun w => (w.2.toNat : Int), s2))
    (hino : s2.fileInode? fdIdx = some ino) : FileBlocks part (s1.vol.image part) s2.vol ino := by
  obtain ⟨⟨addr, hF⟩, hG, hhas⟩ := fileOn_of_writeFiles hslot hcreate hfd htail hwrite hino
  exact hF.fileBlocks hG (hhas rfl hne)

theorem fileCreate_tailUsed_small
    : (((fileCreate smallPartition 0 .root [102] oRdwr).after smallFs).vol.image
        smallPartition).TailUsed
        smallPartition := by
  generalize hbits : ((fileCreate smallPartition 0 .root [102] oRdwr).after smallFs).vol.blockBits
      = bits
  have hfirst : ∀ i < 5, bits.bit (4387 + i) = true := by
    rw [← hbits]
    decide +kernel
  have hbytes : (List.range 475).all (fun i => bits (549 + i) == 0xff) = true := by
    rw [← hbits]
    decide +kernel
  intro b hb hb'
  have hb1 : 4387 ≤ b := hb
  have hb2 : b < 4096 * 2 := hb'
  by_cases hlt : b < 4392
  . have hbit := hfirst (b - 4387) (by omega)
    rw [show 4387 + (b - 4387) = b by omega, ← hbits] at hbit
    exact hbit
  . have hbyte := List.all_eq_true.mp hbytes (b / 8 - 549) (by rw [List.mem_range]; omega)
    rw [show 549 + (b / 8 - 549) = b / 8 by omega, beq_iff_eq, ← hbits] at hbyte
    simp only [Vol.image, Mem.bit, hbyte]
    exact bitmapScan.testBit_ff (by omega)

theorem exists_fiveBytes
    : ∃ fd s1 s2 ino,
        (fileCreate smallPartition 0 .root [102] oRdwr).run smallFs = .ok (fd, s1) ∧ fd ≠ -1
          ∧ (s1.vol.image smallPartition).TailUsed smallPartition
          ∧ (writeFiles smallPartition 3 fiveBytes).run s1 = .ok ([3, 2], s2)
          ∧ s2.fileInode? 3 = some ino ∧ ino.iSize = 5 := by
  have hret1 : (fileCreate smallPartition 0 .root [102] oRdwr).returns smallFs (· ≠ -1) = true := by
    decide +kernel
  obtain ⟨fd, hrun1, hfd⟩ := Cmd.run_of_returns hret1
  have hret2 : (writeFiles smallPartition 3 fiveBytes).returns
      ((fileCreate smallPartition 0 .root [102] oRdwr).after smallFs) (· = [3, 2]) = true := by
    decide +kernel
  obtain ⟨ks, hrun2, hks⟩ := Cmd.run_of_returns hret2
  rw [decide_eq_true_iff] at hfd hks
  subst hks
  have hsize : (((writeFiles smallPartition 3 fiveBytes).after
      ((fileCreate smallPartition 0 .root [102] oRdwr).after smallFs)).fileInode? 3).map (·.iSize)
        = some 5 := by
    decide +kernel
  obtain ⟨ino, hino, h5⟩ := Option.map_eq_some_iff.mp hsize
  exact ⟨fd, _, _, ino, hrun1, hfd, fileCreate_tailUsed_small, hrun2, hino, h5⟩

theorem getFreeSlot_smallFs : getFreeSlotInGlobal smallFs = some 3 := by
  decide +kernel

theorem fileBlocks_of_writeFiles_fiveBytes
    : ∃ fd s1 s2 ino,
        (fileCreate smallPartition 0 .root [102] oRdwr).run smallFs = .ok (fd, s1) ∧ fd ≠ -1
          ∧ (writeFiles smallPartition 3 fiveBytes).run s1 = .ok ([3, 2], s2)
          ∧ s2.fileInode? 3 = some ino
              ∧ FileBlocks smallPartition (s1.vol.image smallPartition) s2.vol ino := by
  obtain ⟨fd, s1, s2, ino, hcreate, hfd, htail, hwrite, hino, -⟩ := exists_fiveBytes
  refine ⟨fd, s1, s2, ino, hcreate, hfd, hwrite, hino, ?_⟩
  exact fileBlocks_of_writeFiles getFreeSlot_smallFs hcreate hfd htail (by decide) hwrite hino

end Accounting

end RogOS
