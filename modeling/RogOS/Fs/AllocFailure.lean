import RogOS.Fs.Lemmas.FileReturns
import RogOS.Fs.Lemmas.Syscall
import RogOS.Fs.Insertion
import RogOS.Fs.PathResolution

/-!
What `file_write` and `sys_mkdir` leave behind when an allocation fails.
-/

namespace RogOS

open Cmd

variable {part : Partition} {v v' : Vol} {ino ino' : Inode} {alloc : VolM (Option UInt32)}
  {b n i : Nat} {lba : UInt32}

section Alloc

def MayFail (real alloc : VolM (Option UInt32)) : Prop :=
  ∀ v, alloc.run v = .ok (none, v) ∨ alloc.run v = real.run v

def Vol.Took (v v' : Vol) : Prop := ∃ b, v.blockBits.bit b = false ∧ v'.blockBits.bit b = true

def Vol.HasBit (b : Nat) (v : Vol) : Prop := v.blockBits.bit b = true

theorem Vol.took_of_stable {α : Type} {x : VolM α} {r : α × Vol} {w : Vol} (h : v.Took w)
    (hx : ∀ b, Stable (Vol.HasBit b) x) (hr : x.run w = .ok r) : v.Took r.2 := by
  obtain ⟨b, h0, h1⟩ := h
  exact ⟨b, h0, hx b w r h1 hr⟩

theorem Vol.Took.ne (h : v.Took v') : v'.blockBits ≠ v.blockBits := by
  obtain ⟨b, h0, h1⟩ := h
  intro heq
  rw [heq, h0] at h1
  contradiction

structure FirstTaken (alloc : VolM (Option UInt32)) (v v' : Vol) : Prop where
  alloc : ∃ lba w, alloc.run v = .ok (some lba, w)
  took : v.Took v'

theorem MayFail.run_none_of {real : VolM (Option UInt32)} (h : MayFail real alloc)
    (hreal : Yields real (· ≠ none)) (hrun : alloc.run v = .ok (none, v')) : v' = v := by
  cases h v with
  | inl hfail =>
    rw [hfail] at hrun
    cases hrun
    rfl
  | inr hsame =>
    rw [hsame] at hrun
    exact absurd rfl (hreal v _ hrun)

theorem blockBitmapAlloc_yields : Yields (blockBitmapAlloc part) (· ≠ none) := by
  intro v r hr
  obtain ⟨b, -, rfl⟩ := blockBitmapAlloc_run.mp hr
  exact Option.some_ne_none _

theorem inodeBitmapAlloc_yields : Yields (inodeBitmapAlloc part) (· ≠ none) := by
  intro v r hr
  obtain ⟨n, -, rfl⟩ := inodeBitmapAlloc_run hr
  exact Option.some_ne_none _

theorem MayFail.run_none (h : MayFail (blockBitmapAlloc part) alloc)
    (hrun : alloc.run v = .ok (none, v')) : v' = v :=
  h.run_none_of blockBitmapAlloc_yields hrun

theorem MayFail.run_some (h : MayFail (blockBitmapAlloc part) alloc)
    (hrun : alloc.run v = .ok (some lba, v'))
    : ∃ b, FirstClear v.blockBits (part.sb.blockBitmapSects.toNat * 512) b ∧ lba = part.blockLba b
        ∧ v' = { v with blockBits := v.blockBits.setBit b true } := by
  cases h v with
  | inl hfail =>
    rw [hfail] at hrun
    cases hrun
  | inr hreal =>
    rw [hreal, blockBitmapAlloc_run] at hrun
    obtain ⟨b, hb, hr⟩ := hrun
    cases hr
    exact ⟨b, hb, rfl, rfl⟩

theorem MayFail.took (h : MayFail (blockBitmapAlloc part) alloc)
    (hrun : alloc.run v = .ok (some lba, v')) : v.Took v' := by
  obtain ⟨b, hb, -, hv⟩ := h.run_some hrun
  refine ⟨b, hb.clear, ?_⟩
  rw [hv, Mem.bit_setBit, if_pos rfl]

theorem MayFail.stable (h : MayFail (blockBitmapAlloc part) alloc)
    : Stable (Vol.HasBit b) alloc := by
  rintro v ⟨o, v'⟩ hb hrun
  cases o with
  | none =>
    rw [h.run_none hrun]
    exact hb
  | some lba =>
    obtain ⟨c, -, -, hv⟩ := h.run_some hrun
    rw [hv, Vol.HasBit, Mem.bit_setBit]
    split
    . rfl
    . exact hb

theorem ideRead_stable {P : Vol → Prop} : Stable P (ideRead lba n) :=
  stable_bind stable_assert fun _ => stable_bind stable_get fun _ => stable_pure

theorem ideWrite_stable {buf : Mem} : Stable (Vol.HasBit b) (ideWrite lba buf n) :=
  stable_bind stable_assert fun _ => stable_modify fun _ h => h

theorem bitmapSync_stable {t : BitmapType} : Stable (Vol.HasBit b) (bitmapSync part n t) :=
  stable_bind stable_get fun _ => ideWrite_stable

end Alloc

section Write

variable {blocks : Nat → UInt32} {buf : Mem} {hasUsed willUse : UInt32}

theorem allocBlocks_stable (h : MayFail (blockBitmapAlloc part) alloc)
    : Stable (Vol.HasBit b) (fileWrite.allocBlocks part alloc n i blocks ino) := by
  induction n generalizing i blocks ino with
  | zero => exact stable_pure
  | succ n ih =>
    unfold fileWrite.allocBlocks
    apply stable_bind h.stable
    intro o
    cases o with
    | none => exact stable_pure
    | some lba =>
      dsimp only
      split
      . refine stable_bind stable_assert fun _ => ?_
        exact stable_bind bitmapSync_stable fun _ => ih
      . exact stable_bind bitmapSync_stable fun _ => ih

theorem allocBlocks_failed (h : MayFail (blockBitmapAlloc part) alloc)
    {r : (Bool × (Nat → UInt32) × Inode) × Vol}
    (hrun : (fileWrite.allocBlocks part alloc n i blocks ino).run v = .ok r) (hr : r.1.1 = false)
    : (alloc.run v = .ok (none, v) ∧ r.1.2.2 = ino ∧ r.2 = v) ∨ FirstTaken alloc v r.2 := by
  cases n with
  | zero =>
    rw [fileWrite.allocBlocks, pure_run] at hrun
    rw [hrun] at hr
    contradiction
  | succ n =>
    unfold fileWrite.allocBlocks at hrun
    rw [bind_run] at hrun
    obtain ⟨o, v1, halloc, hrest⟩ := hrun
    cases o with
    | none =>
      rw [pure_run] at hrest
      have hv := h.run_none halloc
      rw [hv] at halloc hrest
      rw [hrest]
      exact .inl ⟨halloc, rfl, rfl⟩
    | some lba =>
      right
      refine ⟨⟨lba, v1, halloc⟩, Vol.took_of_stable (h.took halloc) (fun b => ?_) hrest⟩
      dsimp only
      split
      . refine stable_bind stable_assert fun _ => ?_
        exact stable_bind bitmapSync_stable fun _ => allocBlocks_stable h
      . exact stable_bind bitmapSync_stable fun _ => allocBlocks_stable h

theorem readTable_stable {P : Vol → Prop} : Stable P (fileWrite.readTable blocks ino) :=
  stable_bind ideRead_stable fun _ => stable_pure

def fillTable (part : Partition) (alloc : VolM (Option UInt32)) (n i : Nat) (blocks : Nat → UInt32)
    (ino : Inode) (lba : Inode → UInt32) : VolM (Bool × (Nat → UInt32) × Inode) := do
  match ← fileWrite.allocBlocks part alloc n i blocks ino with
  | (false, blocks, inode) => pure (false, blocks, inode)
  | (true, blocks, inode) =>
    ideWrite (lba inode) (fileWrite.tableOf blocks) 1
    pure (true, blocks, inode)

theorem fillTable_stable (h : MayFail (blockBitmapAlloc part) alloc) {lba : Inode → UInt32}
    : Stable (Vol.HasBit b) (fillTable part alloc n i blocks ino lba) := by
  refine stable_bind (allocBlocks_stable h) fun r => ?_
  obtain ⟨ok, blocks', ino'⟩ := r
  cases ok with
  | false => exact stable_pure
  | true => exact stable_bind ideWrite_stable fun _ => stable_pure

theorem fillTable_failed (h : MayFail (blockBitmapAlloc part) alloc) {lba : Inode → UInt32}
    {r : (Bool × (Nat → UInt32) × Inode) × Vol}
    (hrun : (fillTable part alloc n i blocks ino lba).run v = .ok r)
    (hr : r.1.1 = false)
    : (alloc.run v = .ok (none, v) ∧ r.1.2.2 = ino ∧ r.2 = v) ∨ FirstTaken alloc v r.2 := by
  rw [fillTable, bind_run] at hrun
  obtain ⟨⟨ok, blocks', ino'⟩, v1, hblocks, hrest⟩ := hrun
  cases ok with
  | false =>
    rw [pure_run] at hrest
    rw [hrest]
    exact allocBlocks_failed h hblocks rfl
  | true =>
    simp only [bind_run, pure_run] at hrest
    obtain ⟨_, _, -, hrest⟩ := hrest
    rw [hrest] at hr
    contradiction

theorem collect_stable (h : MayFail (blockBitmapAlloc part) alloc)
    : Stable (Vol.HasBit b) (fileWrite.collect part alloc hasUsed willUse ino) := by
  unfold fileWrite.collect
  dsimp only
  split
  . split
    . exact stable_pure
    . refine stable_bind stable_assert fun _ => ?_
      exact stable_bind readTable_stable fun _ => stable_pure
  . split
    . refine stable_bind stable_assert fun _ => ?_
      exact stable_bind stable_assert fun _ => allocBlocks_stable h
    . split
      . refine stable_bind h.stable fun o => ?_
        cases o with
        | none => exact stable_pure
        | some lba => exact stable_bind stable_assert fun _ => fillTable_stable h
      . refine stable_bind stable_assert fun _ => ?_
        exact stable_bind readTable_stable fun _ => fillTable_stable h

theorem collect_failed (h : MayFail (blockBitmapAlloc part) alloc)
    {r : (Bool × (Nat → UInt32) × Inode) × Vol}
    (hrun : (fileWrite.collect part alloc hasUsed willUse ino).run v = .ok r) (hr : r.1.1 = false)
    : (alloc.run v = .ok (none, v) ∧ r.1.2.2 = ino ∧ r.2 = v) ∨ FirstTaken alloc v r.2 := by
  unfold fileWrite.collect at hrun
  dsimp only at hrun
  split at hrun
  . split at hrun
    . rw [pure_run] at hrun
      rw [hrun] at hr
      contradiction
    . simp only [bind_run, pure_run] at hrun
      obtain ⟨_, _, -, _, _, -, hrest⟩ := hrun
      rw [hrest] at hr
      contradiction
  . split at hrun
    . simp only [bind_run, assert_run] at hrun
      obtain ⟨_, _, ⟨-, h1⟩, _, _, ⟨-, h2⟩, hblocks⟩ := hrun
      cases h1
      cases h2
      exact allocBlocks_failed h hblocks hr
    . split at hrun
      . rw [bind_run] at hrun
        obtain ⟨o, v1, halloc, hrest⟩ := hrun
        cases o with
        | none =>
          rw [pure_run] at hrest
          have hv := h.run_none halloc
          rw [hv] at halloc hrest
          rw [hrest]
          exact .inl ⟨halloc, rfl, rfl⟩
        | some lba =>
          right
          refine ⟨⟨lba, v1, halloc⟩, Vol.took_of_stable (h.took halloc) (fun b => ?_) hrest⟩
          exact stable_bind stable_assert fun _ => fillTable_stable h
      . rw [bind_run] at hrun
        obtain ⟨_, _, hassert, hrest⟩ := hrun
        obtain ⟨-, h1⟩ := assert_run.mp hassert
        cases h1
        rw [bind_run] at hrest
        obtain ⟨blocks, w, hread, hrest⟩ := hrest
        have hw : w = v := (readTable_addr hread).1
        rw [hw] at hrest
        exact fillTable_failed h hrest hr

theorem firstBlock_failed (h : MayFail (blockBitmapAlloc part) alloc) {r : (Bool × Inode) × Vol}
    (hrun : (fileWrite.firstBlock part alloc ino).run v = .ok r) (hr : r.1.1 = false)
    : alloc.run v = .ok (none, v) ∧ r.1.2 = ino ∧ r.2 = v := by
  unfold fileWrite.firstBlock at hrun
  split at hrun
  . rw [bind_run] at hrun
    obtain ⟨o, v1, halloc, hrest⟩ := hrun
    cases o with
    | none =>
      rw [pure_run] at hrest
      have hv := h.run_none halloc
      rw [hv] at halloc hrest
      rw [hrest]
      exact ⟨halloc, rfl, rfl⟩
    | some lba =>
      simp only [bind_run, pure_run] at hrest
      obtain ⟨_, _, -, _, _, -, hrest⟩ := hrest
      rw [hrest] at hr
      contradiction
  . rw [pure_run] at hrun
    rw [hrun] at hr
    contradiction

theorem firstBlock_done (h : MayFail (blockBitmapAlloc part) alloc) {r : (Bool × Inode) × Vol}
    (hrun : (fileWrite.firstBlock part alloc ino).run v = .ok r) (hr : r.1.1 = true)
    : (r.1.2 = ino ∧ r.2 = v) ∨ FirstTaken alloc v r.2 := by
  unfold fileWrite.firstBlock at hrun
  split at hrun
  . rw [bind_run] at hrun
    obtain ⟨o, v1, halloc, hrest⟩ := hrun
    cases o with
    | none =>
      rw [pure_run] at hrest
      rw [hrest] at hr
      contradiction
    | some lba =>
      right
      refine ⟨⟨lba, v1, halloc⟩, Vol.took_of_stable (h.took halloc) (fun b => ?_) hrest⟩
      refine stable_bind stable_assert fun _ => ?_
      exact stable_bind bitmapSync_stable fun _ => stable_pure
  . rw [pure_run] at hrun
    rw [hrun]
    exact .inl ⟨rfl, rfl⟩

structure Unwritten (v : Vol) (ino : Inode) (v' : Vol) (ino' : Inode) : Prop where
  size : ino'.iSize = ino.iSize
  sectors : ino'.iSectors = ino.iSectors
  table : ino.sector 12 ≠ 0 → ∀ i < 512, v'.disk ((ino.sector 12).toNat * 512 + i)
    = v.disk ((ino.sector 12).toNat * 512 + i)
  bitmap : v'.blockBits = v.blockBits

theorem Unwritten.refl : Unwritten v ino v ino := ⟨rfl, rfl, fun _ _ _ => rfl, rfl⟩

/--
A write that returns -1 leaves the file and the bitmap as they were if and only if it was too long,
or its first allocation failed: a block that was taken before is not given back.
-/
theorem unwritten_iff {fdPos pos : UInt32} {count : UInt32}
    (halloc : MayFail (blockBitmapAlloc part) alloc)
    (h : (fileWriteWith part alloc fdPos ino buf count).run v = .ok ((-1, pos, ino'), v'))
    : Unwritten v ino v' ino' ↔ 512 * 140 < ino.iSize + count ∨ alloc.run v = .ok (none, v) := by
  have hclean : alloc.run v = .ok (none, v) ∧ ino' = ino ∧ v' = v →
      (Unwritten v ino v' ino' ↔ 512 * 140 < ino.iSize + count ∨ alloc.run v = .ok (none, v)) := by
    rintro ⟨hnone, rfl, rfl⟩
    exact iff_of_true .refl (.inr hnone)
  unfold fileWriteWith at h
  split at h
  . next hlong =>
    rw [pure_run] at h
    cases h
    exact iff_of_true .refl (.inl hlong)
  . next hlong =>
    have htaken : FirstTaken alloc v v' →
        (Unwritten v ino v' ino' ↔ 512 * 140 < ino.iSize + count
          ∨ alloc.run v = .ok (none, v)) := by
      rintro ⟨⟨lba, w, hsome⟩, htook⟩
      refine iff_of_false (fun hun => htook.ne hun.bitmap) ?_
      rintro (hlong' | hnone)
      . exact hlong hlong'
      . rw [hsome] at hnone
        cases hnone
    rw [bind_run] at h
    obtain ⟨⟨ok, ino1⟩, v1, hfirst, hrest⟩ := h
    cases ok with
    | false =>
      rw [pure_run] at hrest
      cases hrest
      exact hclean (firstBlock_failed halloc hfirst rfl)
    | true =>
      dsimp only at hrest
      rw [bind_run] at hrest
      obtain ⟨_, _, hassert, hrest⟩ := hrest
      obtain ⟨-, h1⟩ := assert_run.mp hassert
      cases h1
      rw [bind_run] at hrest
      obtain ⟨⟨ok, blocks, ino2⟩, v2, hcollect, hrest⟩ := hrest
      cases ok with
      | true =>
        -- a write that gets as far as its data returns the number of bytes
        simp only [bind_run, pure_run] at hrest
        obtain ⟨c, _, -, _, _, -, hrest⟩ := hrest
        have hneg : (-1 : Int) = (c.bytesWritten.toNat : Int) := congrArg (fun r => r.1.1) hrest
        omega
      | false =>
        rw [pure_run] at hrest
        cases hrest
        cases firstBlock_done halloc hfirst rfl with
        | inl hsame =>
          obtain ⟨h1, h2⟩ := hsame
          dsimp only at h1 h2
          rw [h1, h2] at hcollect
          cases collect_failed halloc hcollect rfl with
          | inl hnone => exact hclean hnone
          | inr htook => exact htaken htook
        | inr htook =>
          exact htaken ⟨htook.alloc, Vol.took_of_stable htook.took (fun b =>
            collect_stable halloc) hcollect⟩

def failsWhen (p : Vol → Bool) (real : VolM (Option UInt32)) : VolM (Option UInt32) := do
  let v ← get
  if p v then pure none else real

theorem mayFail_failsWhen {p : Vol → Bool} {real : VolM (Option UInt32)}
    : MayFail real (failsWhen p real) := by
  intro v
  rw [failsWhen, exec_get_bind]
  split
  . exact .inl rfl
  . exact .inr rfl

theorem unwritten_newFile
    : ∃ pos ino' v',
        (fileWriteWith smallPartition (failsWhen (fun _ => true) (blockBitmapAlloc smallPartition))
        0 (inodeInit 1) Mem.zero 1100).run
          smallFs.vol = .ok ((-1, pos, ino'), v')
        ∧ Unwritten smallFs.vol (inodeInit 1) v' ino' := by
  have hret :
      (fileWriteWith smallPartition (failsWhen (fun _ => true) (blockBitmapAlloc smallPartition)) 0
      (inodeInit 1) Mem.zero 1100).returns
      smallFs.vol (fun r => r.1 == -1) = true := by
    decide +kernel
  obtain ⟨⟨n, pos, ino'⟩, hrun, hn⟩ := run_of_returns hret
  rw [show n = -1 from eq_of_beq hn] at hrun
  refine ⟨pos, ino', _, hrun, ?_⟩
  rw [unwritten_iff mayFail_failsWhen hrun]
  exact .inr rfl

/--
The third allocation fails: the file keeps two blocks behind its end, and a later write fails an
assertion.
-/
theorem not_unwritten_newFile
    : ∃ pos ino' v',
        (fileWriteWith smallPartition
        (failsWhen (fun v => v.blockBits.bit 2) (blockBitmapAlloc smallPartition)) 0 (inodeInit 1)
          Mem.zero 1100).run smallFs.vol = .ok ((-1, pos, ino'), v')
        ∧ ¬ Unwritten smallFs.vol (inodeInit 1) v' ino'
        ∧ (fileWrite smallPartition pos ino' Mem.zero 1100).returns v' (fun _ => true) = false := by
  have hret :
      (fileWriteWith smallPartition
      (failsWhen (fun v => v.blockBits.bit 2) (blockBitmapAlloc smallPartition)) 0 (inodeInit 1)
      Mem.zero 1100).returns smallFs.vol (fun r => r.1 == -1 && r.2.2.sector 0 != 0) = true := by
    decide +kernel
  have hagain : (do
      let r ← fileWriteWith smallPartition
          (failsWhen (fun v => v.blockBits.bit 2) (blockBitmapAlloc smallPartition)) 0
          (inodeInit 1) Mem.zero 1100
      fileWrite smallPartition r.2.1 r.2.2 Mem.zero 1100).returns smallFs.vol (fun _ => true)
        = false := by
    decide +kernel
  obtain ⟨⟨n, pos, ino'⟩, hrun, hn⟩ := run_of_returns hret
  generalize after _ _ = v' at hrun
  rw [Bool.and_eq_true, beq_iff_eq, bne_iff_ne] at hn
  rw [returns_bind hrun] at hagain
  rw [show n = -1 from hn.1] at hrun
  refine ⟨pos, ino', v', hrun, ?_, hagain⟩
  intro hun
  apply hn.2
  rw [Inode.sector, hun.sectors]
  rfl

end Write

section Mkdir

variable {ialloc balloc : VolM (Option UInt32)} {e : DirEntry} {dirname : List UInt8}
  {blocks : Nat → UInt32}

theorem setBit_inode_stable {val : Bool} : Stable (Vol.HasBit b) (setBit part .inode n val) := by
  intro v r hb hr
  obtain ⟨-, rfl⟩ := setBit_run.mp hr
  exact hb

theorem setBit_block_of_ne (hne : n ≠ b) : Stable (Vol.HasBit b) (setBit part .block n false) := by
  intro v r hb hr
  obtain ⟨-, rfl⟩ := setBit_run.mp hr
  rw [Vol.HasBit, Vol.setBits, Mem.bit_setBit, if_neg hne]
  exact hb

theorem inodeSync_stable : Stable (Vol.HasBit b) (inodeSync part n ino) := by
  refine stable_bind (stable_bind stable_assert fun _ => stable_pure) fun pos => ?_
  refine stable_bind stable_assert fun _ => stable_bind stable_assert fun _ => ?_
  exact stable_bind ideRead_stable fun _ => ideWrite_stable

theorem newBlock_stable (h : MayFail (blockBitmapAlloc part) balloc)
    : Stable (Vol.HasBit b) (syncDirEntry.newBlock part balloc e i blocks ino) := by
  intro v r hb hrun
  rw [syncDirEntry.newBlock, bind_run] at hrun
  obtain ⟨o, v1, halloc, hrest⟩ := hrun
  have hb1 : v1.HasBit b := h.stable v _ hb halloc
  cases o with
  | none =>
    rw [pure_run] at hrest
    rw [hrest]
    exact hb1
  | some lba =>
    obtain ⟨c, hc, hlba, -⟩ := h.run_some halloc
    have hne : part.blockIdx lba ≠ b := by
      have hlt := hc.lt
      have hle := part.sects_le
      rw [hlba, Partition.blockIdx_blockLba (by omega)]
      intro heq
      have hclear := hc.clear
      rw [heq, show v.blockBits.bit b = true from hb] at hclear
      contradiction
    refine stable_bind (P := Vol.HasBit b) stable_assert (fun _ => ?_) v1 r hb1 hrest
    refine stable_bind bitmapSync_stable fun _ => ?_
    split
    . exact stable_bind ideWrite_stable fun _ => stable_pure
    . split
      . refine stable_bind h.stable fun o => ?_
        cases o with
        | none =>
          dsimp only
          rw [Inode.sector_setSector_self (by omega)]
          exact stable_bind (setBit_block_of_ne hne) fun _ => stable_pure
        | some lba' =>
          refine stable_bind stable_assert fun _ => ?_
          refine stable_bind bitmapSync_stable fun _ => ?_
          exact stable_bind ideWrite_stable fun _ => stable_bind ideWrite_stable fun _ =>
            stable_pure
      . exact stable_bind ideWrite_stable fun _ => stable_bind ideWrite_stable fun _ => stable_pure

theorem fillSlot_stable : Stable (Vol.HasBit b) (syncDirEntry.fillSlot part e lba ino) := by
  refine stable_bind ideRead_stable fun buf => ?_
  split
  . exact stable_bind ideWrite_stable fun _ => stable_pure
  . exact stable_pure

theorem fillSlot_next_stable {next : Inode → VolM (Bool × Inode)}
    (h : ∀ ino, Stable (Vol.HasBit b) (next ino))
    : Stable (Vol.HasBit b) (do
        match ← syncDirEntry.fillSlot part e lba ino with
        | (true, inode) => pure (true, inode)
        | (false, inode) => next inode) := by
  refine stable_bind fillSlot_stable fun r => ?_
  obtain ⟨ok, ino'⟩ := r
  cases ok with
  | true => exact stable_pure
  | false => exact h ino'

theorem syncDirEntry.go_stable (h : MayFail (blockBitmapAlloc part) balloc)
    : Stable (Vol.HasBit b) (syncDirEntry.go part balloc e n i blocks ino) := by
  induction n generalizing i blocks ino with
  | zero => exact stable_pure
  | succ n ih =>
    unfold syncDirEntry.go
    split
    . refine stable_bind (newBlock_stable h) fun r => ?_
      obtain ⟨o, ino'⟩ := r
      cases o with
      | none => exact stable_pure
      | some blocks' => exact fillSlot_next_stable fun _ => ih
    . exact fillSlot_next_stable fun _ => ih

theorem syncDirEntryWith_stable (h : MayFail (blockBitmapAlloc part) balloc)
    : Stable (Vol.HasBit b) (syncDirEntryWith part balloc ino e) :=
  stable_bind stable_assert fun _ => syncDirEntry.go_stable h

theorem clear_taken {v v1 v2 : Vol} {n : UInt32} (h : MayFail (inodeBitmapAlloc part) ialloc)
    (halloc : ialloc.run v = .ok (some n, v1))
    (hclear : (setBit part .inode n.toNat false).run v1 = .ok ((), v2))
    : v2 = v := by
  have hreal : (inodeBitmapAlloc part).run v = .ok (some n, v1) := by
    cases h v with
    | inl hfail =>
      rw [hfail] at halloc
      cases halloc
    | inr hsame =>
      rw [← hsame]
      exact halloc
  obtain ⟨k, hk, hr⟩ := inodeBitmapAlloc_run hreal
  cases hr
  have hlt := hk.lt
  have hn : (UInt32.ofNat k).toNat = k := by
    rw [UInt32.toNat_ofNat']
    omega
  rw [hn, setBit_run] at hclear
  obtain ⟨-, heq⟩ := hclear
  have hbits : (v.inodeBits.setBit k true).setBit k false = v.inodeBits := by
    apply Mem.eq_of_bits
    intro j
    rw [Mem.bit_setBit, Mem.bit_setBit]
    split
    . next hj =>
      rw [← hj]
      exact hk.clear.symm
    . rfl
  rw [(Prod.mk.inj heq).2]
  exact congrArg (fun bits => { v with inodeBits := bits }) hbits

def FailsFirst (ialloc balloc : VolM (Option UInt32)) (v : Vol) : Prop :=
  ialloc.run v = .ok (none, v) ∨ ∃ n w, ialloc.run v = .ok (some n, w)
    ∧ balloc.run w = .ok (none, w)

theorem makeDir_failed (hi : MayFail (inodeBitmapAlloc part) ialloc)
    (hb : MayFail (blockBitmapAlloc part) balloc)
    {p p' : Inode} (h : (makeDir part ialloc balloc p dirname).run v = .ok ((false, p'), v'))
    : FailsFirst ialloc balloc v ∧ p' = p ∧ v' = v ∨ ¬ FailsFirst ialloc balloc v ∧ v.Took v' := by
  rw [makeDir, bind_run] at h
  obtain ⟨o, v1, hialloc, hrest⟩ := h
  cases o with
  | none =>
    have hv := hi.run_none_of inodeBitmapAlloc_yields hialloc
    rw [pure_run] at hrest
    cases hrest
    rw [hv] at hialloc ⊢
    exact .inl ⟨.inl hialloc, rfl, rfl⟩
  | some n =>
    dsimp only at hrest
    rw [bind_run] at hrest
    obtain ⟨o, v2, hballoc, hrest⟩ := hrest
    cases o with
    | none =>
      have hv := hb.run_none hballoc
      rw [hv] at hballoc hrest
      simp only [bind_run, pure_run] at hrest
      obtain ⟨_, v3, hclear, hr⟩ := hrest
      cases hr
      exact .inl ⟨.inr ⟨n, v1, hialloc, hballoc⟩, rfl, clear_taken hi hialloc hclear⟩
    | some lba =>
      right
      constructor
      . rintro (hnone | ⟨_, _, hsome, hnone⟩)
        . rw [hialloc] at hnone
          cases hnone
        . rw [hialloc] at hsome
          cases hsome
          rw [hballoc] at hnone
          cases hnone
      . obtain ⟨b, h0, h1⟩ := hb.took hballoc
        refine ⟨b, ?_, ?_⟩
        . have hbits : v1.blockBits = v.blockBits := by
            cases hi v with
            | inl hfail =>
              rw [hfail] at hialloc
              cases hialloc
            | inr hsame =>
              rw [hsame] at hialloc
              obtain ⟨k, -, hr⟩ := inodeBitmapAlloc_run hialloc
              cases hr
              rfl
          rw [← hbits]
          exact h0
        . refine stable_bind (P := Vol.HasBit b) stable_assert (fun _ => ?_) v2 _ h1 hrest
          refine stable_bind bitmapSync_stable fun _ => stable_bind ideWrite_stable fun _ => ?_
          refine stable_bind (stable_bind stable_assert fun _ => stable_pure) fun e => ?_
          refine stable_bind (syncDirEntryWith_stable hb) fun r => ?_
          obtain ⟨ok, ino'⟩ := r
          cases ok with
          | false => exact stable_bind setBit_inode_stable fun _ => stable_pure
          | true =>
            refine stable_bind inodeSync_stable fun _ => stable_bind inodeSync_stable fun _ => ?_
            exact stable_bind bitmapSync_stable fun _ => stable_pure

structure Undone (part : Partition) (s : Fs) (dir : Option UInt32) (s' : Fs) : Prop where
  inodeBits : s'.vol.inodeBits = s.vol.inodeBits
  blockBits : s'.vol.blockBits = s.vol.blockBits
  onDisk : ∀ t, ∀ i < (s.vol.bitmap part t).btmpBytesLen,
    s'.vol.disk ((part.bitmapLba t).toNat * 512 + i)
      = s.vol.disk ((part.bitmapLba t).toNat * 512 + i)
  parent : s'.dirView part dir = s.dirView part dir
  entries : ∀ i < 140, ∀ k < 21,
    (s'.vol.image part).dirent (s'.dirView part dir) i k
      = (s.vol.image part).dirent (s.dirView part dir) i k

theorem Undone.refl {s : Fs} {dir : Option UInt32} : Undone part s dir s :=
  ⟨rfl, rfl, fun _ _ _ => rfl, rfl, fun _ _ _ _ => rfl⟩

theorem Fs.Searchable.dirSet_self {s : Fs} {dir : Option UInt32} {p : Inode} (hs : s.Searchable)
    (hp : (s.atDir part dir).2.inode? (s.dirAddr part dir) = some p)
    : s.dirSet part dir p s.vol = (s.atDir part dir).2 := by
  have hinodes : Assoc.adjust (s.atDir part dir).2.openInodes (s.dirAddr part dir) (fun _ => p)
      = (s.atDir part dir).2.openInodes :=
    hs.atDir.addrs.adjust_eq_self hp rfl
  rw [← @Fs.atDir_vol part s dir]
  exact congrArg (fun l => { (s.atDir part dir).2 with openInodes := l }) hinodes

def Found.Refused (f : Found) (path : CStr) : Prop :=
  f.no ≠ notFound ∨ pathDepth path.chars ≠ pathDepth (joinPath f.searched)

/--
A `sys_mkdir` that returns -1 has undone what it did if and only if it did not get as far as the
allocations, or the allocation of the inode failed, or the first allocation of a block: the block of
the new directory is not given back.
-/
theorem undone_iff {s s' : Fs} {junk : UInt32} {path : CStr} (hs : s.Searchable)
    (hi : MayFail (inodeBitmapAlloc part) ialloc) (hb : MayFail (blockBitmapAlloc part) balloc)
    (h : (sysMkdirWith part ialloc balloc junk path).run s = .ok (-1, s'))
    : Undone part s (s.search part junk path.chars).dir s'
        ↔
      (s.search part junk path.chars).Refused path ∨ FailsFirst ialloc balloc s.vol := by
  have htried := sysMkdirWith_run hs h
  generalize s.search part junk path.chars = f at htried ⊢
  generalize hr : ((-1 : Int), s') = r at htried
  cases htried with
  | quit hrefused =>
    cases hr
    exact iff_of_true .refl (.inl hrefused)
  | @tried p p' ok v s1 dirname hmissing hdepth hshort hname hparent hmake hclose =>
    have hrefused : ¬ f.Refused path := by
      rintro (hfound | hne)
      . exact hfound hmissing
      . exact hne hdepth
    cases ok with
    | true =>
      have hneg : (-1 : Int) = 0 := (Prod.mk.inj hr).1
      contradiction
    | false =>
      rw [(Prod.mk.inj hr).2, or_iff_right hrefused]
      obtain ⟨hfirst, rfl, rfl⟩ | ⟨hfirst, htook⟩ := makeDir_failed hi hb hmake
      . rw [hs.dirSet_self hparent] at hclose
        have hs1 : s1 = s := hs.dirClose_atDir hclose
        rw [hs1]
        exact iff_of_true .refl hfirst
      . refine iff_of_false (fun hun => htook.ne ?_) hfirst
        rw [← hun.blockBits, dirClosed_vol hclose]
        rfl

theorem undone_pathA
    : ∃ s', (sysMkdirWith smallPartition (inodeBitmapAlloc smallPartition)
          (failsWhen (fun _ => true) (blockBitmapAlloc smallPartition)) 0 pathA).run smallFs
            = .ok (-1, s')
        ∧ Undone smallPartition smallFs (smallFs.search smallPartition 0 pathA.chars).dir s' := by
  have hret : (sysMkdirWith smallPartition (inodeBitmapAlloc smallPartition)
      (failsWhen (fun _ => true) (blockBitmapAlloc smallPartition)) 0 pathA).returns smallFs
        (· == -1) = true := by
    decide +kernel
  obtain ⟨n, hrun, hn⟩ := run_of_returns hret
  rw [show n = -1 from eq_of_beq hn] at hrun
  refine ⟨_, hrun, ?_⟩
  rw [undone_iff searchable_smallFs (fun _ => .inr rfl) mayFail_failsWhen hrun]
  exact .inr (.inr ⟨_, _, rfl, rfl⟩)

def packedFs : Fs :=
  { smallFs.updInode smallFs.rootDir fun _ => packedInode 1 false with
    vol := { packedVol with inodeBits := fun i => if i = 0 then 1 else 0 } }

/-- The second allocation of a block fails, the one for the parent directory. -/
theorem not_undone_packedFs
    : packedFs.Searchable
        ∧ ∃ s', (sysMkdirWith smallPartition (inodeBitmapAlloc smallPartition)
            (failsWhen (fun v => v.blockBits.bit 14) (blockBitmapAlloc smallPartition)) 0 pathA).run
              packedFs = .ok (-1, s')
          ∧ ¬ Undone smallPartition packedFs (packedFs.search smallPartition 0 pathA.chars).dir
              s' := by
  refine ⟨Fs.searchable_of_all (by decide +kernel), ?_⟩
  have hret : (do
      let n ← sysMkdirWith smallPartition (inodeBitmapAlloc smallPartition)
        (failsWhen (fun v => v.blockBits.bit 14) (blockBitmapAlloc smallPartition)) 0 pathA
      let s ← get
      pure (n == -1 && s.vol.blockBits.bit 14) : FsM Bool).returns packedFs id = true := by
    decide +kernel
  obtain ⟨c, hrun, hc⟩ := run_of_returns hret
  simp only [bind_run, get_run, pure_run] at hrun
  obtain ⟨n, s', hmkdir, _, _, hget, hpure⟩ := hrun
  cases hget
  rw [show c = _ from (Prod.mk.inj hpure).1, id, Bool.and_eq_true, beq_iff_eq] at hc
  rw [hc.1] at hmkdir
  refine ⟨s', hmkdir, ?_⟩
  intro hun
  have hbit := hc.2
  rw [hun.blockBits] at hbit
  revert hbit
  decide +kernel

end Mkdir

end RogOS
