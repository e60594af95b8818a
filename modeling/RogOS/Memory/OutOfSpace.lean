import RogOS.Fs.Lemmas.Format
import RogOS.Memory.Impl.Paging

/-!
Allocating from a bitmap that may be full: `inode_bitmap_alloc`, `block_bitmap_alloc` and `palloc`.
-/

namespace RogOS

variable {σ : Type} {part : Partition} {v : Vol} {s : Paging} {bits : Mem} {btmp : Bitmap} {x : σ}

def bitmapScan.bytesRead (bits : Mem) : (n idxByte : Nat) → List Nat
  | 0, idxByte => [idxByte]
  | n + 1, idxByte => idxByte :: if bits idxByte == 0xff then bytesRead bits n (idxByte + 1) else []

/--
The allocation reports a full bitmap and leaves the state as it is; from any other one it takes a
clear bit. It reads no byte behind the bitmap. `mark` sets a bit of the bitmap, and `addr` is the
number or the address of what a bit stands for.
-/
structure AllocReports (alloc : Cmd Fault σ (Option UInt32)) (btmp : Bitmap) (mark : Nat → σ)
    (addr : Nat → UInt32) (x : σ) : Prop where
  full : ¬ btmp.HasClear → alloc.run x = .ok (none, x)
  free : btmp.HasClear → ∃ j < 8 * btmp.btmpBytesLen, btmp.bits.bit j = false
    ∧ alloc.run x = .ok (some (addr j), mark j)
  inside : ∀ i ∈ bitmapScan.bytesRead btmp.bits btmp.btmpBytesLen 0, i < btmp.btmpBytesLen

def InodeAllocReports (part : Partition) (v : Vol) : Prop :=
  AllocReports (inodeBitmapAlloc part) (v.bitmap part .inode)
    (fun j => { v with inodeBits := v.inodeBits.setBit j true }) UInt32.ofNat v

def BlockAllocReports (part : Partition) (v : Vol) : Prop :=
  AllocReports (blockBitmapAlloc part) (v.bitmap part .block)
    (fun j => { v with blockBits := v.blockBits.setBit j true }) (fun j =>
      part.sb.dataStartLba + UInt32.ofNat j) v

def PallocReports (pf : PoolFlags) (s : Paging) : Prop :=
  AllocReports (Paging.palloc pf) (s.pool pf).poolBitmap
    (fun j => s.setPool
      { s.pool pf with
        poolBitmap :=
          { (s.pool pf).poolBitmap with bits := (s.pool pf).poolBitmap.bits.setBit j true } } pf)
    (fun j => (s.pool pf).phyAddrStart + UInt32.ofNat j * 4096) s

section Scan

theorem bitmapScan.bytesRead_inside {n i : Nat} (h : ∃ j, i ≤ j ∧ j < i + n ∧ bits j ≠ 0xff)
    : ∀ k ∈ bytesRead bits n i, k < i + n := by
  induction n generalizing i with
  | zero =>
    obtain ⟨j, h1, h2, -⟩ := h
    omega
  | succ n ih =>
    intro k hk
    rw [bytesRead] at hk
    cases List.mem_cons.mp hk with
    | inl hk => omega
    | inr hk =>
      split at hk
      . next hi =>
        have hrest : ∃ j, i + 1 ≤ j ∧ j < i + 1 + n ∧ bits j ≠ 0xff := by
          obtain ⟨j, h1, h2, h3⟩ := h
          refine ⟨j, ?_, by omega, h3⟩
          by_contra hlt
          rw [show i = j by omega, beq_iff_eq] at hi
          exact h3 hi
        have := ih hrest k hk
        omega
      . contradiction

theorem bytesRead_inside_of_hasClear (h : btmp.HasClear)
    : ∀ i ∈ bitmapScan.bytesRead btmp.bits btmp.btmpBytesLen 0, i < btmp.btmpBytesLen := by
  obtain ⟨j, hj, hbit⟩ := h
  have hbyte : btmp.bits (j / 8) ≠ 0xff := by
    intro hff
    rw [Mem.bit, hff, bitmapScan.testBit_ff (Nat.mod_lt _ (by omega))] at hbit
    contradiction
  have hin := @bitmapScan.bytesRead_inside btmp.bits btmp.btmpBytesLen 0 ⟨j / 8, Nat.zero_le _, by
      omega, hbyte⟩
  rw [Nat.zero_add] at hin
  exact hin

end Scan

section Alloc

variable {alloc : Cmd Fault σ (Option UInt32)} {mark : Nat → σ} {addr : Nat → UInt32}

theorem allocReports_iff (hfull : ¬ btmp.HasClear → alloc.run x = .error .panic)
    (hfree : ∀ b, FirstClear btmp.bits btmp.btmpBytesLen b → (bitmapScan btmp 1).run x
      = .ok (some b, x) →
      alloc.run x = .ok (some (addr b), mark b))
    : AllocReports alloc btmp mark addr x ↔ btmp.HasClear := by
  constructor
  . intro h
    by_contra hcon
    have hrun := h.full hcon
    rw [hfull hcon] at hrun
    contradiction
  . intro h
    refine ⟨fun hcon => absurd h hcon, fun _ => ?_, bytesRead_inside_of_hasClear h⟩
    obtain ⟨b, hb, hscan⟩ := @bitmapScan_of_hasClear σ btmp x h
    exact ⟨b, hb.lt, hb.clear, hfree b hb hscan⟩

theorem inodeBitmapAlloc_of_full (h : ¬ (v.bitmap part .inode).HasClear)
    : (inodeBitmapAlloc part).run v = .error .panic := by
  rw [inodeBitmapAlloc, StateT.run_bind, bitAlloc_of_full h]
  rfl

end Alloc

/--
Each of the three allocations reports that it runs out if and only if it has not run out: a full
bitmap makes the assertion of `bitmap_scan` fail.
-/
theorem allocReports_iff_hasClear (part : Partition) (v : Vol) (pf : PoolFlags) (s : Paging)
    : (InodeAllocReports part v ↔ (v.bitmap part .inode).HasClear)
        ∧ (BlockAllocReports part v ↔ (v.bitmap part .block).HasClear)
        ∧ (PallocReports pf s ↔ (s.pool pf).poolBitmap.HasClear) := by
  refine ⟨?_, ?_, ?_⟩
  . apply allocReports_iff
    . exact inodeBitmapAlloc_of_full
    . intro b hb hscan
      rw [inodeBitmapAlloc, Cmd.exec_bind (bitAlloc_of_firstClear hb hscan)]
      rfl
  . apply allocReports_iff
    . intro h
      rw [blockBitmapAlloc, StateT.run_bind, bitAlloc_of_full h]
      rfl
    . intro b hb hscan
      rw [blockBitmapAlloc, Cmd.exec_bind (bitAlloc_of_firstClear hb hscan)]
      rfl
  . apply allocReports_iff
    . intro h
      rw [Paging.palloc, Cmd.exec_get_bind, StateT.run_bind, bitmapScan_of_full h]
      rfl
    . intro b hb hscan
      have hlt : b / 8 < (s.pool pf).poolBitmap.btmpBytesLen := by
        have := hb.lt
        omega
      have hset : (bitmapSet (s.pool pf).poolBitmap b true).run s
          = .ok ({ (s.pool pf).poolBitmap with bits := (s.pool pf).poolBitmap.bits.setBit b true },
              s) := by
        unfold bitmapSet
        rw [Cmd.exec_assert_bind, if_pos hlt]
        rfl
      rw [Paging.palloc, Cmd.exec_get_bind, Cmd.exec_bind hscan]
      dsimp only
      rw [Cmd.exec_bind hset]
      rfl

/-- With every bit set, `inode_bitmap_alloc` does not return -1. -/
theorem not_allocReports_full
    : ¬ ∀ (part : Partition) (v : Vol) (pf : PoolFlags) (s : Paging),
        InodeAllocReports part v ∧ BlockAllocReports part v ∧ PallocReports pf s := by
  intro h
  let v : Vol := ⟨Mem.zero, Mem.zero, fun _ => 0xff⟩
  let pool : Pool := ⟨⟨0, Mem.zero⟩, 0⟩
  let s : Paging := ⟨Mem.zero, 0, pool, pool, ⟨⟨0, Mem.zero⟩, 0⟩, ⟨0, 0, 0, 0⟩⟩
  have hfull : ¬ (v.bitmap smallPartition .inode).HasClear := by
    rintro ⟨j, -, hbit⟩
    rw [Mem.bit] at hbit
    rw [show (v.bitmap smallPartition .inode).bits (j / 8) = 0xff from rfl,
      bitmapScan.testBit_ff (Nat.mod_lt _ (by omega))] at hbit
    contradiction
  have hrun := (h smallPartition v .kernel s).1.full hfull
  rw [inodeBitmapAlloc_of_full hfull] at hrun
  contradiction

end RogOS
