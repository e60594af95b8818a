import RogOS.Fs.Impl.Format
import RogOS.Fs.Lemmas.Bitmap

/-!
The layout that `partition_format` chooses for a partition.
-/

namespace RogOS

namespace partitionFormat

theorem toNat_divRoundUp {x : UInt32} (hx : x.toNat + 4095 < 2 ^ 32)
    : (divRoundUp x 4096).toNat = (x.toNat + 4095) / 4096 := by
  have h : (4096 : UInt32).toNat = 4096 := rfl
  have h1 : (1 : UInt32).toNat = 1 := rfl
  simp only [divRoundUp, UInt32.toNat_div, UInt32.toNat_sub, UInt32.toNat_add, h, h1]
  omega

variable {startLba secCnt : UInt32}

theorem toNat_freeSects (h1 : 611 ≤ secCnt.toNat)
    : (freeSects secCnt).toNat = secCnt.toNat - 611 := by
  have h2 := secCnt.toNat_lt
  have h : (1 + 1 + divRoundUp 4096 4096 + divRoundUp (76 * 4096) 512 : UInt32) = 611 := by decide
  have h' : (611 : UInt32).toNat = 611 := rfl
  rw [freeSects, h, UInt32.toNat_sub, h']
  omega

theorem toNat_blockBitmapBitLen (h1 : 611 ≤ secCnt.toNat) (h2 : secCnt.toNat + 3484 < 2 ^ 32)
    : (blockBitmapBitLen secCnt).toNat
        =
      secCnt.toNat - 611 - (secCnt.toNat - 611 + 4095) / 4096 := by
  have h3 := toNat_freeSects h1
  have h4 := toNat_divRoundUp (show (freeSects secCnt).toNat + 4095 < 2 ^ 32 by omega)
  rw [blockBitmapBitLen, UInt32.toNat_sub, h4, h3]
  omega

theorem layout (h1 : 611 ≤ secCnt.toNat) (h2 : startLba.toNat + secCnt.toNat ≤ 163840)
    : Layout startLba secCnt (superBlock startLba secCnt) (blockBitmapBitLen secCnt).toNat := by
  have h3 := toNat_blockBitmapBitLen h1 (by omega)
  have h4 := toNat_divRoundUp (show (blockBitmapBitLen secCnt).toNat + 4095 < 2 ^ 32 by omega)
  have h5 : ((blockBitmapBitLen secCnt).toNat + 4095) / 4096 + (blockBitmapBitLen secCnt).toNat
      ≤ secCnt.toNat - 611 := by
    rw [h3]
    omega
  have hi : divRoundUp 4096 4096 = 1 := by decide
  have ht : divRoundUp (76 * 4096) 512 = 608 := by decide
  have c1 : (1 : UInt32).toNat = 1 := rfl
  have c2 : (2 : UInt32).toNat = 2 := rfl
  have c3 : (608 : UInt32).toNat = 608 := rfl
  constructor
  case onDisk => exact h2
  case rootNo => rfl
  case entrySize => rfl
  all_goals simp only [superBlock, UInt32.toNat_add, hi, ht, c1, c2, c3, h4]
  all_goals
    clear h3 h4
    omega

end partitionFormat

def Partition.formatted (startLba secCnt : UInt32) (h1 : 611 ≤ secCnt.toNat)
    (h2 : startLba.toNat + secCnt.toNat ≤ 163840) : Partition where
  startLba := startLba
  secCnt := secCnt
  sb := partitionFormat.superBlock startLba secCnt
  bitLen := (partitionFormat.blockBitmapBitLen secCnt).toNat
  layout := partitionFormat.layout h1 h2

def smallPartition : Partition where
  startLba := 63
  secCnt := 5000
  sb := {
    magic := 0x19590318
    secCnt := 5000
    inodeCnt := 4096
    partLbaBase := 63
    blockBitmapLba := 65
    blockBitmapSects := 2
    inodeBitmapLba := 67
    inodeBitmapSects := 1
    inodeTableLba := 68
    inodeTableSects := 608
    dataStartLba := 676
    rootInodeNo := 0
    dirEntrySize := 24
  }
  bitLen := 4387
  layout := by constructor <;> decide

theorem smallPartition_eq
    : smallPartition = Partition.formatted 63 5000 (by decide) (by decide) := by
  rfl

def pathA : CStr := ⟨[47, 97], by decide⟩

def pathAF : CStr := ⟨[47, 97, 47, 102], by decide⟩

def pathF : CStr := ⟨[47, 102], by decide⟩

def smallFs : Fs := (filesysInit smallPartition).after (Fs.init ⟨Mem.zero, Mem.zero, Mem.zero⟩)

theorem filesysInit_smallFs
    : (filesysInit smallPartition).run (Fs.init ⟨Mem.zero, Mem.zero, Mem.zero⟩)
        = .ok ((), smallFs) := by
  have hret : (filesysInit smallPartition).returns (Fs.init ⟨Mem.zero, Mem.zero, Mem.zero⟩)
      (fun _ => true) = true := by
    decide +kernel
  obtain ⟨_, hrun, -⟩ := Cmd.run_of_returns hret
  exact hrun

end RogOS
