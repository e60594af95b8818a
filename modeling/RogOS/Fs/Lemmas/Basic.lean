import RogOS.Fs.Impl.Dir

/-!
What the structures of the file system look like in memory: reading back the bytes of an inode or of
a directory entry.
-/

namespace RogOS

namespace Inode

variable {ino : Inode} {i j : Nat} {lba : UInt32}

theorem sector_setSector (hi : i < 13)
    : (ino.setSector i lba).sector j = if i = j then lba else ino.sector j := by
  simp only [sector, setSector, Vector.getElem?_setIfInBounds, hi]
  split <;> simp

@[simp]
theorem sector_setSector_self (hi : i < 13) : (ino.setSector i lba).sector i = lba := by
  simp [sector_setSector hi]

theorem sector_setSector_of_ne (hi : i < 13) (h : i ≠ j)
    : (ino.setSector i lba).sector j = ino.sector j := by
  simp [sector_setSector hi, h]

@[simp]
theorem setSector_iNo : (ino.setSector i lba).iNo = ino.iNo := rfl

@[simp]
theorem setSector_iSize : (ino.setSector i lba).iSize = ino.iSize := rfl

@[simp]
theorem grow_iNo {n : UInt32} : (ino.grow n).iNo = ino.iNo := rfl

@[simp]
theorem grow_iSize {n : UInt32} : (ino.grow n).iSize = ino.iSize + n := rfl

@[simp]
theorem grow_sector {n : UInt32} : (ino.grow n).sector i = ino.sector i := rfl

@[simp]
theorem pure_iNo : ino.pure.iNo = ino.iNo := rfl

@[simp]
theorem pure_iSize : ino.pure.iSize = ino.iSize := rfl

@[simp]
theorem pure_sector : ino.pure.sector i = ino.sector i := rfl

theorem word_encode {k : Nat} (hk : k < 13) : ino.encode.word (16 + 4 * k) = ino.sector k := by
  apply Mem.word_eq_of_bytes
  intro i hi
  have h1 : 16 + 4 * k + i < 68 := by omega
  have h2 : (16 + 4 * k + i - 16) / 4 = k := by omega
  have h3 : (16 + 4 * k + i - 16) % 4 = i := by omega
  simp only [encode, Mem.ofWords, h1, h2, h3]
  grind

theorem decode_encode_pure : decode ino.pure.encode = ino.pure := by
  have h0 : ino.pure.encode.word 0 = ino.iNo := by
    apply Mem.word_eq_of_bytes
    intro i hi
    interval_cases i <;> rfl
  have h4 : ino.pure.encode.word 4 = ino.iSize := by
    apply Mem.word_eq_of_bytes
    intro i hi
    interval_cases i <;> rfl
  have h8 : ino.pure.encode.word 8 = 0 := by
    apply Mem.word_eq_of_bytes
    intro i hi
    interval_cases i <;> rfl
  have h12 : ino.pure.encode.word 12 = 0 := by
    apply Mem.word_eq_of_bytes
    intro i hi
    interval_cases i <;> rfl
  unfold decode
  simp only [h0, h4, h8, h12]
  have hsec : Vector.ofFn (fun i : Fin 13 => ino.pure.encode.word (16 + 4 * i)) = ino.iSectors := by
    apply Vector.ext
    intro i hi
    rw [Vector.getElem_ofFn, word_encode hi, pure_sector]
    simp [sector, hi]
  rw [hsec]
  rfl

theorem decode_congr {m m' : Mem} (h : ∀ i < size, m i = m' i) : decode m = decode m' := by
  have hw : ∀ a, a + 4 ≤ 76 → m.word a = m'.word a := by
    intro a ha
    apply Mem.word_congr
    intro i hi
    exact h (a + i) (by simp only [size]; omega)
  have hsec : (fun i : Fin 13 => m.word (16 + 4 * i)) = fun i : Fin 13 => m'.word (16 + 4 * i) := by
    funext i
    exact hw _ (by omega)
  unfold decode
  rw [hw 0 (by omega), hw 4 (by omega), hw 8 (by omega), hw 12 (by omega), hsec]

theorem decode_zero : decode Mem.zero = inodeInit 0 := by
  rfl

end Inode

@[simp]
theorem inodeInit_sector {n : UInt32} {i : Nat} : (inodeInit n).sector i = 0 := by
  unfold Inode.sector inodeInit
  simp only [Vector.getElem?_replicate]
  split <;> rfl

@[simp]
theorem inodeInit_pure {n : UInt32} : (inodeInit n).pure = inodeInit n := rfl

namespace DirEntry

variable {e : DirEntry}

theorem decode_encode : decode e.encode = e := by
  have h16 : e.encode.word 16 = e.iNo := by
    apply Mem.word_eq_of_bytes
    intro i hi
    interval_cases i <;> rfl
  have h20 : e.encode.word 20 = e.fType := by
    apply Mem.word_eq_of_bytes
    intro i hi
    interval_cases i <;> rfl
  have hname : (Vector.ofFn fun i : Fin 16 => e.encode i) = e.filename := by
    apply Vector.ext
    intro i hi
    simp [encode]
  unfold decode
  rw [h16, h20, hname]

theorem decode_congr {m m' : Mem} (h : ∀ i < size, m i = m' i) : decode m = decode m' := by
  have hw : ∀ a, a + 4 ≤ 24 → m.word a = m'.word a := by
    intro a ha
    apply Mem.word_congr
    intro i hi
    exact h (a + i) (by simp only [size]; omega)
  have hname : (fun i : Fin 16 => m i) = fun i : Fin 16 => m' i := by
    funext i
    exact h i (by simp only [size]; omega)
  unfold decode
  rw [hw 16 (by omega), hw 20 (by omega), hname]

def blank : DirEntry := ⟨Vector.replicate 16 0, 0, 0⟩

theorem decode_zero : decode Mem.zero = blank := by
  rfl

theorem encode_decode {m : Mem} {i : Nat} (hi : i < 24) : (decode m).encode i = m i := by
  unfold encode decode
  split
  . next h => simp [h]
  . split
    . rw [Mem.ofWord_word (by omega)]
      congr 1
      omega
    . rw [Mem.ofWord_word (by omega)]
      congr 1
      omega

def HasName (e : DirEntry) (name : List UInt8) : Prop := e.encode.strEq 0 name = true

instance (e : DirEntry) (name : List UInt8) : Decidable (e.HasName name) :=
  inferInstanceAs (Decidable (_ = _))

variable {buf src : Mem} {j k : Nat}

theorem encode_23 (h : e.fType ≤ 2) : e.encode 23 = 0 := by
  have h' : e.fType.toNat ≤ 2 := h
  simp only [encode, Mem.ofWord]
  apply UInt8.toNat_inj.mp
  simp only [Nat.reduceLT, ↓reduceIte, Nat.reduceSub, UInt8.toNat_ofNat', UInt8.toNat_zero]
  omega

theorem at_apply {i : Nat} (hi : i < 24) : (DirEntry.at buf k).encode i = buf (k * 24 + i) := by
  rw [DirEntry.at, encode_decode hi]
  rfl

theorem nameEq_iff {name : List UInt8} (hname : 0 ∉ name) (h : (DirEntry.at buf k).fType ≤ 2)
    : nameEq buf k name = true ↔ (DirEntry.at buf k).HasName name := by
  have heq : buf.strEq (k * 24) name = (DirEntry.at buf k).encode.strEq 0 name := by
    apply @Mem.strEq_congr_nul _ _ _ _ _ 23 hname
    . rw [← @at_apply buf k 23 (by omega)]
      exact encode_23 h
    . intro i hi
      rw [Nat.zero_add, at_apply (by omega)]
  unfold nameEq HasName
  rw [size, heq]

theorem at_congr {buf' : Mem} (h : ∀ i < 24, buf (k * 24 + i) = buf' (j * 24 + i))
    : DirEntry.at buf k = DirEntry.at buf' j := by
  apply decode_congr
  intro i hi
  exact h i hi

theorem at_blit_self : DirEntry.at (buf.blit (k * 24) 24 src) k = decode src := by
  apply decode_congr
  intro i hi
  simp only [size] at hi
  rw [Mem.shift_apply, size, Mem.blit_of_mem (by omega) (by omega)]
  congr 1
  omega

theorem at_blit_of_ne (h : j ≠ k)
    : DirEntry.at (buf.blit (k * 24) 24 src) j = DirEntry.at buf j := by
  apply at_congr
  intro i hi
  rw [Mem.blit_of_not_mem (by omega)]

theorem at_clip (hk : k < 21) : DirEntry.at (buf.clip 512) k = DirEntry.at buf k := by
  apply at_congr
  intro i hi
  rw [Mem.clip_of_lt (by omega)]

theorem at_zero : DirEntry.at Mem.zero k = blank := by
  rw [DirEntry.at, ← decode_zero]
  rfl

@[simp]
theorem blank_fType : blank.fType = 0 := rfl

theorem not_hasName_blank {name : List UInt8} (hname : 0 ∉ name) (hne : name ≠ [])
    : ¬ blank.HasName name := by
  unfold HasName
  cases name with
  | nil => contradiction
  | cons c cs =>
    have h0 : blank.encode 0 = 0 := rfl
    simp only [Mem.strEq, h0, Bool.and_eq_true, beq_iff_eq, not_and]
    intro hc
    exact absurd (by simp [hc]) hname

section New

variable {name : List UInt8} {no : UInt32} {t : FileType}

@[simp]
theorem new_iNo : (DirEntry.new name no t).iNo = no := rfl

@[simp]
theorem new_fType : (DirEntry.new name no t).fType = t.code := rfl

theorem fType_code_le : t.code ≤ 2 := by
  cases t <;> decide

theorem new_hasName_iff (h : name.length < 16) (hn : 0 ∉ name) {name' : List UInt8}
    (hn' : 0 ∉ name')
    : (DirEntry.new name no t).HasName name' ↔ name' = name := by
  have hself : (DirEntry.new name no t).encode.strEq 0 name = true := by
    have hbyte : ∀ i < 16, (DirEntry.new name no t).encode i = name.getD i 0 := by
      intro i hi
      simp [encode, DirEntry.new, hi]
    rw [Mem.strEq_iff]
    constructor
    . intro i hi
      rw [Nat.zero_add, hbyte i (by omega)]
      simp [hi]
    . rw [Nat.zero_add, hbyte _ h]
      simp
  constructor
  . intro h'
    exact Mem.strEq_unique hn' hn h' hself
  . rintro rfl
    exact hself

end New

end DirEntry

end RogOS
