import RogOS.Lib.CStr
import RogOS.Lib.Numeral
import RogOS.Print.Impl.Stdio
import RogOS.Print.Screen
import RogOS.Shell.Lemmas.CString

/-!
`itoa` and `put_int` print the same numerals.
-/

namespace RogOS

section Itoa

open Ptr

variable {m : Mem} {a calls : Nat} {v : UInt32} {base : UInt8} {s z : List UInt8}

theorem itoa_digit {d : UInt32} (hd : d.toNat < 36)
    : (if d < 10 then d + 48 else d - 10 + 65).toUInt8 = digitChar d.toNat := by
  apply UInt8.toNat_inj.mp
  rw [toNat_digitChar hd, UInt32.toNat_toUInt8]
  have hlt : d < 10 ↔ d.toNat < 10 := UInt32.lt_iff_toNat_lt
  split
  . next h =>
    rw [if_pos (hlt.mp h), UInt32.toNat_add, show (48 : UInt32).toNat = 48 from rfl]
    omega
  . next h =>
    have hle : 10 ≤ d.toNat := Nat.le_of_not_lt (hlt.not.mp h)
    rw [if_neg (by omega), UInt32.toNat_add,
      UInt32.toNat_sub_of_le d 10 (UInt32.le_iff_toNat_le.mpr hle),
      show (10 : UInt32).toNat = 10 from rfl, show (65 : UInt32).toNat = 65 from rfl]
    omega

theorem itoa_run (hb : 1 < base.toNat) (hmax : base.toNat ≤ 36) (hz : z.length ≤ 1)
    (hcalls : (numeral base.toNat v.toNat).length ≤ calls)
    : (itoa calls v (a + s.length) base).run (m.puts a (s ++ z))
        = .ok (a + (s ++ numeral base.toNat v.toNat).length,
            m.puts a (s ++ numeral base.toNat v.toNat)) := by
  induction calls generalizing v with
  | zero => exact absurd (List.length_eq_zero_iff.mp (Nat.le_zero.mp hcalls)) (numeral_ne_nil hb)
  | succ calls ih =>
    have hbase : base ≠ 0 := by
      rintro rfl
      contradiction
    have hmod : (v % base.toUInt32).toNat = v.toNat % base.toNat := UInt32.toNat_mod ..
    have hdiv : (v / base.toUInt32).toNat = v.toNat / base.toNat := UInt32.toNat_div ..
    have hdigit := @itoa_digit (v % base.toUInt32) (by
      rw [hmod]
      exact Nat.lt_of_lt_of_le (Nat.mod_lt _ (by omega)) hmax)
    rw [itoa, Cmd.exec_assert_bind, if_pos hbase]
    dsimp only
    rw [hdigit, hmod]
    have hq : v / base.toUInt32 ≠ 0 ↔ base.toNat ≤ v.toNat := by
      rw [Ne, ← UInt32.toNat_inj, hdiv, UInt32.toNat_zero, Nat.div_eq_zero_iff]
      omega
    split
    . next h =>
      have hnum := numeral_of_le hb (hq.mp h)
      have hlen : (s ++ numeral base.toNat v.toNat).length
          = (s ++ numeral base.toNat (v.toNat / base.toNat)).length + 1 := by
        rw [hnum, ← List.append_assoc]
        exact List.length_append
      rw [hnum, List.length_append, List.length_singleton, ← hdiv] at hcalls
      have hsnoc :=
        @Mem.puts_snoc m a (digitChar (v.toNat % base.toNat))
          (s ++ numeral base.toNat (v.toNat / base.toNat)) []
        (by decide)
      rw [List.append_nil, List.append_assoc, ← hnum] at hsnoc
      rw [Cmd.exec_bind (ih (Nat.le_of_succ_le_succ hcalls)), hdiv, store_bind, hsnoc, hlen]
      rfl
    . next h =>
      have hlt : v.toNat < base.toNat := Nat.lt_of_not_le (hq.not.mp h)
      rw [Cmd.exec_pure_bind, store_bind, Mem.puts_snoc hz, numeral_of_lt hlt, Nat.mod_eq_of_lt hlt,
        List.length_append, List.length_singleton]
      rfl

end Itoa

section PutInt

open Vga
open Mem (SameOutside)

variable {v : Vga} {m : Mem} {b i k ecx fuel : Nat} {eax edx edi num : UInt32} {c : UInt8}
  {s : List UInt8}

theorem putChar_same : SameOutside v.mem (v.putChar c).mem videoBase (videoBase + 65537) := by
  have hcr : ∀ (w : Vga) (bx : UInt16), SameOutside w.mem (w.isCarriageReturn bx).mem videoBase
      (videoBase + 65537) := by
    intro w bx
    unfold isCarriageReturn
    dsimp only
    split
    . exact .refl
    . exact rollScreen_same.mono (Nat.le_refl _) (by omega)
  have hother : ∀ (w : Vga) (bx : UInt16), SameOutside w.mem (w.putOther bx c).mem videoBase
      (videoBase + 65537) := by
    intro w bx
    have hbytes : SameOutside w.mem ((w.movByte (bx <<< 1) c).movByte (bx <<< 1 + 1) 0x07).mem
        videoBase (videoBase + 65537) := by
      have h0 := (bx <<< 1).toNat_lt
      have h1 := (bx <<< 1 + 1).toNat_lt
      intro a ha
      unfold movByte
      dsimp only
      rw [Function.update_of_ne (by omega), Function.update_of_ne (by omega)]
    unfold putOther
    dsimp only
    split
    . exact hbytes
    . exact hbytes.trans (hcr _ _)
  have hback : ∀ (w : Vga) (bx : UInt16), SameOutside w.mem (w.isBackspace bx).mem videoBase
      (videoBase + 65537) := by
    intro w bx
    unfold isBackspace
    split
    . exact .refl
    . have hlt := ((bx - 1) <<< 1).toNat_lt
      intro a ha
      dsimp only
      rw [setCursor_mem]
      apply Mem.setHalf_of_not_mem
      omega
  rw [putChar_eq rfl rfl]
  split
  . exact hcr _ _
  . split
    . exact hcr _ _
    . split
      . exact hback _ _
      . exact hother _ _

theorem putInt_digit (hmod : edx = eax &&& 0x0000000f)
    : (if edx.toInt32 > 9 then edx - 10 + 65 else edx + 48).toUInt8
        = digitChar (eax.toNat % 16) := by
  have hnat : edx.toNat = eax.toNat % 16 := by
    rw [hmod, UInt32.toNat_and]
    exact Nat.and_two_pow_sub_one_eq_mod eax.toNat 4
  have hlt : edx.toNat < 16 := by
    rw [hnat]
    exact Nat.mod_lt _ (by decide)
  have hall : ∀ d < 16, (if (UInt32.ofNat d).toInt32 > 9 then UInt32.ofNat d - 10 + 65
      else UInt32.ofNat d + 48).toUInt8
      = digitChar d := by
    decide
  have hd := hall edx.toNat hlt
  rwa [UInt32.ofNat_toNat, hnat] at hd

theorem putInt_digits (hecx : ecx ≤ 8) (hedi : edi + 1 = UInt32.ofNat ecx)
    : ∃ edi', edi' + 1 = 0 ∧ putInt.digits b ecx eax eax edi m
        = (m.puts b (lastDigits 16 ecx eax.toNat), edi') := by
  induction ecx generalizing eax edi m with
  | zero =>
    refine ⟨edi, hedi, ?_⟩
    rw [putInt.digits, lastDigits, Mem.puts_nil]
  | succ ecx ih =>
    have hedi' : edi = UInt32.ofNat ecx := by
      rw [← UInt32.add_sub_cancel edi 1, hedi, UInt32.ofNat_add]
      exact UInt32.add_sub_cancel _ _
    have hnat : edi.toNat = ecx := by
      rw [hedi', UInt32.toNat_ofNat']
      omega
    have hshr : (eax >>> 4).toNat = eax.toNat / 16 := by
      rw [UInt32.toNat_shiftRight, show (4 : UInt32).toNat % 32 = 4 from rfl,
        Nat.shiftRight_eq_div_pow]
    obtain ⟨edi', hend, hrest⟩ := @ih (Function.update m (b + ecx) (digitChar (eax.toNat % 16)))
      (eax >>> 4) (edi - 1) (by omega)
      (by rw [UInt32.sub_add_cancel, hedi'])
    refine ⟨edi', hend, ?_⟩
    rw [putInt.digits]
    have hlen : b + ecx = b + (lastDigits 16 ecx (eax.toNat / 16)).length := by
      rw [length_lastDigits]
    rw [putInt_digit rfl, hnat, hrest, hshr, lastDigits, hlen, Mem.puts_update]

theorem skipPrefix_zeros (h : ∀ j < k, m (b + (i + j)) = 48) (hk : i + k ≤ 8)
    : putInt.skipPrefix b m (fuel + k) (UInt32.ofNat i)
        = putInt.skipPrefix b m fuel (UInt32.ofNat (i + k)) := by
  induction k generalizing i with
  | zero => rfl
  | succ k ih =>
    have hi : (UInt32.ofNat i).toNat = i := by
      rw [UInt32.toNat_ofNat']
      omega
    have hne : UInt32.ofNat i ≠ 8 := by
      rw [Ne, ← UInt32.toNat_inj, hi, show (8 : UInt32).toNat = 8 from rfl]
      omega
    have hnext : UInt32.ofNat i + 1 = UInt32.ofNat (i + 1) := (UInt32.ofNat_add i 1).symm
    have hrest :=
      @ih (i + 1) (fun j hj => by
        rw [Nat.add_assoc i 1 j, Nat.add_comm 1 j]; exact h (j + 1) (by omega)) (by omega)
    have h0 := h 0 (by omega)
    rw [Nat.add_zero] at h0
    rw [← Nat.add_assoc, putInt.skipPrefix, if_neg hne]
    rw [hi, if_pos h0, hnext, hrest, Nat.add_assoc, Nat.add_comm 1 k]

theorem putEachNum_eq (h : ∀ j (hj : j < s.length), v.mem (b + (i + 1 + j)) = s[j])
    (hi : i + s.length = 7 ∨ s = [] ∧ i = 8) (hb : b + 8 ≤ videoBase ∨ videoBase + 65537 ≤ b)
    (hfuel : s.length < fuel)
    : putInt.putEachNum b fuel c (UInt32.ofNat i) v = some ((c :: s).foldl putChar v) := by
  induction s generalizing i c v fuel with
  | nil =>
    cases fuel with
    | zero => omega
    | succ fuel =>
      have hend : ∀ i, i = 7 ∨ i = 8 → ¬(UInt32.ofNat i + 1).toInt32 < 8 := by
        rintro i (rfl | rfl) <;> decide
      have hi' : i = 7 ∨ i = 8 := hi.imp id And.right
      rw [putInt.putEachNum, if_neg (hend i hi')]
      rfl
  | cons d s ih =>
    cases fuel with
    | zero => omega
    | succ fuel =>
      have hi : i + s.length = 6 := by
        cases hi with
        | inl hi =>
          rw [List.length_cons] at hi
          omega
        | inr hi => exact absurd hi.1 (List.cons_ne_nil _ _)
      have hmore : ∀ i ≤ 6, (UInt32.ofNat i + 1).toInt32 < 8 := by decide
      have hnext : UInt32.ofNat i + 1 = UInt32.ofNat (i + 1) := (UInt32.ofNat_add i 1).symm
      have hnat : (UInt32.ofNat (i + 1)).toNat = i + 1 := by
        rw [UInt32.toNat_ofNat']
        omega
      have hsame : ∀ j ≤ s.length, (v.putChar c).mem (b + (i + 1 + j))
          = v.mem (b + (i + 1 + j)) := by
        intro j hj
        apply putChar_same
        omega
      have hd := h 0 (Nat.succ_pos _)
      rw [← hsame 0 (Nat.zero_le _)] at hd
      rw [List.length_cons] at hfuel
      rw [putInt.putEachNum, if_pos (hmore i (by omega)), hnext, hnat, List.foldl_cons]
      rw [show (v.putChar c).mem (b + (i + 1)) = d from hd]
      refine ih ?_ (.inl (by omega)) (Nat.lt_of_succ_lt_succ hfuel)
      intro j hj
      have hj' := h (j + 1) (Nat.succ_lt_succ hj)
      rw [← hsame (j + 1) hj] at hj'
      rw [show i + 1 + 1 + j = i + 1 + (j + 1) by omega]
      exact hj'

theorem putInt_eq (hb : b + 8 ≤ videoBase ∨ videoBase + 65537 ≤ b)
    : v.putInt b num = some ((numeral 16 num.toNat).foldl putChar { v with
        mem := v.mem.puts b (lastDigits 16 8 num.toNat) }) := by
  obtain ⟨edi, hedi, hdigits⟩ := @putInt_digits v.mem b 8 num 7 (Nat.le_refl _) rfl
  unfold putInt
  rw [hdigits]
  dsimp only
  rw [hedi]
  generalize hm : v.mem.puts b (lastDigits 16 8 num.toNat) = m
  have hlen : (lastDigits 16 8 num.toNat).length = 8 := length_lastDigits
  have hget : ∀ j (hj : j < 8), m (b + j) = (lastDigits 16 8 num.toNat)[j] := by
    intro j hj
    rw [← hm]
    exact Mem.puts_get (by omega)
  by_cases h0 : num.toNat = 0
  . have hzeros : ∀ j < 8, m (b + (0 + j)) = 48 := by
      intro j hj
      rw [Nat.zero_add, hget j hj]
      simp only [h0, lastDigits_zero, List.getElem_replicate]
    have hskip := @skipPrefix_zeros m b 0 8 1 hzeros (by decide)
    rw [show putInt.skipPrefix b m 9 0 = some (48, 8) from hskip]
    rw [h0]
    exact putEachNum_eq (fun j hj => absurd hj (Nat.not_lt_zero j)) (.inr ⟨rfl, rfl⟩) hb (by decide)
  . obtain ⟨heq, hle⟩ := lastDigits_eq (b := 16) (k := 8) (by decide) h0 num.toNat_lt
    have hhead := head?_numeral (b := 16) (by decide) (by decide) h0
    obtain ⟨c, s, hs⟩ := List.exists_cons_of_ne_nil (@numeral_ne_nil 16 num.toNat (by decide))
    rw [hs] at heq hle hhead
    rw [hs]
    rw [List.length_cons] at heq hle
    generalize hk : 8 - (s.length + 1) = k at heq
    have hzeros : ∀ j < k, m (b + (0 + j)) = 48 := by
      intro j hj
      rw [Nat.zero_add, hget j (by omega)]
      simp only [heq]
      rw [List.getElem_append_left (by rw [List.length_replicate]; exact hj),
        List.getElem_replicate]
    have hrest : ∀ j (hj : j < (c :: s).length), m (b + (k + j)) = (c :: s)[j] := by
      intro j hj
      rw [List.length_cons] at hj
      rw [hget (k + j) (by omega)]
      simp only [heq]
      rw [List.getElem_append_right (by rw [List.length_replicate]; omega)]
      simp only [List.length_replicate, Nat.add_sub_cancel_left]
    have hskip := @skipPrefix_zeros m b 0 k (9 - k) hzeros (by omega)
    have hfirst : putInt.skipPrefix b m (9 - k) (UInt32.ofNat (0 + k))
        = some (c, UInt32.ofNat k) := by
      have hnat : (UInt32.ofNat k).toNat = k := by
        rw [UInt32.toNat_ofNat']
        omega
      have hne : UInt32.ofNat k ≠ 8 := by
        rw [Ne, ← UInt32.toNat_inj, hnat, show (8 : UInt32).toNat = 8 from rfl]
        omega
      have hc := hrest 0 (Nat.succ_pos _)
      rw [Nat.add_zero] at hc
      rw [show 9 - k = 8 - k + 1 by omega, Nat.zero_add, putInt.skipPrefix, if_neg hne]
      dsimp only
      rw [hnat, hc, List.getElem_cons_zero, if_neg (fun h48 => hhead (congrArg some h48)),
        UInt32.add_sub_cancel]
    rw [hfirst, Nat.sub_add_cancel (by omega)] at hskip
    rw [show putInt.skipPrefix b m 9 0 = some (c, UInt32.ofNat k) from hskip]
    dsimp only
    refine putEachNum_eq ?_ (.inl (by omega)) hb (by omega)
    intro j hj
    have hj' := hrest (j + 1) (Nat.succ_lt_succ hj)
    rw [show k + 1 + j = k + (j + 1) by omega]
    exact hj'

end PutInt

section Printers

open Vga

variable {n : Nat}

def IsHexDigit (c : UInt8) : Prop := 48 ≤ c ∧ c ≤ 57 ∨ 65 ≤ c ∧ c ≤ 70

instance : DecidablePred IsHexDigit := fun _ => inferInstanceAs (Decidable (_ ∨ _))

theorem isHexDigit_of_mem {c : UInt8} (h : c ∈ numeral 16 n) : IsHexDigit c :=
  forall_mem_numeral (P := IsHexDigit) (by decide) (by decide) c h

/-- The numeral of `v`, which `itoa` writes with 10 calls, and `put_int` prints -/
theorem hex_printers_agree (v : UInt32)
    : (∀ base : UInt8, base = 10 ∨ base = 16 → ∀ calls, 10 ≤ calls → ∀ (m : Mem) (buf : Nat),
        ∃ s : List UInt8,
          (Ptr.itoa calls v buf base).run m = .ok (buf + s.length, m.puts buf s)
            ∧ s = numeral base.toNat v.toNat ∧ numeralVal base.toNat s = v.toNat)
        ∧ (∀ c ∈ numeral 16 v.toNat, IsHexDigit c)
        ∧ (if v = 0 then numeral 16 v.toNat = [48] else (numeral 16 v.toNat).head? ≠ some 48)
        ∧ ∀ (vga : Vga) (buf : Nat), buf + 8 ≤ videoBase ∨ videoBase + 65537 ≤ buf →
            vga.putInt buf v
              = some ((numeral 16 v.toNat).foldl putChar { vga with
                  mem := vga.mem.puts buf (lastDigits 16 8 v.toNat) }) := by
  have hv := v.toNat_lt
  refine ⟨?_, fun c hc => isHexDigit_of_mem hc, ?_, fun vga buf hbuf => putInt_eq hbuf⟩
  . intro base hbase calls hcalls m buf
    have hrange : 10 ≤ base.toNat ∧ base.toNat ≤ 36 := by
      rcases hbase with rfl | rfl <;> decide
    have hpow : 10 ^ 10 ≤ base.toNat ^ 10 := Nat.pow_le_pow_left hrange.1 10
    have hlen := @length_numeral_le base.toNat 10 v.toNat (by omega) (by decide) (by omega)
    have hrun := @itoa_run m buf calls v base [] [] (by omega) hrange.2 (by decide) (by omega)
    rw [List.nil_append, List.nil_append, Mem.puts_nil, List.length_nil, Nat.add_zero] at hrun
    exact ⟨_, hrun, rfl, numeralVal_numeral (by omega) hrange.2⟩
  . split
    . next h =>
      rw [h]
      rfl
    . next h =>
      apply head?_numeral (by decide) (by decide)
      rintro h0
      exact h (UInt32.toNat_inj.mp h0)

theorem hex_printers_agree_beef
    : (Ptr.itoa 10 0xbeef 100 16).run Mem.zero = .ok (104, Mem.zero.puts 100 [66, 69, 69, 70])
        ∧ (lastCell.putInt 100 0xbeef)
            = some ([66, 69, 69, 70].foldl putChar { lastCell with
                mem := lastCell.mem.puts 100 (lastDigits 16 8 0xbeef) }) := by
  obtain ⟨hitoa, -, -, hput⟩ := hex_printers_agree 0xbeef
  obtain ⟨s, hrun, rfl, -⟩ := hitoa 16 (.inr rfl) 10 (Nat.le_refl _) Mem.zero 100
  have hnum : numeral 16 (0xbeef : UInt32).toNat = [66, 69, 69, 70] := by decide
  rw [show (16 : UInt8).toNat = 16 from rfl, hnum] at hrun
  refine ⟨hrun, ?_⟩
  have hrun' := hput lastCell 100 (.inl (by decide))
  rw [hnum] at hrun'
  exact hrun'

end Printers

end RogOS
