import RogOS.Lib.ClearRun
import RogOS.Fs.Lemmas.Bitmap

/-!
Which run of clear bits `bitmap_scan` finds, and which bytes it reads.
-/

namespace RogOS

section Reads

namespace bitmapScan

def bytesSkipped (bits : Mem) : (n idxByte : Nat) → List Nat
  | 0, idxByte => [idxByte]
  | n + 1, idxByte =>
    if bits idxByte == 0xff then
      idxByte :: bytesSkipped bits n (idxByte + 1)
    else
      [idxByte]

def bitsTested (btmp : Bitmap) (cnt : Nat) : (bitLeft nextBit count : Nat) → List Nat
  | 0, _, _ => []
  | bitLeft + 1, nextBit, count =>
    let count := if bitmapScanTest btmp nextBit then 0 else count + 1
    nextBit :: if count = cnt then [] else bitsTested btmp cnt bitLeft (nextBit + 1) count

def bytesInspected (btmp : Bitmap) (cnt : UInt32) : List Nat :=
  bytesSkipped btmp.bits btmp.btmpBytesLen 0 ++
  match freeByte btmp.bits btmp.btmpBytesLen 0 with
  | none => []
  | some idxByte =>
    let bitIdxStart := idxByte * 8 + freeBit (btmp.bits idxByte) 8 0
    if cnt = 1 then
      [idxByte]
    else
      let bitLeft := btmp.btmpBytesLen * 8 - bitIdxStart
      if bitLeft < (cnt - 1).toNat then
        [idxByte]
      else
        idxByte :: (bitsTested btmp cnt.toNat bitLeft (bitIdxStart + 1) 1).map (· / 8)

variable {bits : Mem}

theorem bytesSkipped_le {n i j b : Nat} (h : freeByte bits n i = some j)
    (hb : b ∈ bytesSkipped bits n i) : b ≤ j := by
  induction n generalizing i with
  | zero => cases h
  | succ n ih =>
    have hle := (freeByte_eq_some h).1
    unfold freeByte at h
    unfold bytesSkipped at hb
    split at h
    . next hff =>
      rw [if_pos hff, List.mem_cons] at hb
      cases hb with
      | inl hb => omega
      | inr hb => exact ih h hb
    . next hff =>
      rw [if_neg hff, List.mem_singleton] at hb
      omega

end bitmapScan

end Reads

section Runs

variable {btmp : Bitmap} {cnt : Nat}

theorem bitmapScan.tested_succ {left next count b : Nat} {r : Option Nat}
    (h : ClearRun.Counted btmp.bits.bit cnt (next + 1) count)
    (hr : ∀ i, r = some i ↔ IsLeast (ClearRun.starts btmp.bits.bit cnt (next + 1 + left)) i)
    : b = next ∨ next + 1 ≤ b ∧ b < (r.map (· + cnt)).getD (next + 1 + left)
        ↔
      next ≤ b ∧ b < (r.map (· + cnt)).getD (next + 1 + left) := by
  have hlt : next < (r.map (· + cnt)).getD (next + 1 + left) := by
    cases r with
    | none =>
      simp only [Option.map_none, Option.getD_none]
      omega
    | some i =>
      have hend := h.lt_end ((hr i).mp rfl).1
      simp only [Option.map_some, Option.getD_some]
      omega
  omega

theorem bitmapScan.run_spec {left next count : Nat}
    (h : ClearRun.Counted btmp.bits.bit cnt next count)
    : (∀ i, run btmp cnt left next count = some i
        ↔ IsLeast (ClearRun.starts btmp.bits.bit cnt (next + left)) i)
        ∧ ∀ b, b ∈ bitsTested btmp cnt left next count
            ↔ next ≤ b ∧ b < ((run btmp cnt left next count).map (· + cnt)).getD (next + left) := by
  induction left generalizing next count with
  | zero =>
    constructor
    . intro i
      exact iff_of_false (by rw [run]; simp) fun hleast => h.short i hleast.1
    . intro b
      rw [bitsTested, run]
      simp only [List.not_mem_nil, Option.map_none, Option.getD_none, false_iff]
      omega
  | succ left ih =>
    unfold run bitsTested
    rw [bitmapScanTest_eq]
    have hend : next + (left + 1) = next + 1 + left := by omega
    cases hbit : btmp.bits.bit next with
    | true =>
      have hlt := h.lt
      have hnext := h.set hbit
      obtain ⟨hrun, htested⟩ := ih hnext
      dsimp only
      rw [if_pos rfl, if_neg (by omega), if_neg (by omega), hend]
      refine ⟨hrun, ?_⟩
      intro b
      rw [List.mem_cons, htested]
      exact tested_succ hnext hrun
    | false =>
      dsimp only
      rw [if_neg Bool.false_ne_true]
      split
      . next heq =>
        have hle := h.le
        have hleast := h.found hbit heq (show next < next + (left + 1) by omega)
        constructor
        . intro i
          rw [Option.some.injEq]
          exact ⟨fun hi => hi ▸ hleast, fun hi => hleast.unique hi⟩
        . intro b
          simp only [List.mem_singleton, Option.map_some, Option.getD_some]
          omega
      . next hne =>
        have hnext := h.unset hbit hne
        obtain ⟨hrun, htested⟩ := ih hnext
        rw [hend]
        refine ⟨hrun, ?_⟩
        intro b
        rw [List.mem_cons, htested]
        exact tested_succ hnext hrun

def Bitmap.starts (btmp : Bitmap) (cnt : Nat)
    : Set Nat := ClearRun.starts btmp.bits.bit cnt (8 * btmp.btmpBytesLen)

structure ScanFirst (btmp : Bitmap) (cnt : UInt32) : Prop where
  result : ∃ r, (∀ (σ : Type) (s : σ), (bitmapScan btmp cnt).run s = .ok (r, s))
    ∧ ∀ i, r = some i ↔ IsLeast (btmp.starts cnt.toNat) i
  reads : ∀ b ∈ bitmapScan.bytesInspected btmp cnt, b < btmp.btmpBytesLen

theorem bitmapScan.firstClear (h : btmp.HasClear)
    : ∃ idxByte, freeByte btmp.bits btmp.btmpBytesLen 0 = some idxByte ∧ idxByte < btmp.btmpBytesLen
        ∧ FirstClear btmp.bits btmp.btmpBytesLen
            (idxByte * 8 + freeBit (btmp.bits idxByte) 8 0) := by
  obtain ⟨b, hb, hrun⟩ := @bitmapScan_of_hasClear Unit btmp () h
  unfold bitmapScan at hrun
  split at hrun
  . exact absurd hrun Cmd.throw_run
  . next idxByte hbyte =>
    rw [if_pos rfl, Cmd.pure_run] at hrun
    cases hrun
    obtain ⟨-, hlt, -⟩ := freeByte_eq_some hbyte
    rw [Nat.zero_add] at hlt
    exact ⟨idxByte, hbyte, hlt, hb⟩

theorem FirstClear.le_start {len b i stop : Nat} (h : FirstClear btmp.bits len b) (hcnt : 1 ≤ cnt)
    (hi : i ∈ ClearRun.starts btmp.bits.bit cnt stop) : b ≤ i := by
  by_contra hlt
  have hset := h.first i (by omega)
  rw [hi.2.bit_eq (Nat.le_refl i) (by omega)] at hset
  contradiction

theorem scanFirst_one (h : btmp.HasClear) : ScanFirst btmp 1 ∧ (btmp.starts 1).Nonempty := by
  obtain ⟨idxByte, hbyte, hlt, hfirst⟩ := bitmapScan.firstClear h
  have hrun : ∀ (σ : Type) (s : σ), (bitmapScan btmp 1).run s
      = .ok (some (idxByte * 8 + bitmapScan.freeBit (btmp.bits idxByte) 8 0), s) := by
    intro σ s
    unfold bitmapScan
    rw [hbyte]
    rfl
  have hreads : bitmapScan.bytesInspected btmp 1
      = bitmapScan.bytesSkipped btmp.bits btmp.btmpBytesLen 0 ++ [idxByte] := by
    unfold bitmapScan.bytesInspected
    rw [hbyte]
    rfl
  generalize idxByte * 8 + bitmapScan.freeBit (btmp.bits idxByte) 8 0 = b at hrun hfirst
  have hleast : IsLeast (btmp.starts 1) b := by
    refine ⟨⟨hfirst.lt, ?_⟩, fun i hi => hfirst.le_start (Nat.le_refl 1) hi⟩
    intro k hk
    rw [Nat.lt_one_iff.mp hk]
    exact hfirst.clear
  refine ⟨⟨⟨_, hrun, ?_⟩, ?_⟩, b, hleast.1⟩
  . intro i
    rw [Option.some.injEq]
    exact ⟨fun hi => hi ▸ hleast, fun hi => hleast.unique hi⟩
  . intro c hc
    rw [hreads, List.mem_append, List.mem_singleton] at hc
    cases hc with
    | inl hc => exact Nat.lt_of_le_of_lt (bitmapScan.bytesSkipped_le hbyte hc) hlt
    | inr hc => omega

theorem scanFirst_few {cnt : UInt32} {idxByte : Nat} (hone : cnt ≠ 1) (hcnt : 1 ≤ cnt.toNat)
    (hbyte : bitmapScan.freeByte btmp.bits btmp.btmpBytesLen 0 = some idxByte)
    (hlt : idxByte < btmp.btmpBytesLen) (hfirst : FirstClear btmp.bits btmp.btmpBytesLen
    (idxByte * 8 + bitmapScan.freeBit (btmp.bits idxByte) 8 0))
    (hfew : btmp.btmpBytesLen * 8 - (idxByte * 8 + bitmapScan.freeBit (btmp.bits idxByte) 8 0)
      < (cnt - 1).toNat)
    (hsub : (cnt - 1).toNat = cnt.toNat - 1) : ScanFirst btmp cnt := by
  have hrun : ∀ (σ : Type) (s : σ), (bitmapScan btmp cnt).run s = .ok (none, s) := by
    intro σ s
    unfold bitmapScan
    rw [hbyte]
    dsimp only
    rw [if_neg hone, if_pos hfew]
    rfl
  have hreads : bitmapScan.bytesInspected btmp cnt
      = bitmapScan.bytesSkipped btmp.bits btmp.btmpBytesLen 0 ++ [idxByte] := by
    unfold bitmapScan.bytesInspected
    rw [hbyte]
    dsimp only
    rw [if_neg hone, if_pos hfew]
  refine ⟨⟨_, hrun, ?_⟩, ?_⟩
  . intro i
    refine iff_of_false (by simp) fun hleast => ?_
    have hle := hfirst.le_start hcnt hleast.1
    have hend := hleast.1.1
    omega
  . intro c hc
    rw [hreads, List.mem_append, List.mem_singleton] at hc
    cases hc with
    | inl hc => exact Nat.lt_of_le_of_lt (bitmapScan.bytesSkipped_le hbyte hc) hlt
    | inr hc => omega

theorem scanFirst_loop {cnt : UInt32} {idxByte : Nat} (hone : cnt ≠ 1) (hcnt : 1 < cnt.toNat)
    (hbyte : bitmapScan.freeByte btmp.bits btmp.btmpBytesLen 0 = some idxByte)
    (hlt : idxByte < btmp.btmpBytesLen) (hfirst : FirstClear btmp.bits btmp.btmpBytesLen
    (idxByte * 8 + bitmapScan.freeBit (btmp.bits idxByte) 8 0))
    (hleft : ¬ btmp.btmpBytesLen * 8 - (idxByte * 8 + bitmapScan.freeBit (btmp.bits idxByte) 8 0)
      < (cnt - 1).toNat)
    : ScanFirst btmp cnt ↔ (btmp.starts cnt.toNat).Nonempty := by
  have hrun : ∀ (σ : Type) (s : σ), (bitmapScan btmp cnt).run s
      = .ok (bitmapScan.run btmp cnt.toNat
          (btmp.btmpBytesLen * 8 - (idxByte * 8 + bitmapScan.freeBit (btmp.bits idxByte) 8 0))
          (idxByte * 8 + bitmapScan.freeBit (btmp.bits idxByte) 8 0 + 1) 1, s) := by
    intro σ s
    unfold bitmapScan
    rw [hbyte]
    dsimp only
    rw [if_neg hone, if_neg hleft]
    rfl
  have hreads : bitmapScan.bytesInspected btmp cnt
      = bitmapScan.bytesSkipped btmp.bits btmp.btmpBytesLen 0
        ++ idxByte :: (bitmapScan.bitsTested btmp cnt.toNat
            (btmp.btmpBytesLen * 8 - (idxByte * 8 + bitmapScan.freeBit (btmp.bits idxByte) 8 0))
            (idxByte * 8 + bitmapScan.freeBit (btmp.bits idxByte) 8 0 + 1) 1).map (· / 8) := by
    unfold bitmapScan.bytesInspected
    rw [hbyte]
    dsimp only
    rw [if_neg hone, if_neg hleft]
  generalize idxByte * 8 + bitmapScan.freeBit (btmp.bits idxByte) 8 0 = b at hrun hfirst hreads
  have hb := hfirst.lt
  obtain ⟨hspec, htested⟩ := @bitmapScan.run_spec btmp cnt.toNat (btmp.btmpBytesLen * 8 - b)
    (b + 1) 1
    (.first hcnt hfirst.clear hfirst.first)
  rw [show b + 1 + (btmp.btmpBytesLen * 8 - b) = 8 * btmp.btmpBytesLen + 1 by
    omega] at hspec htested
  generalize bitmapScan.run btmp cnt.toNat (btmp.btmpBytesLen * 8 - b) (b + 1) 1
      = r at hrun hspec htested
  -- a run in the bitmap is also one in the bits that the loop tests
  have hmono : ∀ i ∈ btmp.starts cnt.toNat,
      i ∈ ClearRun.starts btmp.bits.bit cnt.toNat (8 * btmp.btmpBytesLen + 1) :=
    fun i hi => ⟨Nat.le_succ_of_le hi.1, hi.2⟩
  constructor
  . rintro ⟨⟨r', hrun', hleast⟩, hin⟩
    have hr : r = r' := by
      have heq := (hrun Unit ()).symm.trans (hrun' Unit ())
      simpa using heq
    cases r with
    | some i => exact ⟨i, ((hleast i).mp hr.symm).1⟩
    | none =>
      -- the loop has tested the bit behind the bitmap
      have hlast := hin (8 * btmp.btmpBytesLen / 8) (by
        rw [hreads, List.mem_append, List.mem_cons]
        right
        right
        apply List.mem_map_of_mem (f := (· / 8))
        apply (htested _).mpr
        simp only [Option.map_none, Option.getD_none]
        omega)
      omega
  . rintro ⟨j, hj⟩
    obtain ⟨i, hi⟩ : ∃ i, IsLeast (btmp.starts cnt.toNat) i := by
      classical
      exact ⟨Nat.find ⟨j, hj⟩, Nat.find_spec (p := fun i => i ∈ btmp.starts cnt.toNat) ⟨j, hj⟩,
        fun k hk => Nat.find_min' _ hk⟩
    have hend := hi.1.1
    have hr : r = some i := by
      apply (hspec i).mpr
      refine ⟨hmono i hi.1, ?_⟩
      rintro k ⟨hk, hclear⟩
      by_contra hlt
      exact hlt (hi.2 ⟨by omega, hclear⟩)
    refine ⟨⟨r, hrun, ?_⟩, ?_⟩
    . intro k
      rw [hr, Option.some.injEq]
      exact ⟨fun hk => hk ▸ hi, fun hk => hi.unique hk⟩
    . intro c hc
      rw [hreads, List.mem_append, List.mem_cons, List.mem_map] at hc
      obtain hc | rfl | ⟨k, hk, rfl⟩ := hc
      . exact Nat.lt_of_le_of_lt (bitmapScan.bytesSkipped_le hbyte hc) hlt
      . exact hlt
      . have hk := ((htested k).mp hk).2
        rw [hr] at hk
        simp only [Option.map_some, Option.getD_some] at hk
        omega

/--
`bitmap_scan` does so if and only if there is a run, or so few bits are left from the first clear
one on that it returns before the last loop: this loop tests the bit behind the bitmap as well.
-/
theorem scanFirst_iff (btmp : Bitmap) (cnt : UInt32) (h : btmp.HasClear) (hcnt : 1 ≤ cnt.toNat)
    : ScanFirst btmp cnt
        ↔
      (btmp.starts cnt.toNat).Nonempty
        ∨ ∃ b, FirstClear btmp.bits btmp.btmpBytesLen b ∧ 8 * btmp.btmpBytesLen
            < b + (cnt.toNat - 1) := by
  by_cases hone : cnt = 1
  . obtain ⟨hscan, hrun⟩ := scanFirst_one h
    rw [hone]
    exact iff_of_true hscan (.inl hrun)
  . obtain ⟨idxByte, hbyte, hlt, hfirst⟩ := bitmapScan.firstClear h
    have hne : cnt.toNat ≠ 1 := fun heq => hone (UInt32.toNat_inj.mp heq)
    have hsub : (cnt - 1).toNat = cnt.toNat - 1 :=
      UInt32.toNat_sub_of_le _ _ (UInt32.le_iff_toNat_le.mpr hcnt)
    have hb := hfirst.lt
    by_cases hfew :
      btmp.btmpBytesLen * 8 - (idxByte * 8 + bitmapScan.freeBit (btmp.bits idxByte) 8 0)
      < (cnt - 1).toNat
    . exact iff_of_true (scanFirst_few hone hcnt hbyte hlt hfirst hfew hsub)
        (.inr ⟨_, hfirst, by omega⟩)
    . rw [scanFirst_loop hone (by omega) hbyte hlt hfirst hfew]
      refine (or_iff_left ?_).symm
      rintro ⟨b, hclear, hlt'⟩
      rw [hfirst.unique hclear] at hfew
      omega

theorem scanFirst_three : ScanFirst ⟨1, fun i => if i = 0 then 0x02 else 0xff⟩ 3 := by
  rw [scanFirst_iff _ _ ⟨0, by decide, by decide⟩ (by decide)]
  left
  refine ⟨2, by decide, ?_⟩
  intro k hk
  have hk : k < 3 := hk
  interval_cases k <;> rfl

/-- With one clear bit at the end of the bitmap, the bit behind it is taken for the second one. -/
theorem not_scanFirst_end : ¬ ScanFirst ⟨1, fun i => if i = 0 then 0x7f else 0⟩ 2 := by
  rintro ⟨⟨r, hrun, hleast⟩, -⟩
  have hseven : (bitmapScan ⟨1, fun i => if i = 0 then 0x7f else 0⟩ 2).run ()
      = .ok (some 7, ()) := by rfl
  have hr : some 7 = r := by
    have heq := hseven.symm.trans (hrun Unit ())
    simpa using heq
  have hend := ((hleast 7).mp hr.symm).1.1
  revert hend
  decide

end Runs

end RogOS
