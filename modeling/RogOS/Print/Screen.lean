import RogOS.Lib.CStr
import RogOS.Lib.Terminal
import RogOS.Print.Impl.Print

/-!
`put_char` makes a terminal of 25 lines of 80 cells out of the video memory and the cursor.
-/

namespace RogOS

abbrev Console := Terminal 80 25 (UInt8 × UInt8)

def blankCell : UInt8 × UInt8 := (0x20, 0x07)

def Console.putChar (t : Console) (c : UInt8) : Console :=
  if c = 0x0d ∨ c = 0x0a then
    t.newline blankCell
  else if c = 0x08 then
    t.backspace blankCell
  else
    t.put blankCell (c, 0x07)

def videoCell (m : Mem) (i : Nat)
    : UInt8 × UInt8 := (m (videoBase + 2 * i), m (videoBase + 2 * i + 1))

namespace Vga

open Mem (SameOutside)

variable {v : Vga} {t : Console} {m : Mem} {a c : UInt8} {bx : UInt16} {i k n d esi edi : Nat}

def cursor (v : Vga) : Nat := (v.crt 0x0e).toNat * 256 + (v.crt 0x0f).toNat

structure Shows (v : Vga) (t : Console) : Prop where
  cells : ∀ i, videoCell v.mem i.val = t.cell i
  cursor : v.cursor = t.cursor

section Cursor

theorem toNat_high_low (ah al : UInt8)
    : (ah.toUInt16 <<< 8 ||| al.toUInt16).toNat = ah.toNat * 256 + al.toNat := by
  have hah := ah.toNat_lt
  have hal := al.toNat_lt
  rw [UInt16.toNat_or, UInt16.toNat_shiftLeft, UInt8.toNat_toUInt16, UInt8.toNat_toUInt16]
  rw [show (8 : UInt16).toNat % 16 = 8 from rfl, Nat.shiftLeft_eq, Nat.mod_eq_of_lt (by omega),
    show ah.toNat * 2 ^ 8 = ah.toNat <<< 8 by rw [Nat.shiftLeft_eq],
    ← Nat.shiftLeft_add_eq_or_of_lt (by omega), Nat.shiftLeft_eq]

theorem jl_iff {n : UInt16} (hbx : bx.toNat < 32768) (hn : n.toNat < 32768)
    : jl bx n = true ↔ bx.toNat < n.toNat := by
  unfold jl
  rw [decide_eq_true_iff, Int16.lt_iff_toInt_lt]
  show bx.toBitVec.toInt < n.toBitVec.toInt ↔ _
  rw [BitVec.toInt_eq_toNat_of_lt, BitVec.toInt_eq_toNat_of_lt]
  . exact Int.ofNat_lt
  . show 2 * n.toNat < 65536
    omega
  . show 2 * bx.toNat < 65536
    omega

theorem setCursor_mem : (v.setCursor bx).mem = v.mem := rfl

theorem setCursor_cursor : (v.setCursor bx).cursor = bx.toNat := by
  have hbx := bx.toNat_lt
  have hhigh : (v.setCursor bx).crt 0x0e = (bx >>> 8).toUInt8 := rfl
  have hlow : (v.setCursor bx).crt 0x0f = bx.toUInt8 := rfl
  unfold cursor
  rw [hhigh, hlow, UInt16.toNat_toUInt8, UInt16.toNat_toUInt8, UInt16.toNat_shiftRight,
    show (8 : UInt16).toNat % 16 = 8 from rfl, Nat.shiftRight_eq_div_pow]
  omega

end Cursor

section Memory

theorem movsd_apply {a : Nat} (hd : 4 ≤ d)
    : movsd n (edi + d) edi m a = if edi ≤ a ∧ a < edi + 4 * n then m (a + d) else m a := by
  induction n generalizing edi m with
  | zero =>
    rw [movsd, if_neg (by omega)]
  | succ n ih =>
    have hset : ∀ b, m.setWord edi (m.word (edi + d)) b = if edi ≤ b ∧ b < edi + 4 then m (b + d)
        else m b := by
      intro b
      split
      . next h =>
        rw [Mem.setWord, Mem.blit_of_mem h.1 h.2, Mem.ofWord_word (by omega)]
        congr 1
        omega
      . exact Mem.setWord_of_not_mem (by omega)
    rw [movsd, show edi + d + 4 = edi + 4 + d by omega, ih]
    split
    . rw [hset, if_neg (by omega), if_pos (by omega)]
    . rw [hset]
      split
      . rw [if_pos (by omega)]
      . rw [if_neg (by omega)]

theorem setHalf_apply {a b : Nat} {w : UInt16} : m.setHalf a w b
    = if b = a then w.toUInt8 else if b = a + 1 then (w >>> 8).toUInt8 else m b := by
  have hw := w.toNat_lt
  unfold Mem.setHalf
  split
  . next h =>
    subst h
    rw [Mem.blit_of_mem (by omega) (by omega), Nat.sub_self]
    apply UInt8.toNat_inj.mp
    rw [Mem.ofWord, UInt8.toNat_ofNat', UInt16.toNat_toUInt32, UInt16.toNat_toUInt8, Nat.pow_zero,
      Nat.div_one]
  . split
    . next h =>
      subst h
      rw [Mem.blit_of_mem (by omega) (by omega), Nat.add_sub_cancel_left]
      apply UInt8.toNat_inj.mp
      rw [Mem.ofWord, UInt8.toNat_ofNat', UInt16.toNat_toUInt32, UInt16.toNat_toUInt8,
        UInt16.toNat_shiftRight, show (8 : UInt16).toNat % 16 = 8 from rfl,
        Nat.shiftRight_eq_div_pow, show 256 ^ 1 = 2 ^ 8 from rfl]
    . exact Mem.blit_of_not_mem (by omega)

theorem movWord_blank
    : videoCell (v.movWord (2 * k) 0x0720).mem i = if i = k then blankCell
        else videoCell v.mem i := by
  unfold videoCell movWord
  dsimp only
  rw [setHalf_apply, setHalf_apply]
  by_cases h : i = k
  . subst h
    rw [if_pos rfl, if_neg (by omega), if_pos rfl, if_pos rfl]
    rfl
  . rw [if_neg (by omega), if_neg (by omega), if_neg (by omega), if_neg (by omega), if_neg h]

theorem cls_mem
    : (∀ i, videoCell (cls n (2 * k) v).mem i = if k ≤ i ∧ i < k + n then blankCell
        else videoCell v.mem i)
    ∧ SameOutside v.mem (cls n (2 * k) v).mem (videoBase + 2 * k) (videoBase + 2 * (k + n)) := by
  induction n generalizing k v with
  | zero =>
    refine ⟨fun i => ?_, .refl⟩
    rw [cls, if_neg (by omega)]
  | succ n ih =>
    obtain ⟨h1, h2⟩ := @ih (v.movWord (2 * k) 0x0720) (k + 1)
    rw [cls]
    constructor
    . intro i
      rw [show 2 * k + 2 = 2 * (k + 1) by omega, h1, movWord_blank]
      split
      . rw [if_pos (by omega)]
      . split
        . rw [if_pos (by omega)]
        . rw [if_neg (by omega)]
    . have hsame : SameOutside v.mem (v.movWord (2 * k) 0x0720).mem (videoBase + 2 * k)
          (videoBase + 2 * k + 2) :=
        fun i hi => Mem.setHalf_of_not_mem hi
      apply (hsame.mono (Nat.le_refl _) (by omega)).trans
      exact h2.mono (by omega) (by omega)

end Memory

section PutChar

structure Step (v v' : Vga) (t : Console) : Prop where
  shows : v'.Shows t
  same : SameOutside v.mem v'.mem videoBase (videoBase + 4000)

theorem rollScreen_eq
    : v.rollScreen
        = (cls 80 (2 * 1920) { v with
        mem := movsd 960 (videoBase + 160) videoBase v.mem }).setCursor 1920 := rfl

theorem rollScreen_cell (hi : i < 2000)
    : videoCell v.rollScreen.mem i = if i + 80 < 2000 then videoCell v.mem (i + 80)
        else blankCell := by
  have hmove := fun a => @movsd_apply v.mem 960 160 videoBase a (by decide)
  rw [rollScreen_eq, setCursor_mem, cls_mem.1]
  split
  . rw [if_neg (by omega)]
  . rw [if_pos (by omega)]
    unfold videoCell
    dsimp only
    rw [hmove, hmove, if_pos (by omega), if_pos (by omega), show videoBase + 2 * i + 160
      = videoBase + 2 * (i + 80) by omega,
      show videoBase + 2 * i + 1 + 160 = videoBase + 2 * (i + 80) + 1 by omega]

theorem rollScreen_same : SameOutside v.mem v.rollScreen.mem videoBase (videoBase + 4000) := by
  have hmove : SameOutside v.mem (movsd 960 (videoBase + 160) videoBase v.mem) videoBase
      (videoBase + 4000) := by
    intro a ha
    rw [movsd_apply (by decide), if_neg (by omega)]
  rw [rollScreen_eq, setCursor_mem]
  generalize movsd 960 (videoBase + 160) videoBase v.mem = m at hmove
  apply hmove.trans
  exact (@cls_mem { v with mem := m } 1920 80).2.mono (by omega) (by omega)

variable (hcells : ∀ i, videoCell v.mem i.val = t.cell i)

include hcells

theorem setCursor_shows (h : bx.toNat < 2000)
    : Step v (v.setCursor bx) (t.goTo blankCell bx.toNat) := by
  have hgo : t.goTo blankCell bx.toNat = { t with cursor := ⟨bx.toNat, h⟩ } := dif_pos h
  rw [hgo]
  exact ⟨⟨hcells, setCursor_cursor⟩, .refl⟩

theorem rollScreen_shows (h : 2000 ≤ n) : Step v v.rollScreen (t.goTo blankCell n) := by
  have hgo : t.goTo blankCell n
      = ⟨t.scroll blankCell, ⟨80 * 25 - 80, Terminal.lastLine_lt t.cursor⟩⟩ := dif_neg (by omega)
  rw [hgo]
  refine ⟨⟨?_, setCursor_cursor⟩, rollScreen_same⟩
  intro i
  have hi := i.isLt
  rw [rollScreen_cell (by omega)]
  have hscroll : t.scroll blankCell i = if h : i.val + 80 < 80 * 25 then t.cell ⟨i + 80, h⟩
      else blankCell := rfl
  dsimp only
  rw [hscroll]
  split
  . next h => exact hcells ⟨i + 80, h⟩
  . rfl

theorem isCarriageReturn_shows (h : bx.toNat ≤ 2000)
    : Step v (v.isCarriageReturn bx) (t.goTo blankCell ((bx.toNat / 80 + 1) * 80)) := by
  have hmod := Nat.mod_lt bx.toNat (show 0 < 80 by decide)
  have hdiv := Nat.div_add_mod bx.toNat 80
  have hnext : (bx - bx % 80 + 80).toNat = (bx.toNat / 80 + 1) * 80 := by
    rw [UInt16.toNat_add, UInt16.toNat_sub_of_le _ _ ?_, UInt16.toNat_mod, show (80 : UInt16).toNat
      = 80 from rfl]
    . omega
    . rw [UInt16.le_iff_toNat_le, UInt16.toNat_mod, show (80 : UInt16).toNat = 80 from rfl]
      omega
  unfold isCarriageReturn
  dsimp only
  rw [← hnext]
  have hlt := @jl_iff (bx - bx % 80 + 80) 2000 (by rw [hnext]; omega) (by decide)
  rw [show (2000 : UInt16).toNat = 2000 from rfl] at hlt
  split
  . next hjl => exact setCursor_shows hcells (hlt.mp hjl)
  . next hjl => exact rollScreen_shows hcells (Nat.le_of_not_lt (hlt.not.mp hjl))

omit hcells

theorem toNat_shl (h : bx.toNat < 2000) : (bx <<< 1).toNat = 2 * bx.toNat := by
  rw [UInt16.toNat_shiftLeft, show (1 : UInt16).toNat % 16 = 1 from rfl, Nat.shiftLeft_eq]
  omega

theorem putOther_shows (hs : v.Shows t) (hbx : bx.toNat = t.cursor)
    : Step v (v.putOther bx c) (t.put blankCell (c, 0x07)) := by
  have hcur := t.cursor.isLt
  have hshl := toNat_shl (show bx.toNat < 2000 by omega)
  have hinc : (bx <<< 1 + 1).toNat = 2 * bx.toNat + 1 := by
    rw [UInt16.toNat_add, hshl, show (1 : UInt16).toNat = 1 from rfl]
    omega
  have hnext : ((bx <<< 1 + 1 + 1) >>> 1).toNat = bx.toNat + 1 := by
    rw [UInt16.toNat_shiftRight, UInt16.toNat_add, hinc, show (1 : UInt16).toNat = 1 from rfl,
      show 1 % 16 = 1 from rfl, Nat.shiftRight_eq_div_pow]
    omega
  generalize hv : (v.movByte (bx <<< 1) c).movByte (bx <<< 1 + 1) 0x07 = v'
  have hmem : v'.mem = Function.update (Function.update v.mem (videoBase + 2 * bx.toNat) c)
      (videoBase + (2 * bx.toNat + 1)) 0x07 := by
    rw [← hv]
    unfold movByte
    dsimp only
    rw [hshl, hinc]
  have hsame : SameOutside v.mem v'.mem videoBase (videoBase + 4000) := by
    rw [hmem]
    intro a ha
    rw [Function.update_of_ne (by omega), Function.update_of_ne (by omega)]
  have hcells : ∀ i, videoCell v'.mem i.val = (Function.update t.cell t.cursor (c, 0x07)) i := by
    intro i
    rw [hmem]
    unfold videoCell
    by_cases hi : i = t.cursor
    . subst hi
      rw [Function.update_self, ← hbx, Function.update_of_ne (by omega), Function.update_self,
        show videoBase + 2 * bx.toNat + 1 = videoBase + (2 * bx.toNat + 1) by
          omega, Function.update_self]
    . have hne : i.val ≠ bx.toNat := fun h => hi (Fin.ext (h.trans hbx))
      rw [Function.update_of_ne hi, ← hs.cells i, Function.update_of_ne (by omega),
        Function.update_of_ne (by omega), Function.update_of_ne (by omega),
        Function.update_of_ne (by omega)]
      rfl
  have hput : t.put blankCell (c, 0x07)
      = Terminal.goTo blankCell { t with cell := Function.update t.cell t.cursor (c, 0x07) }
          (bx.toNat + 1) := by
    rw [hbx]
    rfl
  unfold putOther
  dsimp only
  rw [hv, hput]
  have hlt := @jl_iff ((bx <<< 1 + 1 + 1) >>> 1) 2000 (by rw [hnext]; omega) (by decide)
  rw [show (2000 : UInt16).toNat = 2000 from rfl] at hlt
  split
  . next hjl =>
    have hstep :=
      setCursor_shows (t := { t with cell := Function.update t.cell t.cursor (c, 0x07) }) hcells
        (hlt.mp hjl)
    rw [hnext] at hstep
    exact ⟨hstep.shows, hsame.trans hstep.same⟩
  . next hjl =>
    -- the character was put into the last cell
    have hlast : bx.toNat + 1 = 2000 := by
      have := hlt.not.mp hjl
      omega
    have hstep :=
      isCarriageReturn_shows (t := { t with cell := Function.update t.cell t.cursor (c, 0x07) })
        hcells
      (show ((bx <<< 1 + 1 + 1) >>> 1).toNat ≤ 2000 by omega)
    rw [hnext, hlast] at hstep
    rw [hlast]
    exact ⟨hstep.shows, hsame.trans hstep.same⟩

theorem isBackspace_shows (hs : v.Shows t) (hbx : bx.toNat = t.cursor)
    : Step v (v.isBackspace bx) (t.backspace blankCell) := by
  have hcur := t.cursor.isLt
  unfold isBackspace Terminal.backspace
  split
  . next h =>
    rw [h, UInt16.toNat_zero] at hbx
    rw [if_pos hbx.symm, h]
    refine ⟨⟨hs.cells, ?_⟩, .refl⟩
    rw [setCursor_cursor, ← hbx]
    rfl
  . next h =>
    have hpos : bx.toNat ≠ 0 := fun h0 => h (UInt16.toNat_inj.mp h0)
    have hdec : (bx - 1).toNat = bx.toNat - 1 := by
      rw [UInt16.toNat_sub_of_le _ _ (UInt16.le_iff_toNat_le.mpr
        (by rw [show (1 : UInt16).toNat = 1 from rfl]; omega))]
      rfl
    have hshl := toNat_shl (show (bx - 1).toNat < 2000 by omega)
    have hshr : ((bx - 1) <<< 1 >>> 1).toNat = bx.toNat - 1 := by
      rw [UInt16.toNat_shiftRight, hshl, show (1 : UInt16).toNat % 16 = 1 from rfl,
        Nat.shiftRight_eq_div_pow, hdec]
      omega
    rw [if_neg (by omega)]
    dsimp only
    rw [hshl, hdec]
    refine ⟨⟨?_, ?_⟩, ?_⟩
    . intro i
      rw [setCursor_mem, movWord_blank]
      by_cases hi : i.val = bx.toNat - 1
      . have hcell : i = ⟨t.cursor - 1, Nat.lt_of_le_of_lt (Nat.sub_le _ _) t.cursor.isLt⟩ :=
          Fin.ext (by dsimp only; omega)
        have hself : Function.update t.cell i blankCell i = blankCell := Function.update_self ..
        rw [if_pos hi, ← hcell]
        exact hself.symm
      . have hcell : i ≠ ⟨t.cursor - 1, Nat.lt_of_le_of_lt (Nat.sub_le _ _) t.cursor.isLt⟩ := by
          intro heq
          apply hi
          rw [heq, hbx]
        rw [if_neg hi, hs.cells]
        exact (Function.update_of_ne hcell blankCell t.cell).symm
    . rw [setCursor_cursor, hshr, hbx]
    . intro a ha
      rw [setCursor_mem]
      apply Mem.setHalf_of_not_mem
      omega

theorem putChar_eq {w : Vga} (hw : w = { v with index := 0x0f })
    (hbx : bx = (v.crt 0x0e).toUInt16 <<< 8 ||| (v.crt 0x0f).toUInt16)
    : v.putChar c = if c = 0x0d then w.isCarriageReturn bx else if c = 0x0a
        then w.isCarriageReturn bx
        else if c = 0x08 then w.isBackspace bx else w.putOther bx c := by
  have hindex : ∀ (v : Vga) (al : UInt8), v.outb 0x03d4 al = { v with index := al } := fun _ _ =>
    rfl
  rw [hw, hbx]
  unfold putChar
  simp only [hindex]
  rfl

theorem putChar_step (hs : v.Shows t) : Step v (v.putChar c) (t.putChar c) := by
  have hcur := t.cursor.isLt
  have hbx := toNat_high_low (v.crt 0x0e) (v.crt 0x0f)
  have hcursor : (v.crt 0x0e).toNat * 256 + (v.crt 0x0f).toNat = t.cursor := hs.cursor
  rw [hcursor] at hbx
  rw [putChar_eq rfl rfl]
  generalize (v.crt 0x0e).toUInt16 <<< 8 ||| (v.crt 0x0f).toUInt16 = bx at hbx
  generalize hv : ({ v with index := 0x0f } : Vga) = w
  have hmem : w.mem = v.mem := by rw [← hv]
  have hs' : w.Shows t := by
    rw [← hv]
    exact ⟨hs.cells, hs.cursor⟩
  have hstep : ∀ {v' t'}, Step w v' t' → Step v v' t' := fun h => ⟨h.shows, hmem ▸ h.same⟩
  have hnewline : Step v (w.isCarriageReturn bx) (t.newline blankCell) := by
    have hcr := isCarriageReturn_shows hs'.cells (show bx.toNat ≤ 2000 by omega)
    rw [hbx] at hcr
    exact hstep hcr
  unfold Console.putChar
  by_cases hcr : c = 0x0d
  . rw [if_pos hcr, if_pos (.inl hcr)]
    exact hnewline
  . rw [if_neg hcr]
    by_cases hlf : c = 0x0a
    . rw [if_pos hlf, if_pos (.inr hlf)]
      exact hnewline
    . rw [if_neg hlf, if_neg (not_or.mpr ⟨hcr, hlf⟩)]
      split
      . exact hstep (isBackspace_shows hs' hbx)
      . exact hstep (putOther_shows hs' hbx)

end PutChar

section Run

variable {s : List UInt8} {fuel message : Nat}

theorem putChars_step (hs : v.Shows t)
    : Step v (s.foldl putChar v) (s.foldl Console.putChar t) := by
  induction s generalizing v t with
  | nil => exact ⟨hs, .refl⟩
  | cons c s ih =>
    have hone := @putChar_step v t c hs
    have hrest := ih hone.shows
    exact ⟨hrest.shows, hone.same.trans hrest.same⟩

theorem Shows.cursor_lt (hs : v.Shows t) : v.cursor < 2000 := by
  rw [hs.cursor]
  exact t.cursor.isLt

theorem exists_shows (h : v.cursor < 2000) : ∃ t, v.Shows t :=
  ⟨⟨fun i => videoCell v.mem i, ⟨v.cursor, h⟩⟩, fun _ => rfl, rfl⟩

theorem putStr.go_eq (hs : v.Shows t) (h : v.mem.strEq message s = true) (h0 : 0 ∉ s)
    (hapart : message + s.length < videoBase ∨ videoBase + 4000 ≤ message) (hfuel : s.length < fuel)
    : putStr.go fuel message v = some (s.foldl putChar v) := by
  induction s generalizing v t message fuel with
  | nil =>
    cases fuel with
    | zero => omega
    | succ fuel =>
      rw [go, if_pos (Mem.strEq_nil.mp h)]
      rfl
  | cons c s ih =>
    cases fuel with
    | zero => omega
    | succ fuel =>
      rw [List.mem_cons, not_or] at h0
      rw [List.length_cons] at hapart hfuel
      obtain ⟨hc, h⟩ := Mem.strEq_cons.mp h
      have hone := @putChar_step v t c hs
      rw [go, hc, if_neg (Ne.symm h0.1), List.foldl_cons]
      exact ih hone.shows (hone.same.strEq h (by omega)) h0.2 (by omega) (by omega)

theorem putStr_eq (hs : v.Shows t) (h : v.mem.strEq message s = true) (h0 : 0 ∉ s)
    (hlen : s.length < 2 ^ 32)
    (hapart : message + s.length < videoBase ∨ videoBase + 4000 ≤ message)
    : v.putStr message = some (s.foldl putChar v) :=
  putStr.go_eq hs h h0 hapart hlen

/-- After every byte the screen is that of the terminal, and nothing else was written to. -/
theorem screen_is_terminal (h : v.cursor < 2000)
    : ∃ t, v.Shows t
        ∧ (∀ s : List UInt8, (s.foldl putChar v).Shows (s.foldl Console.putChar t)
            ∧ (s.foldl putChar v).cursor < 2000
            ∧ SameOutside v.mem (s.foldl putChar v).mem videoBase (videoBase + 4000))
        ∧ ∀ message s, v.mem.strEq message s = true → 0 ∉ s → s.length < 2 ^ 32 →
            (message + s.length < videoBase ∨ videoBase + 4000 ≤ message) → v.putStr message
              = some (s.foldl putChar v) := by
  obtain ⟨t, hs⟩ := exists_shows h
  refine ⟨t, hs, ?_, fun message s hstr h0 hlen hapart => putStr_eq hs hstr h0 hlen hapart⟩
  intro s
  have hstep := @putChars_step v t s hs
  exact ⟨hstep.shows, hstep.shows.cursor_lt, hstep.same⟩

def lastCell
    : Vga := ⟨Mem.zero, 0, fun i => if i = 0x0e then 0x07 else if i = 0x0f then 0xcf else 0⟩

theorem screen_is_terminal_lastCell : ∃ t, lastCell.Shows t ∧ t.cursor.val = 1999
    ∧ ([65, 10].foldl putChar lastCell).Shows ([65, 10].foldl Console.putChar t) := by
  obtain ⟨t, hs, hrun, -⟩ := screen_is_terminal (show lastCell.cursor < 2000 by decide)
  refine ⟨t, hs, ?_, (hrun [65, 10]).1⟩
  rw [← hs.cursor]
  decide

end Run

end Vga

end RogOS
