import RogOS.Device.Impl.Keyboard
import RogOS.Device.IoqueueFifo
import Mathlib.Data.Fintype.Basic

/-!
The states of the modifiers against the keys that are held.
-/

namespace RogOS

def rowChar (row : UInt8 × UInt8) (shift ctrl caps : Bool) : Option UInt8 :=
  let upper := if 97 ≤ row.1 && row.1 ≤ 122 then shift != caps else shift
  let c := if upper then row.2 else row.1
  if c = 0 then none else some (if ctrl && (c == 108 || c == 117) then c - 97 else c)

def Key.char (k : Key) (kbd : Keyboard) : Option UInt8 :=
  if k.ext then none
  else rowChar (keymap.getD k.code.toNat (0, 0)) kbd.shiftStatus kbd.ctrlStatus kbd.capsLockStatus

namespace Key

def isShift (k : Key) : Bool := k = shiftL || k = shiftR

def isCtrl (k : Key) : Bool := k = ctrlL || k = ctrlR

def isAlt (k : Key) : Bool := k = altL || k = altR

variable {k : Key}

theorem isShift_iff : k.isShift = true ↔ k = shiftL ∨ k = shiftR := by simp [isShift]

theorem isCtrl_iff : k.isCtrl = true ↔ k = ctrlL ∨ k = ctrlR := by simp [isCtrl]

theorem isAlt_iff : k.isAlt = true ↔ k = altL ∨ k = altR := by simp [isAlt]

theorem isShift_apart (h : k.isShift = true)
    : k.isCtrl = false ∧ k.isAlt = false ∧ k ≠ capsLock := by
  obtain rfl | rfl := isShift_iff.mp h
  . decide
  . decide

theorem isCtrl_apart (h : k.isCtrl = true)
    : k.isShift = false ∧ k.isAlt = false ∧ k ≠ capsLock := by
  obtain rfl | rfl := isCtrl_iff.mp h
  . decide
  . decide

end Key

section Codes

theorem forall_code {P : UInt8 → Prop} (h : ∀ n : Fin 128, P (UInt8.ofNat n)) {c : UInt8}
    (hc : c < 0x80) : P c := by
  have hlt : c.toNat < 128 := UInt8.lt_iff_toNat_lt.mp hc
  have hcode := h ⟨c.toNat, hlt⟩
  rw [UInt8.ofNat_toNat] at hcode
  exact hcode

namespace Key

variable {k k' : Key} {b : UInt8}

def merge (k : Key) (b : UInt8) : UInt16 := if k.ext then 0xe000 ||| b.toUInt16 else b.toUInt16

def scancode (k : Key) : UInt16 := k.merge k.code

theorem toNat_scancode : k.scancode.toNat = (if k.ext then 0xe000 else 0) + k.code.toNat := by
  unfold scancode merge
  split
  . exact forall_code (P := fun c => (0xe000 ||| c.toUInt16).toNat = 0xe000 + c.toNat)
      (by decide) k.lt
  . rw [UInt8.toNat_toUInt16, Nat.zero_add]

theorem scancode_inj : k.scancode = k'.scancode ↔ k = k' := by
  constructor
  . intro h
    have hnat := congrArg UInt16.toNat h
    rw [toNat_scancode, toNat_scancode] at hnat
    have hk : k.code.toNat < 128 := UInt8.lt_iff_toNat_lt.mp k.lt
    have hk' : k'.code.toNat < 128 := UInt8.lt_iff_toNat_lt.mp k'.lt
    obtain ⟨ext, code, _, _, _⟩ := k
    obtain ⟨ext', code', _, _, _⟩ := k'
    cases ext <;> cases ext' <;> simp only [Bool.false_eq_true, ↓reduceIte] at hnat hk hk' <;>
      first
      | omega
      | (have hcode : code = code' := UInt8.toNat_inj.mp (by omega)
         subst hcode
         rfl)
  . rintro rfl
    rfl

theorem scancode_isCtrl : k.scancode = ctrlLMake ∨ k.scancode = ctrlRMake ↔ k.isCtrl = true := by
  rw [isCtrl_iff]
  exact or_congr (@scancode_inj k ctrlL) (@scancode_inj k ctrlR)

theorem scancode_isShift
    : k.scancode = shiftLMake ∨ k.scancode = shiftRMake ↔ k.isShift = true := by
  rw [isShift_iff]
  exact or_congr (@scancode_inj k shiftL) (@scancode_inj k shiftR)

theorem scancode_isAlt : k.scancode = altLMake ∨ k.scancode = altRMake ↔ k.isAlt = true := by
  rw [isAlt_iff]
  exact or_congr (@scancode_inj k altL) (@scancode_inj k altR)

theorem code_ne : k.code ≠ 0xe0 := by
  intro h
  have hlt := k.lt
  rw [h] at hlt
  contradiction

theorem break_ne : k.code ||| 0x80 ≠ 0xe0 := by
  intro h
  apply k.ne
  exact forall_code (P := fun c => c ||| 0x80 = 0xe0 → c = 0x60) (by decide) k.lt h

theorem make_bit : k.scancode &&& 0x0080 = 0 := by
  unfold scancode merge
  split
  . exact forall_code (P := fun c => (0xe000 ||| c.toUInt16) &&& 0x0080 = 0) (by decide) k.lt
  . exact forall_code (P := fun c => c.toUInt16 &&& 0x0080 = 0) (by decide) k.lt

theorem break_bit : k.merge (k.code ||| 0x80) &&& 0x0080 ≠ 0 := by
  unfold merge
  split
  . exact forall_code (P := fun c => (0xe000 ||| (c ||| 0x80).toUInt16) &&& 0x0080 ≠ 0)
      (by decide) k.lt
  . exact forall_code (P := fun c => (c ||| 0x80).toUInt16 &&& 0x0080 ≠ 0) (by decide) k.lt

theorem break_make : k.merge (k.code ||| 0x80) &&& 0xff7f = k.scancode := by
  unfold scancode merge
  split
  . exact forall_code (P := fun c => (0xe000 ||| (c ||| 0x80).toUInt16) &&& 0xff7f
      = 0xe000 ||| c.toUInt16) (by decide) k.lt
  . exact forall_code (P := fun c => (c ||| 0x80).toUInt16 &&& 0xff7f = c.toUInt16) (by decide) k.lt

end Key

theorem rowChar_eq {shift ctrl caps : Bool} {c : UInt8} (hc : c < 0x80)
    : rowChar (keymap.getD c.toNat (0, 0)) shift ctrl caps
        =
      if (0 < c.toUInt16 ∧ c.toUInt16 < 0x3b)
        ∧ curChar c.toUInt16 (shiftColumn c.toUInt16 shift caps) ≠ 0 then
        some (shortcut ctrl (curChar c.toUInt16 (shiftColumn c.toUInt16 shift caps)))
      else
        none :=
  forall_code (P := fun c =>
    ∀ shift ctrl caps : Bool, rowChar (keymap.getD c.toNat (0, 0)) shift ctrl caps
    = if (0 < c.toUInt16 ∧ c.toUInt16 < 0x3b)
        ∧ curChar c.toUInt16 (shiftColumn c.toUInt16 shift caps) ≠ 0 then
        some (shortcut ctrl (curChar c.toUInt16 (shiftColumn c.toUInt16 shift caps)))
      else none) (by decide +kernel) hc shift ctrl caps

end Codes

namespace Keyboard

def press (kbd : Keyboard) (k : Key) : Keyboard :=
  { kbd with
    ctrlStatus := kbd.ctrlStatus || k.isCtrl
    shiftStatus := kbd.shiftStatus || k.isShift
    capsLockStatus := if k = .capsLock then !kbd.capsLockStatus else kbd.capsLockStatus }

def release (kbd : Keyboard) (k : Key) : Keyboard :=
  { kbd with
    ctrlStatus := kbd.ctrlStatus && !k.isCtrl
    shiftStatus := kbd.shiftStatus && !k.isShift
    altStatus := kbd.altStatus && !k.isAlt }

end Keyboard

namespace KbdSys

open Cmd

variable {T : Type} [DecidableEq T] {s : KbdSys T} {t : T} {k : Key} {b : UInt8}

section Handler

theorem interrupts_singleton : interrupts t [b] = intrKeyboardHandler t b := by
  unfold interrupts interrupts
  exact bind_pure_unit

theorem handler_run {s' : KbdSys T} {scancode : UInt16} (hb : b.toUInt16 ≠ 0xe0)
    (hcode : (if s'.kbd.extScancode then 0xe000 ||| b.toUInt16 else b.toUInt16) = scancode)
    (hs' : { s' with kbd.extScancode := false } = s)
    : (intrKeyboardHandler t b).run s'
        =
      (if scancode &&& 0x0080 ≠ 0 then breakHandler scancode
        else makeHandler t scancode).run s := by
  have hset : (setKbd fun kbd => { kbd with extScancode := false }).run s' = .ok ((), s) := by
    rw [← hs']
    rfl
  unfold intrKeyboardHandler
  rw [exec_get_bind, if_neg hb]
  dsimp only
  rw [hcode, exec_bind hset]

theorem interrupts_run (hb : b.toUInt16 ≠ 0xe0) (hext : s.kbd.extScancode = false)
    : (interrupts t ((if k.ext then [0xe0] else []) ++ [b])).run s
        =
      (if k.merge b &&& 0x0080 ≠ 0 then breakHandler (k.merge b)
        else makeHandler t (k.merge b)).run s := by
  have hs : ({ s with kbd.extScancode := false } : KbdSys T) = s := by
    rw [← hext]
  cases hk : k.ext with
  | false =>
    have hmerge : k.merge b = b.toUInt16 := by
      unfold Key.merge
      rw [hk]
      rfl
    rw [hmerge, if_neg Bool.false_ne_true, List.nil_append, interrupts_singleton]
    apply handler_run hb _ hs
    rw [hext]
    rfl
  | true =>
    have hmerge : k.merge b = 0xe000 ||| b.toUInt16 := by
      unfold Key.merge
      rw [hk]
      rfl
    have hfirst : (intrKeyboardHandler t 0xe0).run s
        = .ok ((), { s with kbd.extScancode := true }) := rfl
    rw [hmerge, if_pos rfl, List.singleton_append]
    unfold interrupts
    rw [exec_bind hfirst, interrupts_singleton]
    exact handler_run hb rfl hs

omit [DecidableEq T] in
theorem setKbd_run {f : Keyboard → Keyboard}
    : (setKbd f).run s = .ok ((), { s with kbd := f s.kbd }) := rfl

omit [DecidableEq T] in
theorem breakHandler_run {scancode : UInt16} (hmake : scancode &&& 0xff7f = k.scancode)
    : (breakHandler scancode).run s = .ok ((), { s with kbd := s.kbd.release k }) := by
  unfold breakHandler Keyboard.release
  dsimp only
  rw [hmake]
  simp only [Key.scancode_isCtrl, Key.scancode_isShift, Key.scancode_isAlt]
  split
  . next hc =>
    obtain ⟨hs, ha, -⟩ := Key.isCtrl_apart hc
    rw [setKbd_run, hc, hs, ha]
    simp
  . next hc =>
    rw [Bool.not_eq_true] at hc
    split
    . next hs =>
      obtain ⟨-, ha, -⟩ := Key.isShift_apart hs
      rw [setKbd_run, hc, hs, ha]
      simp
    . next hs =>
      rw [Bool.not_eq_true] at hs
      split
      . next ha =>
        rw [setKbd_run, hc, hs, ha]
        simp
      . next ha =>
        rw [Bool.not_eq_true] at ha
        rw [hc, hs, ha, Cmd.exec_pure]
        simp

theorem break_run (hext : s.kbd.extScancode = false)
    : (interrupts t k.breakCode).run s = .ok ((), { s with kbd := s.kbd.release k }) := by
  have hb : (k.code ||| 0x80).toUInt16 ≠ 0xe0 := fun h => k.break_ne (UInt8.toUInt16_inj.mp h)
  unfold Key.breakCode
  rw [interrupts_run hb hext, if_pos k.break_bit]
  exact breakHandler_run k.break_make

omit [DecidableEq T] in
theorem modifier_run
    : (do
        if k.scancode = ctrlLMake ∨ k.scancode = ctrlRMake then
          setKbd fun kbd => { kbd with ctrlStatus := true }
        else if k.scancode = shiftLMake ∨ k.scancode = shiftRMake then
          setKbd fun kbd => { kbd with shiftStatus := true }
        else if k.scancode = capsLockMake then
          setKbd fun kbd => { kbd with capsLockStatus := !kbd.capsLockStatus } : KbdM T Unit).run s
        =
      .ok ((), { s with kbd := s.kbd.press k }) := by
  have hcaps : k.scancode = capsLockMake ↔ k = .capsLock := @Key.scancode_inj k .capsLock
  unfold Keyboard.press
  simp only [Key.scancode_isCtrl, Key.scancode_isShift, hcaps]
  split
  . next hc =>
    obtain ⟨hs, -, hne⟩ := Key.isCtrl_apart hc
    rw [setKbd_run, hc, hs, if_neg hne]
    simp
  . next hc =>
    rw [Bool.not_eq_true] at hc
    split
    . next hs =>
      obtain ⟨-, -, hne⟩ := Key.isShift_apart hs
      rw [setKbd_run, hc, hs, if_neg hne]
      simp
    . next hs =>
      rw [Bool.not_eq_true] at hs
      rw [hc, hs, Bool.or_false, Bool.or_false]
      split
      . exact setKbd_run
      . rfl

theorem makeHandler_row (hk : k.ext = false)
    : (makeHandler t k.scancode).run s
        =
      match k.char s.kbd with
      | none => .ok ((), { s with kbd := s.kbd.press k })
      | some c =>
        if ioqueueFull s.kbdBuf.ioq then
          .ok ((), s)
        else
          (do let _ ← onBuf (ioqueuePutchar t c) : KbdM T Unit).run s := by
  have hcode : k.code.toUInt16 = k.scancode := by
    unfold Key.scancode Key.merge
    rw [hk]
    rfl
  have hmask : k.scancode &&& 0x00ff = k.scancode := by
    rw [← hcode]
    exact forall_code (P := fun c => c.toUInt16 &&& 0x00ff = c.toUInt16) (by decide) k.lt
  have hone : ¬ (k.scancode = altRMake ∨ k.scancode = ctrlRMake) := by
    rw [← hcode]
    exact forall_code (P := fun c => ¬ (c.toUInt16 = altRMake ∨ c.toUInt16 = ctrlRMake))
      (by decide) k.lt
  have hchar : k.char s.kbd = rowChar (keymap.getD k.code.toNat (0, 0)) s.kbd.shiftStatus
      s.kbd.ctrlStatus
      s.kbd.capsLockStatus := by
    unfold Key.char
    rw [hk]
    rfl
  rw [hchar, rowChar_eq k.lt, hcode]
  unfold makeHandler
  rw [exec_get_bind]
  dsimp only
  rw [hmask]
  by_cases hrange : 0 < k.scancode ∧ k.scancode < 0x3b
  . have hsize : k.scancode.toNat < keymap.size := UInt16.lt_iff_toNat_lt.mp hrange.2
    rw [if_pos (.inl hrange), exec_assert_bind, if_pos hsize]
    generalize curChar k.scancode (shiftColumn k.scancode s.kbd.shiftStatus s.kbd.capsLockStatus)
        = c
    by_cases hc : c = 0
    . have hnone : ¬ ((0 < k.scancode ∧ k.scancode < 0x3b) ∧ c ≠ 0) := fun h => h.2 hc
      rw [if_neg hnone, if_neg (not_not_intro hc)]
      exact modifier_run
    . rw [if_pos (And.intro hrange hc), if_pos hc]
      dsimp only
      cases ioqueueFull s.kbdBuf.ioq with
      | false => rfl
      | true => rfl
  . -- the modifiers of one byte are in the keymap
    have hne : ∀ k' : Key, 0 < k'.scancode ∧ k'.scancode < 0x3b → k ≠ k' := by
      rintro k' hk' rfl
      exact hrange hk'
    have hpress : s.kbd.press k = s.kbd := by
      have hctrl : k.isCtrl = false := by
        rw [← Bool.not_eq_true, Key.isCtrl_iff, not_or]
        refine ⟨hne _ (by decide), ?_⟩
        rintro rfl
        contradiction
      have hshift : k.isShift = false := by
        rw [← Bool.not_eq_true, Key.isShift_iff, not_or]
        exact ⟨hne _ (by decide), hne _ (by decide)⟩
      unfold Keyboard.press
      rw [hctrl, hshift, if_neg (hne .capsLock (by decide)), Bool.or_false, Bool.or_false]
    rw [if_neg fun h : _ ∨ _ => h.elim hrange hone, if_neg fun h : _ ∧ _ => hrange h.1, hpress]
    rfl

theorem makeHandler_right {scancode : UInt16} {left : Key}
    (hin : scancode = altRMake ∨ scancode = ctrlRMake)
    (hmask : scancode &&& 0x00ff = left.scancode) (hsize : left.scancode.toNat < keymap.size)
    (hzero : ∀ shift, curChar left.scancode shift = 0)
    : (makeHandler t scancode).run s = .ok ((), { s with kbd := s.kbd.press left }) := by
  unfold makeHandler
  rw [exec_get_bind, if_pos (.inr hin)]
  dsimp only
  rw [hmask, exec_assert_bind, if_pos hsize, if_neg (not_not_intro (hzero _))]
  exact modifier_run

theorem makeHandler_ext (hk : k.ext = true)
    : (makeHandler t k.scancode).run s = .ok ((), { s with kbd := s.kbd.press k }) := by
  by_cases hctrl : k = .ctrlR
  . subst hctrl
    exact @makeHandler_right _ _ _ _ _ .ctrlL (.inr rfl) rfl (by decide) (by decide)
  . have hpress : s.kbd.press k = s.kbd := by
      have hne : ∀ k' : Key, k'.ext = false → k ≠ k' := by
        rintro k' hk' rfl
        rw [hk] at hk'
        contradiction
      have h1 : k.isCtrl = false := by
        rw [← Bool.not_eq_true, Key.isCtrl_iff, not_or]
        exact ⟨hne _ rfl, hctrl⟩
      have h2 : k.isShift = false := by
        rw [← Bool.not_eq_true, Key.isShift_iff, not_or]
        exact ⟨hne _ rfl, hne _ rfl⟩
      unfold Keyboard.press
      rw [h1, h2, if_neg (hne .capsLock rfl), Bool.or_false, Bool.or_false]
    by_cases halt : k = .altR
    . subst halt
      exact @makeHandler_right _ _ _ _ _ .altL (.inl rfl) rfl (by decide) (by decide)
    . have hcode := @Key.toNat_scancode k
      rw [if_pos hk] at hcode
      have hrange : ¬ (0 < k.scancode ∧ k.scancode < 0x3b) := by
        intro h
        have hlt : k.scancode.toNat < 0x3b := UInt16.lt_iff_toNat_lt.mp h.2
        omega
      have h1 : k.scancode ≠ altRMake := fun h => halt (@Key.scancode_inj k .altR |>.mp h)
      have h2 : k.scancode ≠ ctrlRMake := fun h => hctrl (@Key.scancode_inj k .ctrlR |>.mp h)
      unfold makeHandler
      rw [hpress, exec_get_bind, if_neg fun h => h.elim hrange fun h => h.elim h1 h2]
      rfl

theorem make_run (hext : s.kbd.extScancode = false)
    : (interrupts t k.makeCode).run s
        =
      match k.char s.kbd with
      | none => .ok ((), { s with kbd := s.kbd.press k })
      | some c =>
        if ioqueueFull s.kbdBuf.ioq then
          .ok ((), s)
        else
          (do let _ ← onBuf (ioqueuePutchar t c) : KbdM T Unit).run s := by
  have hb : k.code.toUInt16 ≠ 0xe0 := fun h => k.code_ne (UInt8.toUInt16_inj.mp h)
  have hmake : (interrupts t k.makeCode).run s = (makeHandler t k.scancode).run s := by
    have hrun := interrupts_run (t := t) (k := k) hb hext
    rw [if_neg (not_not_intro (show k.merge k.code &&& 0x0080 = 0 from k.make_bit))] at hrun
    exact hrun
  rw [hmake]
  cases hk : k.ext with
  | false => exact makeHandler_row hk
  | true =>
    have hchar : k.char s.kbd = none := by
      unfold Key.char
      rw [if_pos hk]
    rw [makeHandler_ext hk, hchar]

end Handler

end KbdSys

section Queue

variable {T : Type} [DecidableEq T] {t : T} {c : UInt8} {q : IoqState T}

structure IoqState.Room (q : IoqState T) : Prop where
  head : 0 ≤ q.ioq.head ∧ q.ioq.head < bufsize
  tail : 0 ≤ q.ioq.tail ∧ q.ioq.tail < bufsize
  room : ioqueueFull q.ioq = false
  consumer : ∀ u, q.ioq.waiter .consumer = some u → (q.status u).stopped = true

theorem wakeupAny_returns {side : IoqSide}
    (h : ∀ u, q.ioq.waiter side = some u → (q.status u).stopped = true)
    : ∃ q', (wakeupAny side).run q = .ok ((), q') := by
  unfold wakeupAny
  rw [Cmd.exec_get_bind]
  cases hw : q.ioq.waiter side with
  | none => exact ⟨q, rfl⟩
  | some u =>
    have hrun : (Ioqueue.onStatus (threadUnblock u)).run q
        = .ok ((), { q with status := Function.update q.status u .ready }) := by
      apply Cmd.exec_zoom
      unfold threadUnblock
      rw [Cmd.exec_get_bind, Cmd.exec_assert_bind, if_pos (h u hw)]
      rfl
    rw [if_pos (by simp)]
    unfold wakeup
    rw [Cmd.exec_get_bind, hw]
    dsimp only
    rw [Cmd.exec_bind hrun]
    exact ⟨_, rfl⟩

theorem putchar_run (h : q.Room)
    : ∃ q', (ioqueuePutchar t c).run q = .ok (.put c, q') ∧ q'.ioq.bytes = q.ioq.bytes ++ [c] := by
  generalize hstored : { q with
    ioq.buf := Function.update q.ioq.buf q.ioq.head.toNat c
    ioq.head := nextPos q.ioq.head } = stored
  have hwaiter : ∀ u, stored.ioq.waiter .consumer = some u → (stored.status u).stopped = true := by
    rw [← hstored]
    exact h.consumer
  obtain ⟨q', hwake⟩ := wakeupAny_returns hwaiter
  obtain ⟨hsame, -⟩ := wakeupAny_run hwake
  have hstore : (storeByte c).run q = .ok ((), q') := by
    unfold storeByte
    rw [Cmd.exec_get_bind, Cmd.exec_assert_bind, if_pos h.head, ← hwake, ← hstored]
    rfl
  have hnot : ¬ ioqueueFull q.ioq = true := by
    rw [h.room]
    exact Bool.false_ne_true
  refine ⟨q', ?_, ?_⟩
  . unfold ioqueuePutchar
    rw [Cmd.exec_get_bind, if_neg hnot, Cmd.exec_bind hstore]
    rfl
  . have hfull := (ioqueueFull_eq_false h.head.1).mp h.room
    have hput := @Ioqueue.bytes_put T q.ioq stored.ioq c h.head h.tail hfull (by rw [← hstored]) (by
      rw [← hstored]
      exact nextPos_eq h.head.1) (by rw [← hstored])
    rw [hsame.bytes_eq]
    exact hput.1

end Queue

section Pairs

variable {held : Key → Bool} {st : Bool} {a b k : Key}

theorem held_press (h : st = true ↔ held a = true ∨ held b = true)
    : (st || (k = a || k = b)) = true
        ↔
      Function.update held k true a = true ∨ Function.update held k true b = true := by
  by_cases ha : k = a
  . subst ha
    simp
  . by_cases hb : k = b
    . subst hb
      simp
    . rw [Function.update_of_ne (Ne.symm ha), Function.update_of_ne (Ne.symm hb), ← h]
      simp [ha, hb]

theorem held_release (hab : a ≠ b) (h : st = true ↔ held a = true ∨ held b = true)
    : ((st && !(k = a || k = b)) = true
        ↔ Function.update held k false a = true ∨ Function.update held k false b = true)
        ↔
      (k = a → held b = false) ∧ (k = b → held a = false) := by
  by_cases ha : k = a
  . subst ha
    rw [Function.update_self, Function.update_of_ne (Ne.symm hab)]
    simp [hab]
  . by_cases hb : k = b
    . subst hb
      rw [Function.update_self, Function.update_of_ne hab]
      simp [ha]
    . rw [Function.update_of_ne (Ne.symm ha), Function.update_of_ne (Ne.symm hb), ← h]
      simp [ha, hb]

end Pairs

namespace KbdSys

open Cmd

variable {T : Type} [DecidableEq T] {s s' : KbdSys T} {t : T} {k : Key} {op : KbdOp T}

structure Tracks (s : KbdSys T) : Prop where
  shift : s.kbd.shiftStatus = true ↔ s.held .shiftL = true ∨ s.held .shiftR = true
  ctrl : s.kbd.ctrlStatus = true ↔ s.held .ctrlL = true ∨ s.held .ctrlR = true
  alt : s.kbd.altStatus = true ↔ s.held .altL = true ∨ s.held .altR = true
  caps : s.kbd.capsLockStatus = true ↔ s.capsPresses % 2 = 1

structure Sound (s : KbdSys T) : Prop extends s.Tracks where
  press : ∀ t k c, s.held k = false → k.char s.kbd = some c → s.kbdBuf.Room → ∃ s',
    (exec (.press t k)).run s = .ok ((), s')
    ∧ s'.kbdBuf.ioq.bytes = s.kbdBuf.ioq.bytes ++ [c]
  silent : ∀ t k, s.held k = false → k.char s.kbd = none → ∃ s', (exec (.press t k)).run s
    = .ok ((), s')
    ∧ s'.kbdBuf = s.kbdBuf
  release : ∀ t k, s.held k = true → ∃ s', (exec (.release t k)).run s = .ok ((), s')
    ∧ s'.kbdBuf = s.kbdBuf

def Single (s : KbdSys T) : KbdOp T → Prop
  | .press _ k => k ≠ .altL ∧ k ≠ .altR
  | .release _ k =>
    ((k = .shiftL → s.held .shiftR = false) ∧ (k = .shiftR → s.held .shiftL = false))
    ∧ (k = .ctrlL → s.held .ctrlR = false) ∧ (k = .ctrlR → s.held .ctrlL = false)
  | .tasks _ => True

structure Inv (s : KbdSys T) : Prop extends s.Tracks where
  ext : s.kbd.extScancode = false
  noAlt : s.held .altL = false ∧ s.held .altR = false

omit [DecidableEq T] in
theorem start_inv {kbdBuf : IoqState T} : (start kbdBuf).Inv where
  shift := by simp [start]
  ctrl := by simp [start]
  alt := by simp [start]
  caps := by simp [start]
  ext := rfl
  noAlt := ⟨rfl, rfl⟩

theorem press_of_char {kbd : Keyboard} {c : UInt8} (h : k.char kbd = some c)
    : kbd.press k = kbd := by
  have hnone : ∀ k' : Key, (∀ shift ctrl caps alt ext, k'.char ⟨ctrl, shift, alt, caps, ext⟩ = none)
      → k ≠ k' := by
    rintro k' hk' rfl
    rw [hk'] at h
    contradiction
  have hctrl : k.isCtrl = false := by
    rw [← Bool.not_eq_true, Key.isCtrl_iff, not_or]
    exact ⟨hnone _ (by decide), hnone _ (by decide)⟩
  have hshift : k.isShift = false := by
    rw [← Bool.not_eq_true, Key.isShift_iff, not_or]
    exact ⟨hnone _ (by decide), hnone _ (by decide)⟩
  unfold Keyboard.press
  rw [hctrl, hshift, if_neg (hnone .capsLock (by decide)), Bool.or_false, Bool.or_false]

structure Pressed (s s' : KbdSys T) (k : Key) : Prop where
  kbd : s'.kbd = s.kbd.press k
  held : s'.held = Function.update s.held k true
  capsPresses : s'.capsPresses = if k = .capsLock then s.capsPresses + 1 else s.capsPresses

theorem press_spec (hext : s.kbd.extScancode = false)
    : (k.char s.kbd = none → ∃ s', (exec (.press t k)).run s = .ok ((), s') ∧ s'.kbdBuf = s.kbdBuf)
        ∧ (∀ c, k.char s.kbd = some c → s.kbdBuf.Room → ∃ s', (exec (.press t k)).run s
            = .ok ((), s')
          ∧ s'.kbdBuf.ioq.bytes = s.kbdBuf.ioq.bytes ++ [c])
        ∧ ∀ s', (exec (.press t k)).run s = .ok ((), s') → s.Pressed s' k := by
  have hmake := make_run (t := t) (k := k) hext
  unfold exec
  cases hc : k.char s.kbd with
  | none =>
    rw [hc] at hmake
    refine ⟨?_, ?_, ?_⟩
    . intro _
      exact ⟨_, exec_bind hmake, rfl⟩
    . intro c h
      contradiction
    . intro s' hs'
      rw [exec_bind hmake] at hs'
      cases hs'
      exact ⟨rfl, rfl, rfl⟩
  | some c =>
    have hpress := press_of_char hc
    rw [hc] at hmake
    dsimp only at hmake
    refine ⟨?_, ?_, ?_⟩
    . intro h
      contradiction
    . intro c' hc' hroom
      cases hc'
      obtain ⟨q, hput, hbytes⟩ := putchar_run (t := t) (c := c) hroom
      have hbuf : (onBuf (ioqueuePutchar t c)).run s = .ok (.put c, { s with kbdBuf := q }) :=
        exec_zoom hput
      rw [hroom.room, if_neg Bool.false_ne_true, exec_bind hbuf] at hmake
      exact ⟨_, exec_bind hmake, hbytes⟩
    . intro s' hs'
      rw [bind_run] at hs'
      obtain ⟨_, s₁, h₁, h₂⟩ := hs'
      cases h₂
      have hsame : s₁.kbd = s.kbd ∧ s₁.held = s.held ∧ s₁.capsPresses = s.capsPresses := by
        rw [hmake] at h₁
        split at h₁
        . cases h₁
          exact ⟨rfl, rfl, rfl⟩
        . rw [bind_run] at h₁
          obtain ⟨_, s₂, h₂, h₃⟩ := h₁
          cases h₃
          unfold onBuf at h₂
          rw [zoom_run] at h₂
          obtain ⟨q, -, hs₂⟩ := h₂
          dsimp only at hs₂
          rw [hs₂]
          exact ⟨rfl, rfl, rfl⟩
      refine ⟨hsame.1.trans hpress.symm, ?_, ?_⟩
      . dsimp only
        rw [hsame.2.1]
      . dsimp only
        rw [hsame.2.2]

theorem release_run (hext : s.kbd.extScancode = false)
    : (exec (.release t k)).run s
        = .ok ((), { s with kbd := s.kbd.release k, held := Function.update s.held k false }) := by
  unfold exec
  rw [exec_bind (break_run hext)]
  rfl

theorem Tracks.sound (h : s.Tracks) (hext : s.kbd.extScancode = false) : s.Sound where
  toTracks := h
  press := fun _ _ c _ hc hroom => (press_spec hext).2.1 c hc hroom
  silent := fun _ _ _ hc => (press_spec hext).1 hc
  release := fun _ _ _ => ⟨_, release_run hext, rfl⟩

structure Stepped (s s' : KbdSys T) (op : KbdOp T) : Prop where
  ext : s'.kbd.extScancode = false
  tracks : s'.Tracks ↔ s.Single op
  noAlt : s.Single op → s'.held .altL = false ∧ s'.held .altR = false

omit [DecidableEq T] in
theorem Inv.altStatus (h : s.Inv) : s.kbd.altStatus = false := by
  rw [← Bool.not_eq_true, h.alt, h.noAlt.1, h.noAlt.2]
  simp

omit [DecidableEq T] in
theorem Inv.pressed (h : s.Inv) (hp : s.Pressed s' k) : s.Stepped s' (.press t k) := by
  have halt : s'.kbd.altStatus = false := by
    rw [hp.kbd]
    exact h.altStatus
  have hnoAlt : k ≠ .altL ∧ k ≠ .altR → s'.held .altL = false ∧ s'.held .altR = false := by
    rintro ⟨h1, h2⟩
    rw [hp.held, Function.update_of_ne (Ne.symm h1), Function.update_of_ne (Ne.symm h2)]
    exact h.noAlt
  refine ⟨?_, ⟨?_, ?_⟩, hnoAlt⟩
  . rw [hp.kbd]
    exact h.ext
  . intro ht
    have hnot : ¬ (s'.held .altL = true ∨ s'.held .altR = true) := by
      rw [← ht.alt, halt]
      exact Bool.false_ne_true
    rw [hp.held] at hnot
    constructor
    . rintro rfl
      exact hnot (.inl (Function.update_self ..))
    . rintro rfl
      exact hnot (.inr (Function.update_self ..))
  . intro hne
    constructor
    . rw [hp.kbd, hp.held]
      exact held_press h.shift
    . rw [hp.kbd, hp.held]
      exact held_press h.ctrl
    . rw [halt, (hnoAlt hne).1, (hnoAlt hne).2]
      simp
    . have hcaps := h.caps
      rw [hp.kbd, hp.capsPresses]
      unfold Keyboard.press
      dsimp only
      split
      . rw [Bool.not_eq_true', ← Bool.not_eq_true, hcaps]
        omega
      . exact hcaps

omit [DecidableEq T] in
theorem Inv.released (h : s.Inv) (ha : s.held k = true)
    : s.Stepped { s with kbd := s.kbd.release k, held := Function.update s.held k false }
        (.release t k) := by
  have hnoAlt : Function.update s.held k false .altL = false ∧ Function.update s.held k false .altR
      = false := by
    have hne : ∀ k', s.held k' = false → k' ≠ k := by
      rintro k' hk' rfl
      rw [ha] at hk'
      contradiction
    rw [Function.update_of_ne (hne _ h.noAlt.1), Function.update_of_ne (hne _ h.noAlt.2)]
    exact h.noAlt
  have hshift := held_release (k := k) (by decide) h.shift
  have hctrl := held_release (k := k) (by decide) h.ctrl
  refine ⟨h.ext, ⟨?_, ?_⟩, fun _ => hnoAlt⟩
  . intro ht
    exact ⟨hshift.mp ht.shift, hctrl.mp ht.ctrl⟩
  . rintro ⟨h1, h2⟩
    refine ⟨hshift.mpr h1, hctrl.mpr h2, ?_, h.caps⟩
    unfold Keyboard.release
    dsimp only
    rw [h.altStatus, hnoAlt.1, hnoAlt.2]
    simp

theorem Inv.step (h : s.Inv) (ha : s.Allowed op) (hrun : (exec op).run s = .ok ((), s'))
    : s.Stepped s' op := by
  cases op with
  | press t k => exact h.pressed ((press_spec h.ext).2.2 s' hrun)
  | release t k =>
    rw [release_run h.ext] at hrun
    cases hrun
    exact h.released ha
  | tasks q =>
    cases hrun
    exact ⟨h.ext, iff_of_true ⟨h.shift, h.ctrl, h.alt, h.caps⟩ trivial, fun _ => h.noAlt⟩

theorem Inv.sound (h : s.Inv) : s.Sound := h.toTracks.sound h.ext

abbrev Reach (guard : KbdSys T → KbdOp T → Prop)
    : KbdSys T → KbdSys T → Prop := Cmd.Reach exec guard

end KbdSys

open KbdSys

/--
The states are those of the keys in every run in which no alt key is pressed, and no shift or ctrl
key released while the other one is held. A step that does not meet the condition makes a state
wrong.
-/
theorem modifiers_sound {T : Type} [DecidableEq T] {kbdBuf : IoqState T} {s : KbdSys T}
    (h : KbdSys.Reach (fun s op => s.Allowed op ∧ s.Single op) (KbdSys.start kbdBuf) s)
    : s.Sound ∧ ∀ op s', s.Allowed op → (KbdSys.exec op).run s = .ok ((), s')
        → (s'.Sound ↔ s.Single op) := by
  have hinv : s.Inv := by
    refine Cmd.Reach.invariant (P := KbdSys.Inv) ?_ start_inv h
    rintro s op _ s' hs ⟨ha, hsingle⟩ hrun
    have hstep := hs.step ha hrun
    exact ⟨hstep.tracks.mpr hsingle, hstep.ext, hstep.noAlt hsingle⟩
  refine ⟨hinv.sound, ?_⟩
  intro op s' ha hrun
  have hstep := hinv.step ha hrun
  rw [← hstep.tracks]
  exact ⟨fun hs => hs.toTracks, fun ht => ht.sound hstep.ext⟩

section Typing

instance KbdSys.decidableAllowed {T : Type} {s : KbdSys T} {op : KbdOp T}
    : Decidable (s.Allowed op) :=
  match op with
  | .press _ k => inferInstanceAs (Decidable (s.held k = false))
  | .release _ k => inferInstanceAs (Decidable (s.held k = true))
  | .tasks _ => inferInstanceAs (Decidable True)

instance KbdSys.decidableSingle {T : Type} {s : KbdSys T} {op : KbdOp T}
    : Decidable (s.Single op) :=
  match op with
  | .press _ k => inferInstanceAs (Decidable (k ≠ .altL ∧ k ≠ .altR))
  | .release _ k =>
    inferInstanceAs
      (Decidable (((k = .shiftL → s.held .shiftR = false) ∧ (k = .shiftR → s.held .shiftL = false))
    ∧ (k = .ctrlL → s.held .ctrlR = false) ∧ (k = .ctrlR → s.held .ctrlL = false)))
  | .tasks _ => inferInstanceAs (Decidable True)

def newKbd : KbdSys Unit := KbdSys.start (IoqSys.start (fun _ => .running) Mem.zero).st

def keyA : Key := ⟨false, 0x1e, by decide, by decide, by decide⟩

def typeA
    : List (KbdOp Unit) :=
        [.press () .shiftL, .press () keyA, .release () keyA, .release () .shiftL]

theorem modifiers_sound_typeA
    : (Cmd.afterAll KbdSys.exec typeA newKbd).Sound
        ∧ ∀ op s', (Cmd.afterAll KbdSys.exec typeA newKbd).Allowed op →
          (KbdSys.exec op).run (Cmd.afterAll KbdSys.exec typeA newKbd) = .ok ((), s') →
          (s'.Sound ↔ (Cmd.afterAll KbdSys.exec typeA newKbd).Single op) :=
  modifiers_sound (Cmd.reach_of_returnsWhile (k := fun s op => decide (s.Allowed op ∧ s.Single op))
    (fun _ _ _ h => of_decide_eq_true h) (by decide +kernel))

def twoShifts : List (KbdOp Unit) := [.press () .shiftL, .press () .shiftR, .release () .shiftR]

theorem not_modifiers_sound
    : ¬ ∀ s : KbdSys Unit, KbdSys.Reach KbdSys.Allowed newKbd s → s.Sound := by
  intro h
  have hreach : KbdSys.Reach KbdSys.Allowed newKbd (Cmd.afterAll KbdSys.exec twoShifts newKbd) :=
    Cmd.reach_of_returnsWhile (k := fun s op => decide (s.Allowed op)) (fun _ _ _ h =>
      of_decide_eq_true h)
      (by decide +kernel)
  have hshift := (h _ hreach).shift
  revert hshift
  decide +kernel

end Typing

end RogOS
