import RogOS.Device.Impl.IdeTransfer
import RogOS.Fs.Lemmas.Volume

/-!
The transfers of `ide_read` and `ide_write` in groups of 256 sectors are one long transfer.
-/

namespace RogOS

namespace Pio

open Cmd

variable {s : Pio} {devNo : UInt8} {lba buf secCnt secsDone : UInt32} {c : IdeController} {n : Nat}

def isSlave (devNo : UInt8) : Bool := devNo = 1

section Words

theorem insw_run (hw : s.ctl.writing = false) (hn : n ≤ 65536) (hleft : 2 * n ≤ s.ctl.left)
    : (insw buf n).run s
        =
      .ok ((), ⟨{ s.ctl with pos := s.ctl.pos + 2 * n, left := s.ctl.left - 2 * n },
        s.ram.fill buf (2 * n) ((s.ctl.disk s.ctl.slave).shift s.ctl.pos)⟩) := by
  induction n generalizing s buf with
  | zero =>
    rw [Nat.mul_zero, Ram.fill_zero]
    rfl
  | succ n ih =>
    unfold insw
    rw [exec_get_bind, exec_assert_bind, if_pos ⟨hw, by omega⟩]
    change (insw (buf + 2) n).run
      (⟨s.ctl.next, s.ram.fill buf 2 ((s.ctl.disk s.ctl.slave).shift s.ctl.pos)⟩ : Pio) = _
    have hleft' : 2 * n ≤ s.ctl.next.left := by
      show 2 * n ≤ s.ctl.left - 2
      omega
    rw [ih (s := ⟨s.ctl.next, _⟩) hw (by omega) hleft']
    have hfill := @Ram.fill_fill s.ram buf 2 (2 * n) ((s.ctl.disk s.ctl.slave).shift s.ctl.pos)
      ((s.ctl.disk s.ctl.slave).shift (s.ctl.pos + 2)) (by omega) (fun i _ => by
        show _ = s.ctl.disk s.ctl.slave _
        rw [← Nat.add_assoc]
        rfl)
    rw [show 2 * (n + 1) = 2 + 2 * n by omega, ← hfill]
    unfold IdeController.next
    dsimp only
    rw [Nat.add_assoc, Nat.sub_sub]
    rfl

theorem outsw_run (hw : s.ctl.writing = true) (hleft : 2 * n ≤ s.ctl.left)
    : (outsw buf n).run s
        =
      .ok ((), ⟨{ s.ctl with
        disk := Function.update s.ctl.disk s.ctl.slave
          ((s.ctl.disk s.ctl.slave).blit s.ctl.pos (2 * n) (s.ram.view buf))
        pos := s.ctl.pos + 2 * n
        left := s.ctl.left - 2 * n }, s.ram⟩) := by
  induction n generalizing s buf with
  | zero =>
    have hblit : (s.ctl.disk s.ctl.slave).blit s.ctl.pos (2 * 0) (s.ram.view buf)
        = s.ctl.disk s.ctl.slave := by
      funext i
      apply Mem.blit_of_not_mem
      omega
    rw [hblit, Function.update_eq_self]
    rfl
  | succ n ih =>
    unfold outsw
    rw [exec_get_bind, exec_assert_bind, if_pos ⟨hw, by omega⟩]
    change (outsw (buf + 2) n).run (⟨(s.ctl.store (s.ram.view buf)).next, s.ram⟩ : Pio) = _
    have hleft' : 2 * n ≤ (s.ctl.store (s.ram.view buf)).next.left := by
      show 2 * n ≤ s.ctl.left - 2
      omega
    rw [ih (s := ⟨(s.ctl.store (s.ram.view buf)).next, _⟩) hw hleft']
    have hblit :=
      @Mem.blit_append (s.ctl.disk s.ctl.slave) (s.ram.view buf) (s.ram.view (buf + 2)) s.ctl.pos 2
        (2 * n)
      (fun i _ => Ram.view_add)
    unfold IdeController.next IdeController.store
    dsimp only
    rw [show 2 * (n + 1) = 2 + 2 * n by omega, Function.update_self, Function.update_idem, hblit,
      Nat.add_assoc, Nat.sub_sub]

end Words

section Command

def aimed (c : IdeController) (devNo : UInt8) (lba : UInt32) (secCnt : UInt8) : IdeController :=
  { c with
    sectCnt := secCnt
    lbaL := lba.toUInt8
    lbaM := (lba >>> 8).toUInt8
    lbaH := (lba >>> 16).toUInt8
    dev := regDevice devNo ||| (lba >>> 24).toUInt8 }

theorem selectSector_run {cnt : UInt8} (h : lba.toNat ≤ maxLba)
    : (selectSector devNo lba cnt).run s = .ok ((), ⟨aimed s.ctl devNo lba cnt, s.ram⟩) := by
  unfold selectSector
  rw [exec_assert_bind, if_pos h]
  rfl

theorem toNat_regDevice : (regDevice devNo).toNat % 16 = 0 := by
  unfold regDevice
  split <;> rfl

theorem regDevice_slave : (regDevice devNo &&& 0x10 != 0) = isSlave devNo := by
  unfold regDevice isSlave
  split
  . next h => exact (decide_eq_true h).symm
  . next h => exact (decide_eq_false h).symm

variable {cnt : UInt8}

theorem aimed_dev (h : lba.toNat ≤ maxLba) : (aimed c devNo lba cnt).dev = regDevice devNo := by
  have hmax : maxLba = 163839 := rfl
  have hhigh : (lba >>> 24).toUInt8 = 0 := by
    rw [← UInt8.toNat_inj, UInt32.toNat_toUInt8, UInt32.toNat_shiftRight]
    show lba.toNat >>> 24 % 2 ^ 8 = 0
    rw [Nat.shiftRight_eq_div_pow]
    omega
  unfold aimed
  rw [hhigh]
  exact UInt8.or_zero

theorem aimed_lba (h : lba.toNat ≤ maxLba) : (aimed c devNo lba cnt).lba = lba.toNat := by
  have hmax : maxLba = 163839 := rfl
  have hm : (lba >>> 8).toUInt8.toNat = lba.toNat / 256 % 256 := by
    rw [UInt32.toNat_toUInt8, UInt32.toNat_shiftRight]
    show lba.toNat >>> 8 % 2 ^ 8 = _
    rw [Nat.shiftRight_eq_div_pow]
  have hh : (lba >>> 16).toUInt8.toNat = lba.toNat / 65536 % 256 := by
    rw [UInt32.toNat_toUInt8, UInt32.toNat_shiftRight]
    show lba.toNat >>> 16 % 2 ^ 8 = _
    rw [Nat.shiftRight_eq_div_pow]
  have hdev := @toNat_regDevice devNo
  unfold IdeController.lba
  rw [aimed_dev h, hdev]
  show lba.toUInt8.toNat + 256 * (lba >>> 8).toUInt8.toNat + 65536 * (lba >>> 16).toUInt8.toNat
      + 16777216 * 0 = _
  rw [UInt32.toNat_toUInt8, hm, hh]
  omega

structure Group (op : UInt32) (n : Nat) : Prop where
  toNat : op.toNat = n
  pos : 0 < n
  le : n ≤ 256

variable {op : UInt32}

theorem Group.eq_zero_iff (h : Group op n) : op.toUInt8 = 0 ↔ n = 256 := by
  have hn := h.toNat
  have hpos := h.pos
  have hle := h.le
  rw [← UInt8.toNat_inj, UInt32.toNat_toUInt8, hn]
  show n % 2 ^ 8 = 0 ↔ _
  omega

theorem Group.sectors (h : Group op n) : (aimed c devNo lba op.toUInt8).sectors = n := by
  have hz := h.eq_zero_iff
  have hle := h.le
  show (if op.toUInt8 = 0 then 256 else op.toUInt8.toNat) = n
  split
  . next h0 => exact (hz.mp h0).symm
  . next h0 =>
    have hne : n ≠ 256 := fun heq => h0 (hz.mpr heq)
    rw [UInt32.toNat_toUInt8, h.toNat]
    omega

theorem Group.words (h : Group op n) : (sizeInByte op.toUInt8 / 2).toNat = 256 * n := by
  have hz := h.eq_zero_iff
  have hle := h.le
  unfold sizeInByte
  split
  . next h0 =>
    rw [hz.mp h0]
    rfl
  . next h0 =>
    have hne : n ≠ 256 := fun heq => h0 (hz.mpr heq)
    rw [UInt32.toNat_div, UInt32.toNat_mul, UInt8.toNat_toUInt32, UInt32.toNat_toUInt8, h.toNat]
    show n % 2 ^ 8 * 512 % 2 ^ 32 / 2 = _
    omega

theorem busyWait.go_run {t : Nat} (hbusy : s.ctl.busy + 2 ≤ t) (hleft : 0 < s.ctl.left)
    : (busyWait.go t).run s = .ok (true, ⟨{ s.ctl with busy := 0 }, s.ram⟩) := by
  induction t generalizing s with
  | zero => omega
  | succ t ih =>
    unfold busyWait.go
    rw [if_neg (by omega)]
    by_cases h0 : s.ctl.busy = 0
    . have hstatus : inbStatus.run s = .ok (⟨false, true⟩, ⟨{ s.ctl with busy := 0 }, s.ram⟩) := by
        show Except.ok (_, (⟨{ s.ctl with busy := s.ctl.busy - 1 }, s.ram⟩ : Pio)) = _
        rw [h0]
        congr 3
        exact decide_eq_true ⟨rfl, hleft⟩
      have hagain : inbStatus.run (⟨{ s.ctl with busy := 0 }, s.ram⟩ : Pio)
          = .ok (⟨false, true⟩, ⟨{ s.ctl with busy := 0 }, s.ram⟩) := by
        show Except.ok (_, (⟨{ s.ctl with busy := 0 }, s.ram⟩ : Pio)) = _
        congr 3
        exact decide_eq_true ⟨rfl, hleft⟩
      rw [exec_bind hstatus, if_neg Bool.false_ne_true, exec_bind hagain]
      rfl
    . have hstatus : inbStatus.run s
          = .ok (⟨true, false⟩, ⟨{ s.ctl with busy := s.ctl.busy - 1 }, s.ram⟩) := by
        show Except.ok (_, _) = _
        congr 3
        . exact decide_eq_true (by omega)
        . exact decide_eq_false fun h => h0 h.1
      rw [exec_bind hstatus, if_pos rfl,
        ih (s := ⟨{ s.ctl with busy := s.ctl.busy - 1 }, s.ram⟩) _ hleft]
      show s.ctl.busy - 1 + 2 ≤ t
      omega

end Command

section Group

variable {op : UInt32} {cmd : UInt8} {w : Bool}

structure Issued (c c' : IdeController) (w : Bool) (devNo : UInt8) (lba : UInt32) (n : Nat)
    : Prop where
  writing : c'.writing = w
  slave : c'.slave = isSlave devNo
  pos : c'.pos = 512 * lba.toNat
  left : c'.left = 512 * n
  disk : c'.disk = c.disk
  delay : c'.delay = c.delay

theorem issue_run (hlba : lba.toNat ≤ maxLba) (hg : Group op n) (hdelay : s.ctl.delay < 29999)
    (hcmd : ∀ c : IdeController, c.out .cmd cmd = c.start w)
    : ∃ c', Issued s.ctl c' w devNo lba n ∧ ∀ f : Bool → PioM Unit, (do
          selectSector devNo lba op.toUInt8
          cmdOut cmd
          let ready ← busyWait
          f ready : PioM Unit).run s = (f true).run ⟨c', s.ram⟩ := by
  have hleft : ((aimed s.ctl devNo lba op.toUInt8).start w).left = 512 * n :=
    congrArg (512 * ·) hg.sectors
  have hpos := hg.pos
  have hout : (cmdOut cmd).run ⟨aimed s.ctl devNo lba op.toUInt8, s.ram⟩
      = .ok ((), ⟨(aimed s.ctl devNo lba op.toUInt8).start w, s.ram⟩) := by
    rw [← hcmd]
    rfl
  have hwait : busyWait.run ⟨(aimed s.ctl devNo lba op.toUInt8).start w, s.ram⟩
      = .ok (true, ⟨{ (aimed s.ctl devNo lba op.toUInt8).start w with busy := 0 }, s.ram⟩) := by
    apply busyWait.go_run
    . show s.ctl.delay + 2 ≤ 30000
      omega
    . show 0 < ((aimed s.ctl devNo lba op.toUInt8).start w).left
      rw [hleft]
      omega
  refine ⟨{ (aimed s.ctl devNo lba op.toUInt8).start w with busy := 0 },
    ⟨rfl, ?_, ?_, hleft, rfl, rfl⟩, ?_⟩
  . show ((aimed s.ctl devNo lba op.toUInt8).dev &&& 0x10 != 0) = _
    rw [aimed_dev hlba, regDevice_slave]
  . exact congrArg (512 * ·) (aimed_lba hlba)
  . intro f
    rw [exec_bind (selectSector_run hlba), exec_bind hout, exec_bind hwait]

theorem readFromSector_run {c : IdeController} (h : Issued c s.ctl false devNo lba n)
    (hg : Group op n)
    : ∃ c', (readFromSector buf op.toUInt8).run s
          = .ok ((), ⟨c',
              s.ram.fill buf (512 * n) ((c.disk (isSlave devNo)).shift (512 * lba.toNat))⟩)
        ∧ c'.disk = c.disk ∧ c'.delay = c.delay := by
  have hleft := h.left
  have hle := hg.le
  unfold readFromSector
  rw [hg.words, insw_run h.writing (by omega) (by omega), show 2 * (256 * n) = 512 * n by
    omega, h.disk, h.slave, h.pos]
  exact ⟨_, rfl, h.disk, h.delay⟩

theorem write2sector_run {c : IdeController} (h : Issued c s.ctl true devNo lba n) (hg : Group op n)
    : ∃ c', (write2sector buf op.toUInt8).run s = .ok ((), ⟨c', s.ram⟩)
        ∧ c'.disk = Function.update c.disk (isSlave devNo)
          ((c.disk (isSlave devNo)).blit (512 * lba.toNat) (512 * n) (s.ram.view buf))
        ∧ c'.delay = c.delay := by
  have hleft := h.left
  unfold write2sector
  rw [hg.words, outsw_run h.writing (by omega), show 2 * (256 * n) = 512 * n by omega, h.disk,
    h.slave, h.pos]
  exact ⟨_, rfl, rfl, h.delay⟩

theorem group_secsOp (hmax : secCnt.toNat ≤ maxLba + 1) (h : secsDone < secCnt)
    : Group (secsOp secsDone secCnt) (min 256 (secCnt.toNat - secsDone.toNat)) := by
  have hmaxLba : maxLba = 163839 := rfl
  have hlt : secsDone.toNat < secCnt.toNat := UInt32.lt_iff_toNat_lt.mp h
  have hadd : (secsDone + 256).toNat = secsDone.toNat + 256 := by
    rw [UInt32.toNat_add]
    show (secsDone.toNat + 256) % 2 ^ 32 = _
    omega
  have hop : (secsOp secsDone secCnt).toNat = min 256 (secCnt.toNat - secsDone.toNat) := by
    unfold secsOp
    split
    . next hle =>
      have hle' : (secsDone + 256).toNat ≤ secCnt.toNat := UInt32.le_iff_toNat_le.mp hle
      show 256 = _
      omega
    . next hgt =>
      have hgt' : ¬ (secsDone + 256).toNat ≤ secCnt.toNat := fun hle =>
        hgt (UInt32.le_iff_toNat_le.mpr hle)
      rw [UInt32.toNat_sub_of_le _ _ (UInt32.le_of_lt h)]
      omega
  exact ⟨hop, by omega, by omega⟩

theorem toNat_lba_add (hmax : lba.toNat + secCnt.toNat ≤ maxLba + 1) (h : secsDone < secCnt)
    : (lba + secsDone).toNat = lba.toNat + secsDone.toNat := by
  have hmaxLba : maxLba = 163839 := rfl
  have hlt : secsDone.toNat < secCnt.toNat := UInt32.lt_iff_toNat_lt.mp h
  rw [UInt32.toNat_add]
  omega

theorem toNat_add_secsOp (hmax : lba.toNat + secCnt.toNat ≤ maxLba + 1) (h : secsDone < secCnt)
    : (secsDone + secsOp secsDone secCnt).toNat
        = secsDone.toNat + min 256 (secCnt.toNat - secsDone.toNat) := by
  have hmaxLba : maxLba = 163839 := rfl
  have hlt : secsDone.toNat < secCnt.toNat := UInt32.lt_iff_toNat_lt.mp h
  have hg := group_secsOp (by omega) h
  rw [UInt32.toNat_add, hg.toNat]
  omega

theorem buf_add_mul : buf + secsDone * 512 = buf + UInt32.ofNat (512 * secsDone.toNat) := by
  have hmul : secsDone * 512 = UInt32.ofNat (512 * secsDone.toNat) := by
    rw [← UInt32.toNat_inj, UInt32.toNat_mul, UInt32.toNat_ofNat']
    show secsDone.toNat * 512 % 2 ^ 32 = _
    rw [Nat.mul_comm]
  rw [hmul]

end Group

section Loops

variable {fuel : Nat} {s₀ : Pio}

structure ReadPart (s₀ s : Pio) (devNo : UInt8) (lba buf : UInt32) (done : Nat) : Prop where
  ram : s.ram = s₀.ram.fill buf (512 * done) ((s₀.ctl.disk (isSlave devNo)).shift (512 * lba.toNat))
  disk : s.ctl.disk = s₀.ctl.disk
  delay : s.ctl.delay = s₀.ctl.delay

structure WrittenPart (s₀ s : Pio) (devNo : UInt8) (lba buf : UInt32) (done : Nat) : Prop where
  ram : s.ram = s₀.ram
  disk : s.ctl.disk = Function.update s₀.ctl.disk (isSlave devNo)
    ((s₀.ctl.disk (isSlave devNo)).blit (512 * lba.toNat) (512 * done) (s₀.ram.view buf))
  delay : s.ctl.delay = s₀.ctl.delay

theorem ideRead_group (hmax : lba.toNat + secCnt.toNat ≤ maxLba + 1) (h : secsDone < secCnt)
    (hdelay : s₀.ctl.delay < 29999) (hs : ReadPart s₀ s devNo lba buf secsDone.toNat)
    : ∃ s', (ideRead.go devNo lba buf secCnt (fuel + 1) secsDone).run s
          = (ideRead.go devNo lba buf secCnt fuel (secsDone + secsOp secsDone secCnt)).run s'
        ∧ ReadPart s₀ s' devNo lba buf
            (secsDone.toNat + min 256 (secCnt.toNat - secsDone.toNat)) := by
  have hmaxLba : maxLba = 163839 := rfl
  have hlt : secsDone.toNat < secCnt.toNat := UInt32.lt_iff_toNat_lt.mp h
  have hlba := toNat_lba_add hmax h
  have hg := group_secsOp (by omega) h
  generalize min 256 (secCnt.toNat - secsDone.toNat) = n at hg ⊢
  have hle := hg.le
  obtain ⟨c, hissued, hissue⟩ := @issue_run s devNo (lba + secsDone) n _ 0x20 false
    (by omega) hg (by rw [hs.delay]; exact hdelay) fun _ => rfl
  obtain ⟨c', hread, hdisk, hdelay'⟩ :=
    @readFromSector_run ⟨c, s.ram⟩ _ _ (buf + secsDone * 512) _ _ _ hissued hg
  refine ⟨⟨c', s.ram.fill (buf + secsDone * 512) (512 * n) ((s.ctl.disk (isSlave devNo)).shift
    (512 * (lba + secsDone).toNat))⟩, ?_, ?_, hdisk.trans hs.disk, hdelay'.trans hs.delay⟩
  . conv => lhs; unfold ideRead.go
    rw [if_pos h, hissue, exec_assert_bind, if_pos rfl, exec_bind hread]
  . show Ram.fill s.ram _ _ _ = _
    rw [hs.ram, hs.disk, buf_add_mul, hlba, Ram.fill_fill, Nat.mul_add]
    . omega
    . intro i hi
      show s₀.ctl.disk _ _ = s₀.ctl.disk _ _
      congr 1
      omega

theorem ideWrite_group (hmax : lba.toNat + secCnt.toNat ≤ maxLba + 1) (h : secsDone < secCnt)
    (hdelay : s₀.ctl.delay < 29999) (hs : WrittenPart s₀ s devNo lba buf secsDone.toNat)
    : ∃ s', (ideWrite.go devNo lba buf secCnt (fuel + 1) secsDone).run s
          = (ideWrite.go devNo lba buf secCnt fuel (secsDone + secsOp secsDone secCnt)).run s'
        ∧ WrittenPart s₀ s' devNo lba buf
            (secsDone.toNat + min 256 (secCnt.toNat - secsDone.toNat)) := by
  have hmaxLba : maxLba = 163839 := rfl
  have hlt : secsDone.toNat < secCnt.toNat := UInt32.lt_iff_toNat_lt.mp h
  have hlba := toNat_lba_add hmax h
  have hg := group_secsOp (by omega) h
  generalize min 256 (secCnt.toNat - secsDone.toNat) = n at hg ⊢
  have hle := hg.le
  obtain ⟨c, hissued, hissue⟩ := @issue_run s devNo (lba + secsDone) n _ 0x30 true
    (by omega) hg (by rw [hs.delay]; exact hdelay) fun _ => rfl
  obtain ⟨c', hwrite, hdisk, hdelay'⟩ :=
    @write2sector_run ⟨c, s.ram⟩ _ _ (buf + secsDone * 512) _ _ _ hissued hg
  refine ⟨⟨c', s.ram⟩, ?_, hs.ram, ?_, hdelay'.trans hs.delay⟩
  . conv => lhs; unfold ideWrite.go
    rw [if_pos h, hissue, exec_assert_bind, if_pos rfl, exec_bind hwrite]
  . show c'.disk = _
    rw [hdisk, hs.disk, hs.ram, Function.update_self, Function.update_idem, hlba, Nat.mul_add,
      Nat.mul_add, buf_add_mul, Mem.blit_append fun i _ => Ram.view_add]

theorem groups_run {go : Nat → UInt32 → PioM Unit} {P : Pio → Nat → Prop}
    (hmax : lba.toNat + secCnt.toNat ≤ maxLba + 1)
    (hround : ∀ fuel secsDone s, secsDone < secCnt → P s secsDone.toNat → ∃ s',
      (go (fuel + 1) secsDone).run s = (go fuel (secsDone + secsOp secsDone secCnt)).run s'
        ∧ P s' (secsDone.toNat + min 256 (secCnt.toNat - secsDone.toNat)))
    (hend : ∀ fuel secsDone s, ¬ secsDone < secCnt → (go (fuel + 1) secsDone).run s = .ok ((), s))
    (hle : secsDone.toNat ≤ secCnt.toNat) (hfuel : secCnt.toNat - secsDone.toNat < fuel)
    (hs : P s secsDone.toNat)
    : ∃ s', (go fuel secsDone).run s = .ok ((), s') ∧ P s' secCnt.toNat := by
  induction fuel generalizing s secsDone with
  | zero => omega
  | succ fuel ih =>
    by_cases h : secsDone < secCnt
    . have hlt : secsDone.toNat < secCnt.toNat := UInt32.lt_iff_toNat_lt.mp h
      have hdone := toNat_add_secsOp hmax h
      obtain ⟨s', hrun, hs'⟩ := hround fuel secsDone s h hs
      rw [← hdone] at hs'
      rw [hrun]
      apply ih
      . omega
      . omega
      . exact hs'
    . have hge : ¬ secsDone.toNat < secCnt.toNat := fun hlt => h (UInt32.lt_iff_toNat_lt.mpr hlt)
      have heq : secsDone.toNat = secCnt.toNat := by omega
      exact ⟨s, hend fuel secsDone s h, heq ▸ hs⟩

variable (hlba : lba.toNat + secCnt.toNat ≤ maxLba + 1) (hcnt : 0 < secCnt)
  (hdelay : s.ctl.delay < 29999)

include hlba hcnt hdelay

theorem ideRead_run : ∃ s', (ideRead devNo lba buf secCnt).run s = .ok ((), s')
    ∧ ReadPart s s' devNo lba buf secCnt.toNat := by
  have hpos : 0 < secCnt.toNat := UInt32.lt_iff_toNat_lt.mp hcnt
  unfold ideRead
  rw [exec_assert_bind, if_pos (by omega), exec_assert_bind, if_pos hcnt]
  show ∃ s', (ideRead.go devNo lba buf secCnt (secCnt.toNat + 1) 0).run
      ⟨s.ctl.out .dev (regDevice devNo), s.ram⟩ = _ ∧ _
  apply groups_run (P := fun s' done => ReadPart s s' devNo lba buf done) hlba
  . intro fuel secsDone s' h hs'
    exact ideRead_group hlba h hdelay hs'
  . intro fuel secsDone s' h
    unfold ideRead.go
    rw [if_neg h]
    rfl
  . exact Nat.zero_le _
  . exact Nat.lt_succ_self _
  . exact ⟨Ram.fill_zero.symm, rfl, rfl⟩

theorem ideWrite_run : ∃ s', (ideWrite devNo lba buf secCnt).run s = .ok ((), s')
    ∧ WrittenPart s s' devNo lba buf secCnt.toNat := by
  have hpos : 0 < secCnt.toNat := UInt32.lt_iff_toNat_lt.mp hcnt
  have hnone : (s.ctl.disk (isSlave devNo)).blit (512 * lba.toNat) (512 * 0) (s.ram.view buf)
      = s.ctl.disk (isSlave devNo) := by
    funext i
    apply Mem.blit_of_not_mem
    omega
  unfold ideWrite
  rw [exec_assert_bind, if_pos (by omega), exec_assert_bind, if_pos hcnt]
  show ∃ s', (ideWrite.go devNo lba buf secCnt (secCnt.toNat + 1) 0).run
      ⟨s.ctl.out .dev (regDevice devNo), s.ram⟩ = _ ∧ _
  apply groups_run (P := fun s' done => WrittenPart s s' devNo lba buf done) hlba
  . intro fuel secsDone s' h hs'
    exact ideWrite_group hlba h hdelay hs'
  . intro fuel secsDone s' h
    unfold ideWrite.go
    rw [if_neg h]
    rfl
  . exact Nat.zero_le _
  . exact Nat.lt_succ_self _
  . refine ⟨rfl, ?_, rfl⟩
    show s.ctl.disk = Function.update s.ctl.disk (isSlave devNo)
      ((s.ctl.disk (isSlave devNo)).blit (512 * lba.toNat) (512 * 0) (s.ram.view buf))
    rw [hnone, Function.update_eq_self]

end Loops

section Whole

structure HasRead (s s' : Pio) (devNo : UInt8) (lba buf : UInt32) (secCnt : Nat) : Prop where
  disk : s'.ctl.disk = s.ctl.disk
  bytes : ∀ k < 512 * secCnt, s'.ram (buf + UInt32.ofNat k)
    = s.ctl.disk (isSlave devNo) (512 * lba.toNat + k)
  others : ∀ a, 512 * secCnt ≤ (a - buf).toNat → s'.ram a = s.ram a

structure HasWritten (s s' : Pio) (devNo : UInt8) (lba buf : UInt32) (secCnt : Nat) : Prop where
  ram : s'.ram = s.ram
  bytes : ∀ k < 512 * secCnt, s'.ctl.disk (isSlave devNo) (512 * lba.toNat + k)
    = s.ram (buf + UInt32.ofNat k)
  others : ∀ d i, d = isSlave devNo → i < 512 * lba.toNat ∨ 512 * (lba.toNat + secCnt) ≤ i →
    s'.ctl.disk d i = s.ctl.disk d i
  other : ∀ d, d ≠ isSlave devNo → s'.ctl.disk d = s.ctl.disk d

variable {s' : Pio}

theorem ReadPart.hasRead {k : Nat} (h : ReadPart s s' devNo lba buf k) (hk : 512 * k ≤ 2 ^ 32)
    : HasRead s s' devNo lba buf k := by
  refine ⟨h.disk, ?_, ?_⟩
  . intro i hi
    rw [h.ram, Ram.fill_of_lt hi hk]
    rfl
  . intro a ha
    rw [h.ram, Ram.fill_of_le ha]

theorem WrittenPart.hasWritten {k : Nat} (h : WrittenPart s s' devNo lba buf k)
    : HasWritten s s' devNo lba buf k := by
  refine ⟨h.ram, ?_, ?_, ?_⟩
  . intro i hi
    rw [h.disk, Function.update_self, Mem.blit_of_mem (by omega) (by omega),
      Nat.add_sub_cancel_left]
    rfl
  . intro d i hd hi
    rw [hd, h.disk, Function.update_self]
    apply Mem.blit_of_not_mem
    omega
  . intro d hd
    rw [h.disk]
    exact Function.update_of_ne hd _ _

structure Transfers (s : Pio) (devNo : UInt8) (lba buf secCnt : UInt32) : Prop where
  read : ∃ s', (ideRead devNo lba buf secCnt).run s = .ok ((), s')
    ∧ HasRead s s' devNo lba buf secCnt.toNat
  write : ∃ s', (ideWrite devNo lba buf secCnt).run s = .ok ((), s')
    ∧ HasWritten s s' devNo lba buf secCnt.toNat
  readWritten : ∀ dst, ∃ s',
    (do ideWrite devNo lba buf secCnt; ideRead devNo lba dst secCnt : PioM Unit).run s
      = .ok ((), s')
      ∧ ∀ k < 512 * secCnt.toNat, s'.ram (dst + UInt32.ofNat k) = s.ram (buf + UInt32.ofNat k)

/--
Transfers in groups are one long transfer, with a device that is ready before `busy_wait` gives up.
-/
theorem transfers_whole (hlba : lba.toNat + (secCnt.toNat - 1) ≤ maxLba) (hcnt : 1 ≤ secCnt)
    (hdelay : s.ctl.delay < 29999) : Transfers s devNo lba buf secCnt := by
  have hmaxLba : maxLba = 163839 := rfl
  have hpos : 0 < secCnt := UInt32.lt_iff_toNat_lt.mpr (UInt32.le_iff_toNat_le.mp hcnt)
  have hmax : lba.toNat + secCnt.toNat ≤ maxLba + 1 := by omega
  have hbound : 512 * secCnt.toNat ≤ 2 ^ 32 := by omega
  refine ⟨?_, ?_, ?_⟩
  . obtain ⟨s', hrun, hs'⟩ := @ideRead_run _ devNo _ buf _ hmax hpos hdelay
    exact ⟨s', hrun, hs'.hasRead hbound⟩
  . obtain ⟨s', hrun, hs'⟩ := @ideWrite_run _ devNo _ buf _ hmax hpos hdelay
    exact ⟨s', hrun, hs'.hasWritten⟩
  . intro dst
    obtain ⟨s₁, hrun₁, hs₁⟩ := @ideWrite_run _ devNo _ buf _ hmax hpos hdelay
    have hdelay₁ : s₁.ctl.delay < 29999 := hs₁.delay ▸ hdelay
    obtain ⟨s₂, hrun₂, hs₂⟩ := @ideRead_run _ devNo _ dst _ hmax hpos hdelay₁
    refine ⟨s₂, ?_, ?_⟩
    . rw [exec_bind hrun₁, hrun₂]
    . intro k hk
      rw [(hs₂.hasRead hbound).bytes k hk, hs₁.hasWritten.bytes k hk]

def filledPio : Pio where
  ctl := ⟨0, 0, 0, 0, 0, fun slave i => UInt8.ofNat (i / 512) - (if slave then 0 else 1), 0, 0,
    false, false, 0, 0⟩
  ram := fun a => UInt8.ofNat (a.toNat / 512)

theorem transfers_whole_last
    : Transfers filledPio 1 163583 0xc0100000 257
      ∧ ∃ s', (ideRead 1 163583 0xc0100000 257).run filledPio = .ok ((), s')
          ∧ s'.ram 0xc0100000 = 0xff ∧ s'.ram 0xc01201ff = 0xff ∧ filledPio.ram 0xc01201ff = 0 := by
  have htransfers : Transfers filledPio 1 163583 0xc0100000 257 :=
    transfers_whole (by decide) (by decide) (by decide)
  refine ⟨htransfers, ?_⟩
  obtain ⟨s', hrun, hread⟩ := htransfers.read
  refine ⟨s', hrun, ?_, ?_, by decide⟩
  . exact (hread.bytes 0 (by decide)).trans (by decide)
  . exact (hread.bytes 131583 (by decide)).trans (by decide)

section Volume

/-! The transfers of the file system, which sees one disk -/

variable {v : Vol}

theorem ideRead_refines (hv : v.disk = s.ctl.disk (isSlave devNo))
    (hlba : lba.toNat + secCnt.toNat ≤ maxLba + 1)
    (hcnt : 0 < secCnt) (hdelay : s.ctl.delay < 29999)
    : ∃ s' m, (ideRead devNo lba buf secCnt).run s = .ok ((), s')
        ∧ (RogOS.ideRead lba secCnt.toNat).run v = .ok (m, v)
        ∧ (s'.ram.view buf).clip (secCnt.toNat * 512) = m := by
  have hpos : 0 < secCnt.toNat := UInt32.lt_iff_toNat_lt.mp hcnt
  have hmaxLba : maxLba = 163839 := rfl
  obtain ⟨s', hrun, hs'⟩ := @ideRead_run _ devNo _ buf _ hlba hcnt hdelay
  refine ⟨s', (v.disk.shift (lba.toNat * 512)).clip (secCnt.toNat * 512), hrun, ?_, ?_⟩
  . apply RogOS.ideRead_run.mpr
    exact ⟨by omega, rfl⟩
  . apply Mem.clip_congr
    intro i hi
    show s'.ram (buf + UInt32.ofNat i) = v.disk (lba.toNat * 512 + i)
    rw [(hs'.hasRead (by omega)).bytes i (by omega), hv, Nat.mul_comm]

theorem ideWrite_refines (hv : v.disk = s.ctl.disk (isSlave devNo))
    (hlba : lba.toNat + secCnt.toNat ≤ maxLba + 1)
    (hcnt : 0 < secCnt) (hdelay : s.ctl.delay < 29999)
    : ∃ s' v', (ideWrite devNo lba buf secCnt).run s = .ok ((), s')
        ∧ (RogOS.ideWrite lba (s.ram.view buf) secCnt.toNat).run v = .ok ((), v')
        ∧ v'.disk = s'.ctl.disk (isSlave devNo) := by
  have hpos : 0 < secCnt.toNat := UInt32.lt_iff_toNat_lt.mp hcnt
  obtain ⟨s', hrun, hs'⟩ := @ideWrite_run _ devNo _ buf _ hlba hcnt hdelay
  refine ⟨s', _, hrun, RogOS.ideWrite_run.mpr ⟨by omega, rfl⟩, ?_⟩
  rw [hs'.disk, Function.update_self, hv, Nat.mul_comm, Nat.mul_comm secCnt.toNat]

end Volume

end Whole

end Pio

end RogOS
