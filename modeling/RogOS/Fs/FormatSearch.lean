import RogOS.Device.PartitionDisks
import RogOS.Fs.FormatLayout
import RogOS.Fs.Impl.FormatSearch
import RogOS.Lib.Marks

/-!
Which partitions have a file system after the search of `filesys_init`.
-/

namespace RogOS

open Cmd partitionFormat

section Area

variable {startLba secCnt : UInt32} {disk : Mem} {v : Vol} {y : Nat}

def bitmapSize (secCnt : UInt32) : Nat := (divRoundUp (blockBitmapBitLen secCnt) 4096).toNat

theorem bitmapSize_lt : bitmapSize secCnt < 2 ^ 21 := by
  rw [bitmapSize, divRoundUp, UInt32.toNat_div]
  have hlt := (blockBitmapBitLen secCnt + 4096 - 1).toNat_lt
  exact Nat.lt_of_le_of_lt (Nat.div_le_div_right (Nat.le_of_lt hlt)) (by decide)

structure AreaPlaces (startLba secCnt : UInt32) (sb : SuperBlock) : Prop where
  blockBitmap : sb.blockBitmapLba.toNat = (startLba + 1).toNat + 1
  sects : sb.blockBitmapSects.toNat = bitmapSize secCnt
  inodeBitmap : sb.inodeBitmapLba.toNat = (startLba + 1).toNat + 1 + bitmapSize secCnt
  inodeSects : sb.inodeBitmapSects.toNat = 1
  inodeTable : sb.inodeTableLba.toNat = (startLba + 1).toNat + 2 + bitmapSize secCnt
  tableSects : sb.inodeTableSects.toNat = 608
  dataStart : sb.dataStartLba.toNat = (startLba + 1).toNat + 610 + bitmapSize secCnt

theorem areaPlaces (h : (startLba + 1).toNat ≤ maxLba)
    : AreaPlaces startLba secCnt (superBlock startLba secCnt) := by
  have hsize := @bitmapSize_lt secCnt
  unfold maxLba at h
  have h2 : (startLba + 2).toNat = (startLba + 1).toNat + 1 := by
    rw [show startLba + 2 = startLba + 1 + 1 by rw [UInt32.add_assoc]; rfl, UInt32.toNat_add,
      UInt32.toNat_one]
    omega
  have hinode : (superBlock startLba secCnt).inodeBitmapLba.toNat
      = ((startLba + 2).toNat + bitmapSize secCnt) % 2 ^ 32 :=
    UInt32.toNat_add _ _
  have htable : (superBlock startLba secCnt).inodeTableLba.toNat
      = ((superBlock startLba secCnt).inodeBitmapLba.toNat + 1) % 2 ^ 32 :=
    UInt32.toNat_add _ _
  have hdata : (superBlock startLba secCnt).dataStartLba.toNat
      = ((superBlock startLba secCnt).inodeTableLba.toNat + 608) % 2 ^ 32 :=
    UInt32.toNat_add _ _
  rw [h2] at hinode
  refine ⟨h2, rfl, ?_, rfl, ?_, rfl, ?_⟩
  . omega
  . omega
  . omega

theorem partitionFormat_returns {r : Unit × Vol}
    : (partitionFormat startLba secCnt).run v = .ok r
        ↔
      tailEnd (blockBitmapBitLen secCnt).toNat ≤ bufSize (superBlock startLba secCnt)
        ∧ (startLba + 1).toNat + 610 + bitmapSize secCnt ≤ maxLba
        ∧ r = ((), { v with disk := formatDisk startLba secCnt v.disk }) := by
  rw [partitionFormat_run]
  constructor
  . rintro ⟨h1, h2, -, -, -, h3, h4⟩
    rw [(areaPlaces h1).dataStart] at h3
    exact ⟨h2, h3, h4⟩
  . rintro ⟨h2, h3, h4⟩
    have h1 : (startLba + 1).toNat ≤ maxLba := by omega
    have hp := @areaPlaces startLba secCnt h1
    rw [hp.blockBitmap, hp.sects, hp.inodeBitmap, hp.inodeSects, hp.inodeTable, hp.tableSects,
      hp.dataStart]
    exact ⟨h1, h2, by omega, by omega, by omega, h3, h4⟩

def marks (disk : Mem) : Nat → Prop := fun y => disk.word (y * 512) = 0x19590318

instance : DecidablePred (marks disk) := fun y => inferInstanceAs
    (Decidable (disk.word (y * 512) = 0x19590318))

theorem not_marks_of_byte (h : disk (y * 512) ≠ 0x18) : ¬ marks disk y := by
  intro hmark
  have hbyte := @Mem.ofWord_word disk (y * 512) 0 (by decide)
  rw [show disk.word (y * 512) = 0x19590318 from hmark] at hbyte
  rw [show Mem.ofWord 0x19590318 0 = 0x18 by decide, Nat.add_zero] at hbyte
  exact h hbyte.symm

theorem blockBitmap_byte {bitLen i : Nat} (h : i < tailEnd bitLen)
    : blockBitmap bitLen i ≠ 0x18 := by
  intro hbyte
  have hbit : ∀ k < 8, (blockBitmap bitLen).bit (8 * i + k) = (0x18 : UInt8).toNat.testBit k := by
    intro k hk
    rw [Mem.bit, show (8 * i + k) / 8 = i by omega, show (8 * i + k) % 8 = k by omega, hbyte]
  have h3 := hbit 3 (by decide)
  have h5 := hbit 5 (by decide)
  rw [bit_blockBitmap (by omega)] at h3 h5
  rw [show (0x18 : UInt8).toNat.testBit 3 = true from rfl, decide_eq_true_iff] at h3
  rw [show (0x18 : UInt8).toNat.testBit 5 = false from rfl, decide_eq_false_iff_not] at h5
  omega

theorem marks_formatDisk (hend : (startLba + 1).toNat + 610 + bitmapSize secCnt ≤ maxLba)
    : marks (formatDisk startLba secCnt disk) y
        ↔
      y = (startLba + 1).toNat
        ∨ marks disk y
            ∧ ¬ ((startLba + 1).toNat < y
            ∧ y ≤ (startLba + 1).toNat + 610 + bitmapSize secCnt) := by
  have hp := @areaPlaces startLba secCnt (by omega)
  have htail := @bitmapSects_le_tailEnd startLba secCnt
  rw [hp.sects] at htail
  -- the bytes of a sector, by the area that it is in
  have hbyte : ∀ i < 512, formatDisk startLba secCnt disk (y * 512 + i)
      = if y = (startLba + 1).toNat then encodeSuperBlock (superBlock startLba secCnt) i
        else if y < (startLba + 1).toNat ∨ (startLba + 1).toNat + 610 + bitmapSize secCnt < y then
          disk (y * 512 + i)
        else if y = (startLba + 1).toNat + 610 + bitmapSize secCnt then dotSector 0 0 i
        else if (startLba + 1).toNat + 2 + bitmapSize secCnt ≤ y then
          (Mem.zero.blit 0 Inode.size (rootInode (superBlock startLba secCnt)).encode)
            ((y - ((startLba + 1).toNat + 2 + bitmapSize secCnt)) * 512 + i)
        else if y = (startLba + 1).toNat + 1 + bitmapSize secCnt then inodeBitmap i
        else
          blockBitmap (blockBitmapBitLen secCnt).toNat
            ((y - ((startLba + 1).toNat + 1)) * 512 + i) := by
    intro i hi
    unfold formatDisk
    rw [hp.blockBitmap, hp.sects, hp.inodeBitmap, hp.inodeSects, hp.inodeTable, hp.tableSects,
      hp.dataStart]
    generalize (startLba + 1).toNat = x, bitmapSize secCnt = b at *
    split
    . rw [Mem.blit_of_not_mem (by omega), Mem.blit_of_not_mem (by omega),
        Mem.blit_of_not_mem (by omega), Mem.blit_of_not_mem (by omega),
        Mem.blit_of_mem (by omega) (by omega)]
      congr 1
      omega
    . split
      . rw [Mem.blit_of_not_mem (by omega), Mem.blit_of_not_mem (by omega),
          Mem.blit_of_not_mem (by omega), Mem.blit_of_not_mem (by omega),
          Mem.blit_of_not_mem (by omega)]
      . split
        . rw [Mem.blit_of_mem (by omega) (by omega)]
          congr 1
          omega
        . split
          . rw [Mem.blit_of_not_mem (by omega), Mem.blit_of_mem (by omega) (by omega)]
            congr 1
            omega
          . split
            . rw [Mem.blit_of_not_mem (by omega), Mem.blit_of_not_mem (by omega),
                Mem.blit_of_mem (by omega) (by omega)]
              congr 1
              omega
            . rw [Mem.blit_of_not_mem (by omega), Mem.blit_of_not_mem (by omega),
                Mem.blit_of_not_mem (by omega), Mem.blit_of_mem (by omega) (by omega)]
              congr 1
              omega
  have hfirst := hbyte 0 (by decide)
  rw [Nat.add_zero] at hfirst
  by_cases hsuper : y = (startLba + 1).toNat
  . have hmark : marks (formatDisk startLba secCnt disk) y := by
      apply Mem.word_eq_of_bytes
      intro i hi
      rw [hbyte i (by omega), if_pos hsuper]
      interval_cases i <;> rfl
    exact ⟨fun _ => .inl hsuper, fun _ => hmark⟩
  . by_cases hout : y < (startLba + 1).toNat ∨ (startLba + 1).toNat + 610 + bitmapSize secCnt < y
    . have hsame : marks (formatDisk startLba secCnt disk) y ↔ marks disk y := by
        rw [marks, marks, Mem.word_congr]
        intro i hi
        rw [hbyte i (by omega), if_neg hsuper, if_pos hout]
      rw [hsame, or_iff_right hsuper]
      exact ⟨fun h => ⟨h, by omega⟩, fun h => h.1⟩
    . rw [if_neg hsuper, if_neg hout] at hfirst
      have hblank : ¬ marks (formatDisk startLba secCnt disk) y := by
        apply not_marks_of_byte
        rw [hfirst]
        split
        . decide
        . split
          . next htable =>
            generalize y - ((startLba + 1).toNat + 2 + bitmapSize secCnt) = k
            by_cases hk : k = 0
            . rw [hk, Mem.blit_of_mem (by decide) (by decide)]
              exact show Mem.ofWord 0 0 ≠ 0x18 by decide
            . rw [Mem.blit_of_not_mem (by rw [Inode.size]; omega)]
              exact show (0 : UInt8) ≠ 0x18 by decide
          . split
            . decide
            . apply blockBitmap_byte
              omega
      exact ⟨fun h => absurd h hblank, fun h => by omega⟩

end Area

section Visits

variable {hds : Nat → Hd} {s s' : FormatSearch} {t u : PartTag} {ts : List PartTag} {hd : Nat}
  {channelCnt : UInt8}

namespace HdPart

def superLba (p : HdPart) : Nat := (p.startLba + 1).toNat

def areaEnd (p : HdPart) : Nat := p.superLba + 610 + bitmapSize p.secCnt

def Formattable (p : HdPart) : Prop :=
  tailEnd (blockBitmapBitLen p.secCnt).toNat ≤ bufSize (superBlock p.startLba p.secCnt)
    ∧ p.areaEnd ≤ maxLba

end HdPart

def superBlocks (part : PartTag → HdPart) : Marks.Items PartTag where
  site t := (part t).superLba
  region t y := (part t).superLba < y ∧ y ≤ (part t).areaEnd
  readable t := (part t).superLba ≤ maxLba
  writable t := (part t).Formattable
  outside _ h := Nat.lt_irrefl _ h.1

namespace FormatSearch

def Registered (hds : Nat → Hd) : Prop :=
  ∀ hd kind idx, ((hds hd).parts kind idx).secCnt ≠ 0 → ((hds hd).parts kind idx).myDisk = some hd

def tags (hd : Nat)
    : List PartTag := (List.range 4).map (PartTag.mk hd .prime) ++ (List.range 8).map
        (PartTag.mk hd .logic)

def existing (s : FormatSearch) (hd : Nat)
    : List PartTag := (tags hd).filter fun t => (s.part t).secCnt ≠ 0

def written (s : FormatSearch) (t : PartTag) : FormatSearch :=
  setVol t.hd { s with formatted := s.formatted ++ [t] }
    ⟨formatDisk (s.part t).startLba (s.part t).secCnt (s.hds t.hd).sectors, Mem.zero, Mem.zero⟩

theorem written_parts {k : Nat} : ((s.written t).hds k).parts = (s.hds k).parts := by
  simp only [written, setVol, Function.update_apply]
  split
  . next h => rw [h]
  . rfl

theorem written_part : (s.written t).part u = s.part u := by
  rw [part, written_parts, part]

theorem visit_missing (h : (s.part t).secCnt = 0) : (visit t).run s = .ok ((), s) := by
  rw [visit, exec_get_bind, if_neg (by simpa using h)]
  rfl

theorem setVol_vol : setVol hd s (vol hd s) = s := by
  rw [setVol, vol]
  dsimp only
  rw [Function.update_eq_self]

theorem visit_run (hex : (s.part t).secCnt ≠ 0) (hreg : Registered s.hds) {r : Unit × FormatSearch}
    : (visit t).run s = .ok r
        ↔
      (s.part t).superLba ≤ maxLba
        ∧ if marks (s.hds t.hd).sectors (s.part t).superLba then r = ((), s)
            else (s.part t).Formattable ∧ r = ((), s.written t) := by
  obtain ⟨buf, hbuf⟩ : ∃ buf, buf = ((s.hds t.hd).sectors.shift ((s.part t).superLba * 512)).clip
      (1 * 512) := ⟨_, rfl⟩
  have hmagic : (decodeSuperBlock buf).magic
      = (s.hds t.hd).sectors.word ((s.part t).superLba * 512) := by
    rw [hbuf, decodeSuperBlock]
    dsimp only
    rw [Mem.word_clip (by decide), Mem.word_shift, Nat.add_zero]
  have hread : ∀ x : Mem × FormatSearch, (onHd t.hd (ideRead ((s.part t).startLba + 1) 1)).run s
      = .ok x
      ↔ (s.part t).superLba ≤ maxLba ∧ x = (buf, s) := by
    intro x
    rw [onHd, zoom_run, hbuf]
    constructor
    . rintro ⟨v, hrun, hx⟩
      obtain ⟨h1, h2⟩ := ideRead_run.mp hrun
      rw [Nat.sub_self, Nat.zero_div, Nat.mul_zero, Nat.add_zero] at h1
      refine ⟨h1, ?_⟩
      rw [Prod.ext_iff, hx, (Prod.mk.inj h2).2, setVol_vol, (Prod.mk.inj h2).1]
      exact ⟨rfl, rfl⟩
    . rintro ⟨h1, rfl⟩
      refine ⟨s.vol t.hd, ideRead_run.mpr ⟨?_, rfl⟩, setVol_vol.symm⟩
      rw [Nat.sub_self, Nat.zero_div, Nat.mul_zero, Nat.add_zero]
      exact h1
  have hformat : (format (s.part t)).run { s with formatted := s.formatted ++ [t] } = .ok r
      ↔ (s.part t).Formattable ∧ r = ((), s.written t) := by
    rw [format, show (s.part t).myDisk = some t.hd from hreg t.hd t.kind t.idx hex]
    dsimp only
    rw [onHd, zoom_run]
    constructor
    . rintro ⟨v, hrun, hr⟩
      obtain ⟨h1, h2, h3⟩ := partitionFormat_returns.mp hrun
      refine ⟨⟨h1, h2⟩, ?_⟩
      rw [Prod.ext_iff, hr, (Prod.mk.inj h3).2]
      exact ⟨rfl, rfl⟩
    . rintro ⟨⟨h1, h2⟩, rfl⟩
      exact ⟨_, partitionFormat_returns.mpr ⟨h1, h2, rfl⟩, rfl⟩
  rw [visit, exec_get_bind, if_pos hex, bind_run]
  constructor
  . rintro ⟨_, _, h, hrest⟩
    obtain ⟨hlba, h⟩ := (hread _).mp h
    cases h
    rw [hmagic] at hrest
    refine ⟨hlba, ?_⟩
    split
    . next hmark =>
      rw [if_pos (show _ = _ from hmark), pure_run] at hrest
      exact hrest
    . next hmark =>
      rw [if_neg (show ¬ _ = _ from hmark), exec_modify_bind] at hrest
      exact hformat.mp hrest
  . rintro ⟨hlba, hrest⟩
    refine ⟨buf, s, (hread _).mpr ⟨hlba, rfl⟩, ?_⟩
    rw [hmagic]
    split at hrest
    . next hmark =>
      rw [if_pos (show _ = _ from hmark), pure_run]
      exact hrest
    . next hmark =>
      rw [if_neg (show ¬ _ = _ from hmark), exec_modify_bind]
      exact hformat.mpr hrest

def visitAll : List PartTag → FormatSearchM Unit
  | [] => pure ()
  | t :: ts => do
    visit t
    visitAll ts

theorem parts_eq : parts hd 12 0 .prime 0 = (do visitAll (tags hd); pure 12) := by
  simp [parts, visitAll, tags, List.range, List.range.loop]

theorem search_run (hcnt : channelCnt = 1 ∨ channelCnt = 2) {r : Unit × FormatSearch}
    : (search channelCnt).run s = .ok r ↔ (visitAll (tags 1)).run s = .ok r := by
  have hfirst : disks 0 [0, 1] 0 = (do visitAll (tags 1); pure 12) := by
    rw [disks, if_pos rfl, disks, if_neg (by decide)]
    show (do let partIdx ← parts 1 12 0 .prime 0; disks 0 [] partIdx) = _
    rw [parts_eq, bind_assoc]
    rfl
  -- `part_idx` is 12 from then on
  have hmore : ∀ n k (s : FormatSearch), n + k ≤ 2 → (channels n k 12).run s = .ok ((), s) := by
    intro n
    induction n with
    | zero => exact fun _ _ _ => rfl
    | succ n ih =>
      intro k s hk
      have hskip : disks k [0, 1] 12 = pure 12 := rfl
      rw [channels, exec_assert_bind, if_pos (by omega), hskip, exec_pure_bind]
      exact ih (k + 1) s (by omega)
  have hall : ∀ n ≤ 1, (channels (n + 1) 0 0).run s = .ok r ↔ (visitAll (tags 1)).run s
      = .ok r := by
    intro n hn
    rw [channels, exec_assert_bind, if_pos (by decide), hfirst, bind_assoc, bind_run]
    constructor
    . rintro ⟨_, s1, hvisit, hrest⟩
      rw [exec_pure_bind, hmore n 1 s1 (by omega)] at hrest
      rw [hvisit, ← Except.ok.inj hrest]
    . intro h
      refine ⟨(), r.2, h, ?_⟩
      rw [exec_pure_bind, hmore n 1 r.2 (by omega)]
  obtain rfl | rfl := hcnt
  . exact hall 0 (by decide)
  . exact hall 1 (by decide)

theorem written_marks (hhd : t.hd = hd) (hformat : (s.part t).Formattable)
    : marks ((s.written t).hds hd).sectors
        = (superBlocks s.part).write (marks (s.hds hd).sectors) t := by
  funext y
  subst hhd
  rw [written, setVol]
  dsimp only
  rw [Function.update_self]
  have hmarks :=
    @marks_formatDisk (s.part t).startLba (s.part t).secCnt (s.hds t.hd).sectors y hformat.2
  rw [Marks.Items.write]
  dsimp only [superBlocks, HdPart.areaEnd, HdPart.superLba]
  exact propext hmarks

theorem superBlocks_written : superBlocks (s.written t).part = superBlocks s.part := by
  rw [show (s.written t).part = s.part from funext fun u => written_part]

theorem Registered.written (h : Registered s.hds) : Registered (s.written t).hds := by
  intro hd kind idx
  rw [written_parts]
  exact h hd kind idx

structure Kept (hd : Nat) (s s' : FormatSearch) : Prop where
  parts : ∀ k, (s'.hds k).parts = (s.hds k).parts
  others : ∀ k, k ≠ hd → s'.hds k = s.hds k

theorem visitAll_visits (hts : ∀ t ∈ ts, t.hd = hd) (hreg : Registered s.hds)
    (h : (visitAll ts).run s = .ok ((), s'))
    : Kept hd s s' ∧ ∃ log, s'.formatted = s.formatted ++ log
        ∧ (superBlocks s.part).Visits (marks (s.hds hd).sectors) (ts.filter fun t =>
            (s.part t).secCnt ≠ 0)
            (marks (s'.hds hd).sectors) log := by
  induction ts generalizing s with
  | nil =>
    rw [visitAll, pure_run] at h
    rw [(Prod.mk.inj h).2]
    exact ⟨⟨fun _ => rfl, fun _ _ => rfl⟩, [], (List.append_nil _).symm, .nil⟩
  | cons t ts ih =>
    have htail : ∀ u ∈ ts, u.hd = hd := fun u hu => hts u (List.mem_cons_of_mem _ hu)
    rw [visitAll, bind_run] at h
    obtain ⟨_, s1, hvisit, hrest⟩ := h
    by_cases hex : (s.part t).secCnt = 0
    . rw [visit_missing hex] at hvisit
      cases hvisit
      rw [List.filter_cons_of_neg (by simpa using hex)]
      exact ih htail hreg hrest
    . rw [List.filter_cons_of_pos (by simpa using hex)]
      obtain ⟨hread, hvisit⟩ := (visit_run hex hreg).mp hvisit
      rw [hts t List.mem_cons_self] at hvisit
      split at hvisit
      . next hmark =>
        cases hvisit
        obtain ⟨hkept, log, hlog, hvisits⟩ := ih htail hreg hrest
        exact ⟨hkept, log, hlog, .marked hread hmark hvisits⟩
      . next hmark =>
        obtain ⟨hformat, hvisit⟩ := hvisit
        cases hvisit
        obtain ⟨hkept, log, hlog, hvisits⟩ := ih htail hreg.written hrest
        simp only [written_part] at hvisits
        rw [superBlocks_written, written_marks (hts t List.mem_cons_self) hformat] at hvisits
        refine ⟨⟨?_, ?_⟩, t :: log, ?_, .blank hread hmark hformat hvisits⟩
        . intro k
          rw [hkept.parts, written_parts]
        . intro k hk
          rw [hkept.others k hk]
          exact Function.update_of_ne (by rw [hts t List.mem_cons_self]; exact hk) _ _
        . rw [hlog, written, setVol, List.append_assoc]
          rfl

def HasMagic (s : FormatSearch) (t : PartTag)
    : Prop := marks (s.hds t.hd).sectors (s.part t).superLba

/--
All partitions on the second disks of the channels have super blocks, and those that had them before
were not formatted: no `partition_format` wrote their super blocks.
-/
structure EveryPartition (channelCnt : UInt8) (s s' : FormatSearch) : Prop where
  magic : ∀ c < channelCnt.toNat, ∀ t ∈ s.existing (2 * c + 1), s'.HasMagic t
  kept : ∀ c < channelCnt.toNat, ∀ t ∈ s.existing (2 * c + 1), s.HasMagic t →
    ∀ u ∈ s'.formatted, u.hd = t.hd → ¬ ((s.part u).superLba ≤ (s.part t).superLba
      ∧ (s.part t).superLba ≤ (s.part u).areaEnd)

def Searches (channelCnt : UInt8) (hds : Nat → Hd) : Prop :=
  ∃ s', (search channelCnt).run ⟨hds, []⟩ = .ok ((), s') ∧ EveryPartition channelCnt ⟨hds, []⟩ s'

/--
On the second disk of the first channel, the partitions that are blank when they are visited can be
formatted, which writes the super block of none that has it, and that of another one only if one
with this super block comes behind. On the second disk of the second channel, all have super blocks.
-/
structure Searchable (channelCnt : UInt8) (hds : Nat → Hd) : Prop where
  first : (superBlocks (part ⟨hds, []⟩)).Fits (marks (hds 1).sectors) (existing ⟨hds, []⟩ 1)
  second : 1 < channelCnt → ∀ t ∈ existing ⟨hds, []⟩ 3, HasMagic ⟨hds, []⟩ t

theorem tags_hd (h : t ∈ tags hd) : t.hd = hd := by
  rw [tags, List.mem_append, List.mem_map, List.mem_map] at h
  obtain ⟨_, -, rfl⟩ | ⟨_, -, rfl⟩ := h
  . rfl
  . rfl

theorem existing_hd (h : t ∈ s.existing hd) : t.hd = hd := tags_hd (List.mem_filter.mp h).1

theorem Kept.part_eq (h : Kept hd s s') : s'.part t = s.part t := by
  rw [part, h.parts, part]

theorem EveryPartition.settled {log : List PartTag} {M' : Nat → Prop}
    (h : EveryPartition channelCnt s s') (hcnt : 0 < channelCnt.toNat) (hkept : Kept 1 s s')
    (hlog : s'.formatted = log) (hM : M' = marks (s'.hds 1).sectors)
    (hvisits : (superBlocks s.part).Visits (marks (s.hds 1).sectors) (s.existing 1) M' log)
    : (superBlocks s.part).Settled (marks (s.hds 1).sectors) (s.existing 1) M' log := by
  constructor
  . intro t ht
    have hmagic := h.magic 0 hcnt t ht
    rw [HasMagic, hkept.part_eq, existing_hd ht] at hmagic
    rw [hM]
    exact hmagic
  . intro t ht hmark
    have hmagic : s.HasMagic t := by
      rw [HasMagic, existing_hd ht]
      exact hmark
    have hnot := h.kept 0 hcnt t ht hmagic
    rw [hlog] at hnot
    constructor
    . intro hmem
      apply hnot t hmem rfl
      rw [HdPart.areaEnd]
      omega
    . intro u hu hregion
      apply hnot u hu
      . rw [existing_hd (hvisits.mem_of_log hu), existing_hd ht]
      . exact ⟨Nat.le_of_lt hregion.1, hregion.2⟩

theorem ideInit_registered {disks : Nat → Mem} {l : List Nat} {fuel : Nat} {s : Disks}
    (h : (ideInit.disks fuel l).run (.boot disks) = .ok ((), s)) : Registered s.hds := by
  have hdisks : Stable (fun s : Disks => Registered s.hds) (ideInit.disks fuel l) := by
    clear h
    induction l with
    | nil => exact stable_pure
    | cons hd l ih =>
      refine stable_bind ?_ fun _ => ih
      intro s r hs hr
      obtain ⟨t, hr, hscan⟩ := disk_run hr
      have hnamed : Registered (s.named hd).hds := by
        intro k kind idx
        have hparts : ((s.named hd).hds k).parts = (s.hds k).parts := by
          simp only [Disks.named, Function.update_apply]
          split
          . next heq => rw [heq]
          . rfl
        rw [hparts]
        exact hs k kind idx
      rw [hr]
      split at hscan
      . refine calls_stable (P := fun s => Registered s.hds) ?_ ?_ _ _ hnamed hscan
        . intro kind extLba p s hs k kind' idx
          show ((partitionScan.added hd kind extLba p s).part ⟨k, kind', idx⟩).secCnt ≠ 0
            → ((partitionScan.added hd kind extLba p s).part ⟨k, kind', idx⟩).myDisk = some k
          rw [part_added]
          split
          . next htag =>
            intro _
            rw [show k = hd from congrArg PartTag.hd htag]
            rfl
          . exact hs k kind' idx
        . exact fun _ _ hs _ => hs
      . rw [hscan]
        exact hnamed
  refine hdisks _ _ ?_ h
  intro hd kind idx hne
  exact absurd rfl hne

theorem Searches.searchable (h : Searches channelCnt hds) (hcnt : channelCnt = 1 ∨ channelCnt = 2)
    (hreg : Registered hds)
    : Searchable channelCnt hds := by
  have hpos : 0 < channelCnt.toNat := by
    obtain rfl | rfl := hcnt <;> decide
  obtain ⟨s', hrun, hevery⟩ := h
  rw [search_run hcnt] at hrun
  obtain ⟨hkept, log, hlog, hvisits⟩ := visitAll_visits (fun t ht => tags_hd ht) hreg hrun
  have hsettled := hevery.settled hpos hkept hlog rfl hvisits
  constructor
  . exact hsettled.fits hvisits
  . intro htwo t ht
    have hmagic := hevery.magic 1 (UInt8.lt_iff_toNat_lt.mp htwo) t ht
    rw [HasMagic, hkept.part_eq, existing_hd ht, hkept.others _ (by decide)] at hmagic
    rw [HasMagic, existing_hd ht]
    exact hmagic

end FormatSearch

end Visits

end RogOS
