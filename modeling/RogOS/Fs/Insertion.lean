import Mathlib.Data.Finset.Prod
import RogOS.Fs.Lemmas.Format
import RogOS.Fs.Lemmas.Ownership

/-!
Inserting entries in a directory with `sync_dir_entry`: how often the entry is in the directory
afterwards, and that lookups find what they found before.
-/

namespace RogOS

variable {part : Partition}

section Count

variable {a : Image} {ino : Inode} {e : DirEntry}

def Image.holds (a : Image) (ino : Inode) (no : UInt32) (p : Nat × Nat) : Bool :=
  (a.dirent ino p.1 p.2).any fun d => d.fType != FileType.unknown.code && d.iNo == no

def Image.liveCount (a : Image) (ino : Inode) (no : UInt32) : Nat :=
  ((Finset.range 140 ×ˢ Finset.range 21).filter fun p => a.holds ino no p = true).card

def Image.HasRoom (a : Image) (ino : Inode) : Prop :=
  ∃ i < 12, a.FullBelow ino i ∧ ino.sector i ≠ 0
    ∧ freeSlot (a.sec (ino.sector i).toNat) ≠ none

theorem Image.liveCount_eq_zero {no : UInt32}
    : a.liveCount ino no = 0 ↔ ∀ i < 140, ∀ k < 21, a.holds ino no (i, k) = false := by
  unfold liveCount
  rw [Finset.card_eq_zero, Finset.filter_eq_empty_iff]
  simp only [Finset.mem_product, Finset.mem_range, Prod.forall, Bool.not_eq_true]
  constructor
  . intro h i hi k hk
    exact h i k ⟨hi, hk⟩
  . intro h i k hik
    exact h i hik.1 k hik.2

theorem Image.holds_self (he : e.fType ≠ 0) {i k : Nat} (h : a.dirent ino i k = some e)
    : a.holds ino e.iNo (i, k) = true := by
  simp [holds, h, FileType.code, he]

theorem Image.FullBelow.not_hasRoom {i : Nat} (hfull : a.FullBelow ino i) (hi : i ≤ 12)
    (h0 : i < 12 → ino.sector i = 0) : ¬ a.HasRoom ino := by
  rintro ⟨j, hj, hfull', hne, hfree⟩
  have h1 : ¬ j < i := fun h => hfree (hfull j h).2
  have h2 : ¬ i < j := fun h => (hfull' i h).1 (h0 (by omega))
  have h3 : i = j := by omega
  subst h3
  exact hne (h0 hj)

theorem Image.Inserted.holds_iff {a' : Image} {ino' : Inode} (h : a.Inserted part ino e a' ino')
    (how : a.Owns part ino) (he : e.fType ≠ 0) (hnew : a.liveCount ino e.iNo = 0)
    : (a.HasRoom ino ∧ ino'.iSize = ino.iSize + 24
        ∧ ∃ i k, i < 140 ∧ k < 21 ∧ ∀ j < 140, ∀ l < 21, a'.holds ino' e.iNo (j, l)
            = decide (j = i ∧ l = k))
      ∨ ¬ a.HasRoom ino
        ∧ ∃ i < 140, a'.holds ino' e.iNo (i, 0) = true ∧ a'.holds ino' e.iNo (i, 1) = true := by
  cases h with
  | slot i k hi hfull hblock hk =>
    left
    have hk' := (findSlot_eq_some hk).2.1
    refine ⟨⟨i, hi, hfull, hblock, by rw [hk]; simp⟩, rfl, i, k, by omega, by omega, ?_⟩
    intro j hj l hl
    have hd := how.dirent_slot (e := e) (k := k) hi hblock hj hl
    by_cases hjl : j = i ∧ l = k
    . rw [if_pos hjl] at hd
      rw [holds_self he hd, decide_eq_true hjl]
    . rw [if_neg hjl] at hd
      have hold := liveCount_eq_zero.mp hnew j hj l hl
      simp only [holds] at hold ⊢
      rw [hd, hold, decide_eq_false hjl]
  | block i b hi hfull hblock hb =>
    right
    refine ⟨hfull.not_hasRoom (by omega) fun _ => hblock, i, by omega, ?_, ?_⟩
    . apply holds_self he
      rw [how.dirent_block hb hi (by omega) (by omega)]
      simp
    . apply holds_self he
      rw [how.dirent_block hb hi (by omega) (by omega)]
      simp
  | table b c hfull hb hc =>
    right
    refine ⟨hfull.not_hasRoom (by omega) (by omega), 12, by omega, ?_, ?_⟩
    . apply holds_self he
      rw [how.dirent_table hb hc (by omega) (by omega)]
      simp
    . apply holds_self he
      rw [how.dirent_table hb hc (by omega) (by omega)]
      simp

theorem Image.liveCount_eq_one {no : UInt32} {i k : Nat} (hi : i < 140) (hk : k < 21)
    (h : ∀ j < 140, ∀ l < 21, a.holds ino no (j, l) = decide (j = i ∧ l = k))
    : a.liveCount ino no = 1 := by
  unfold liveCount
  rw [Finset.card_eq_one]
  refine ⟨(i, k), ?_⟩
  apply Finset.ext
  rintro ⟨j, l⟩
  simp only [Finset.mem_filter, Finset.mem_product, Finset.mem_range, Finset.mem_singleton,
    Prod.mk.injEq]
  constructor
  . rintro ⟨⟨hj, hl⟩, hh⟩
    simpa [h j hj l hl] using hh
  . rintro ⟨rfl, rfl⟩
    exact ⟨⟨hi, hk⟩, by simp [h j hi l hk]⟩

theorem Image.liveCount_ne_one {no : UInt32} {i : Nat} (hi : i < 140)
    (h0 : a.holds ino no (i, 0) = true)
    (h1 : a.holds ino no (i, 1) = true) : a.liveCount ino no ≠ 1 := by
  unfold liveCount
  intro h
  rw [Finset.card_eq_one] at h
  obtain ⟨p, hp⟩ := h
  have m0 : (i, 0) ∈ ({p} : Finset (Nat × Nat)) := by
    rw [← hp]
    simp [hi, h0]
  have m1 : (i, 1) ∈ ({p} : Finset (Nat × Nat)) := by
    rw [← hp]
    simp [hi, h1]
  rw [Finset.mem_singleton] at m0 m1
  rw [← m0] at m1
  simp at m1

/--
`sync_dir_entry` adds exactly one entry if and only if it finds a free slot in a block before it
meets a missing block: a new block gets the entry twice.
-/
theorem syncDirEntry_adds_one_iff {v v' : Vol} {ino' : Inode} (ht : (v.image part).TailUsed part)
    (how : (v.image part).Owns part ino) (he : e.fType ≠ FileType.unknown.code)
    (hnew : (v.image part).liveCount ino e.iNo = 0)
    (h : (syncDirEntry part ino e).run v = .ok ((true, ino'), v'))
    : ((v'.image part).liveCount ino' e.iNo = 1 ∧ ino'.iSize = ino.iSize + part.sb.dirEntrySize)
        ↔
      (v.image part).HasRoom ino := by
  have hins := (syncDirEntry_run (fun j hj h0 => how.isBlock_sector hj h0) ht he h).2.2
  rw [Partition.dirEntrySize_eq]
  obtain ⟨hroom, hsize, i, k, hi, hk, hh⟩ | ⟨hroom, i, hi, h0, h1⟩ := hins.holds_iff how he hnew
  . simp only [hroom, iff_true]
    exact ⟨Image.liveCount_eq_one hi hk hh, hsize⟩
  . simp only [hroom, iff_false]
    intro hcount
    exact Image.liveCount_ne_one hi h0 h1 hcount.1

end Count

section Lookup

variable {a a' : Image} {ino ino' : Inode} {e : DirEntry} {name : List UInt8}

theorem Image.Inserted.dirent_or (h : a.Inserted part ino e a' ino') (how : a.Owns part ino)
    {j l : Nat} (hj : j < 140) (hl : l < 21)
    : a'.dirent ino' j l = some e ∨ a'.dirent ino' j l = some DirEntry.blank
        ∨ a'.dirent ino' j l = none ∨ a'.dirent ino' j l = a.dirent ino j l := by
  cases h with
  | slot i k hi hfull hblock hk =>
    rw [how.dirent_slot hi hblock hj hl]
    split
    . exact .inl rfl
    . exact .inr (.inr (.inr rfl))
  | block i b hi hfull hblock hb =>
    rw [how.dirent_block hb hi hj hl]
    split
    . split
      . exact .inl rfl
      . exact .inr (.inl rfl)
    . exact .inr (.inr (.inr rfl))
  | table b c hfull hb hc =>
    rw [how.dirent_table hb hc hj hl]
    split
    . exact .inr (.inr (.inr rfl))
    . split
      . split
        . exact .inl rfl
        . exact .inr (.inl rfl)
      . exact .inr (.inr (.inl rfl))

theorem Image.Inserted.properEntries (h : a.Inserted part ino e a' ino') (how : a.Owns part ino)
    (hp : a.ProperEntries ino) (he : e.fType ≠ 0) (he' : e.fType ≤ 2) : a'.ProperEntries ino' := by
  intro j hj l hl d hd
  obtain h1 | h1 | h1 | h1 := h.dirent_or how hj hl
  . rw [h1] at hd
    cases hd
    exact ⟨he', fun h0 => absurd h0 he⟩
  . rw [h1] at hd
    cases hd
    exact ⟨by decide, fun _ => rfl⟩
  . rw [h1] at hd
    contradiction
  . rw [h1] at hd
    exact hp j hj l hl d hd

theorem Image.Inserted.dirent_old (h : a.Inserted part ino e a' ino') (how : a.Owns part ino)
    (hp : a.ProperEntries ino) (htab : ¬ (a.FullBelow ino 12 ∧ ino.sector 12 ≠ 0))
    {j l : Nat} (hj : j < 140) (hl : l < 21)
    : a.dirent ino j l = some DirEntry.blank ∨ a.dirent ino j l = none
        ∨ a.dirent ino j l = a'.dirent ino' j l := by
  cases h with
  | slot i k hi hfull hblock hk =>
    rw [how.dirent_slot hi hblock hj hl]
    split
    . next hjl =>
      left
      obtain ⟨rfl, rfl⟩ := hjl
      have hfree := (findSlot_eq_some hk).2.2.1
      have hd : a.dirent ino j l = some (DirEntry.at (a.sec (ino.sector j).toNat) l) := by
        unfold dirent
        rw [ref_direct hi, if_neg hblock]
      rw [hd, (hp j hj l hl _ hd).2 (by simpa [FileType.code] using hfree)]
    . exact .inr (.inr rfl)
  | block i b hi hfull hblock hb =>
    rw [how.dirent_block hb hi hj hl]
    split
    . next hji =>
      right
      left
      unfold dirent
      rw [hji, ref_direct hi, if_pos hblock]
    . exact .inr (.inr rfl)
  | table b c hfull hb hc =>
    rw [how.dirent_table hb hc hj hl]
    split
    . exact .inr (.inr rfl)
    . next hge =>
      right
      left
      have h12 : ino.sector 12 = 0 := by
        by_contra h0
        exact htab ⟨hfull, h0⟩
      unfold dirent
      rw [ref_of_lt hj, block_of_ge (by omega), h12]
      simp

theorem Image.Inserted.lookup_eq (h : a.Inserted part ino e a' ino') (how : a.Owns part ino)
    (hp : a.ProperEntries ino) (he : e.fType ≠ 0) (he' : e.fType ≤ 2)
    (htab : ¬ (a.FullBelow ino 12 ∧ ino.sector 12 ≠ 0)) (hname : 0 ∉ name) (hne : name ≠ [])
    (hother : ¬ e.HasName name) : a'.lookup ino' name = a.lookup ino name := by
  apply lookup_congr (h.properEntries how hp he he') hp hname
  intro j hj l hl hn
  have hold := h.dirent_old how hp htab hj hl
  have hnew := h.dirent_or how hj hl
  have hblank := DirEntry.not_hasName_blank hname hne
  cases hn with
  | inl hn =>
    obtain ⟨d, hd, hdn⟩ := hn
    obtain h1 | h1 | h1 | h1 := hnew
    . rw [h1] at hd
      cases hd
      contradiction
    . rw [h1] at hd
      cases hd
      contradiction
    . rw [h1] at hd
      contradiction
    . exact h1
  | inr hn =>
    obtain ⟨d, hd, hdn⟩ := hn
    obtain h1 | h1 | h1 := hold
    . rw [h1] at hd
      cases hd
      contradiction
    . rw [h1] at hd
      contradiction
    . exact h1.symm

end Lookup

section Run

def insertEntry (part : Partition) (e : DirEntry) : Cmd Fault (Vol × Inode) Bool := fun s =>
  match (syncDirEntry part s.2 e).run s.1 with
  | .ok ((r, inode), v) => .ok (r, (v, inode))
  | .error f => .error f

theorem insertEntry_run {e : DirEntry} {s : Vol × Inode} {r : Bool × Vol × Inode}
    : (insertEntry part e).run s = .ok r ↔ (syncDirEntry part s.2 e).run s.1
        = .ok ((r.1, r.2.2), r.2.1) := by
  obtain ⟨x, v', ino'⟩ := r
  unfold insertEntry
  simp only [StateT.run]
  cases (syncDirEntry part s.2 e) s.1 with
  | error f => simp
  | ok p =>
    obtain ⟨⟨y, ino⟩, v⟩ := p
    simp only [Except.ok.injEq, Prod.mk.injEq]
    tauto

structure DirState (part : Partition) (s : Vol × Inode) : Prop where
  tail : (s.1.image part).TailUsed part
  owns : (s.1.image part).Owns part s.2
  proper : (s.1.image part).ProperEntries s.2

/--
The entry is one for a file or a directory, its name was looked up before and not found, and the
insertion does not run into an indirect table that exists already.
-/
structure InsertGuard (part : Partition) (s : Vol × Inode) (e : DirEntry) : Prop where
  typed : e.fType = FileType.regular.code ∨ e.fType = FileType.directory.code
  new : ∀ name : CStr, e.HasName name.chars →
    (searchDirEntry part s.2 name.chars).run s.1 = .ok (none, s.1)
  noTable : ¬ ((s.1.image part).FullBelow s.2 12 ∧ s.2.sector 12 ≠ 0)

variable {s s' : Vol × Inode}

theorem InsertGuard.fType_ne {e : DirEntry} (h : InsertGuard part s e) : e.fType ≠ 0 := by
  obtain h | h := h.typed <;> rw [h] <;> decide

theorem InsertGuard.fType_le {e : DirEntry} (h : InsertGuard part s e) : e.fType ≤ 2 := by
  obtain h | h := h.typed <;> rw [h] <;> decide

theorem insertEntry_step {e : DirEntry} {r : Bool} (hs : DirState part s)
    (hg : InsertGuard part s e) (h : (insertEntry part e).run s = .ok (r, s'))
    : DirState part s' ∧ ∀ name : CStr, name.chars ≠ [] → ∀ d,
        (s.1.image part).lookup s.2 name.chars = some d →
        (s'.1.image part).lookup s'.2 name.chars = some d := by
  rw [insertEntry_run] at h
  have hins :=
    (syncDirEntry_run (fun j hj h0 => hs.owns.isBlock_sector hj h0) hs.tail hg.fType_ne h).2.2
  refine ⟨⟨hins.tailUsed hs.tail, hins.owns hs.owns hs.tail,
    hins.properEntries hs.owns hs.proper hg.fType_ne hg.fType_le⟩, ?_⟩
  intro name hne d hd
  have hother : ¬ e.HasName name.chars := by
    intro hname
    have hnone := hg.new name hname
    rw [searchDirEntry_run hs.owns.inBlocks, hd] at hnone
    simp at hnone
  rw [hins.lookup_eq hs.owns hs.proper hg.fType_ne hg.fType_le hg.noTable name.nulFree hne hother]
  exact hd

/--
Along every run of insertions that never replaces an indirect table, `search_dir_entry` keeps
finding the entries it found before.
-/
theorem searchDirEntry_of_reach_insertEntry (hs : DirState part s)
    (hr : Cmd.Reach (insertEntry part) (InsertGuard part) s s') (name : CStr)
    (hne : name.chars ≠ []) {d : DirEntry}
    (hd : (searchDirEntry part s.2 name.chars).run s.1 = .ok (some d, s.1))
    : (searchDirEntry part s'.2 name.chars).run s'.1 = .ok (some d, s'.1) := by
  have hinv : DirState part s' ∧ (s'.1.image part).lookup s'.2 name.chars = some d := by
    apply Cmd.Reach.invariant
      (P := fun x : Vol × Inode => DirState part x ∧ (x.1.image part).lookup x.2 name.chars
        = some d) _ _ hr
    . intro x e r x' hx hg hrun
      obtain ⟨h1, h2⟩ := insertEntry_step hx.1 hg hrun
      exact ⟨h1, h2 name hne d hx.2⟩
    . refine ⟨hs, ?_⟩
      rw [searchDirEntry_run hs.owns.inBlocks] at hd
      simpa using hd
  rw [searchDirEntry_run hinv.1.owns.inBlocks, hinv.2]

end Run

section Packed

def packedSector (b : Nat) : Mem := fun i =>
  if i < 504 then
    if i % 24 = 0 then UInt8.ofNat (65 + i / 24)
    else if i % 24 = 1 then UInt8.ofNat (65 + b)
    else if i % 24 = 16 then UInt8.ofNat (21 * b + i / 24 + 1)
    else if i % 24 = 20 then 1
    else 0
  else
    0

def packedVol : Vol where
  disk := fun i =>
    let b := i / 512 - 676
    if i / 512 < 676 then 0
    else if b < 12 then packedSector b (i % 512)
    else if b = 12 then singleTable 689 (i % 512)
    else if b = 13 then doubleSector (DirEntry.new [120] 253 .regular) (i % 512)
    else 0
  blockBits := fun i => if i = 1 then 0x3f else 0xff
  inodeBits := fun _ => 0xff

def packedInode (n : Nat) (t : Bool) : Inode where
  iNo := 0
  iSize := UInt32.ofNat (504 * n)
  iOpenCnts := 1
  writeDeny := false
  iSectors := Vector.ofFn fun i =>
    if i.val < n then UInt32.ofNat (676 + i)
    else if i.val = 12 ∧ t then 688
    else 0

theorem packedVol_tailUsed : (packedVol.image smallPartition).TailUsed smallPartition := by
  intro b hb _
  have h16 : 16 ≤ smallPartition.bitLen := by decide
  have hbyte : packedVol.blockBits (b / 8) = 0xff := by
    simp only [packedVol, ite_eq_right_iff]
    intro h
    omega
  simp only [Vol.image, Mem.bit, hbyte]
  exact bitmapScan.testBit_ff (by omega)

def fileY : DirEntry := DirEntry.new [121] 254 .regular

structure Image.BlockList (part : Partition) (a : Image) (ino : Inode) (l : List Nat) : Prop where
  refs : ∀ j < 141, a.ref ino j ≠ 0 → j ∈ l
  blocks : ∀ i ∈ l, (part.sb.dataStartLba.toNat ≤ (a.ref ino i).toNat
      ∧ (a.ref ino i).toNat < part.sb.dataStartLba.toNat + part.bitLen)
    ∧ a.blockUsed (part.blockIdx (a.ref ino i)) = true
  inj : ∀ i ∈ l, ∀ j ∈ l, a.ref ino i = a.ref ino j → i = j

section BlockList

variable {part : Partition} {a : Image} {ino : Inode} {l : List Nat}

theorem Image.BlockList.owns (h : a.BlockList part ino l) : a.Owns part ino where
  isBlock j hj h0 := (h.blocks j (h.refs j hj h0)).1
  used j hj h0 := (h.blocks j (h.refs j hj h0)).2
  inj i hi j hj h0 heq := h.inj i (h.refs i hi h0) j (h.refs j hj (by rw [← heq]; exact h0)) heq

theorem Image.BlockList.dirent_eq_none (h : a.BlockList part ino l) {i k : Nat} (hi : i < 140)
    (hl : i ∉ l)
    : a.dirent ino i k = none := by
  unfold dirent
  rw [if_pos]
  by_contra h0
  exact hl (h.refs i (by omega) h0)

theorem Image.BlockList.proper (h : a.BlockList part ino l)
    (hall : ∀ i ∈ l, i < 140 → ∀ k < 21, (a.dirent ino i k).all
      (fun d => d.fType ≤ 2 && (d.fType != 0 || d == DirEntry.blank)) = true) :
        a.ProperEntries ino := by
  intro i hi k hk d hd
  by_cases hl : i ∈ l
  . have := hall i hl hi k hk
    rw [hd] at this
    simp only [Option.all_some, Bool.and_eq_true, decide_eq_true_eq, Bool.or_eq_true, bne_iff_ne,
      beq_iff_eq] at this
    exact ⟨this.1, fun h0 => this.2.resolve_left fun hne => hne h0⟩
  . rw [h.dirent_eq_none hi hl] at hd
    contradiction

end BlockList

structure PackedOne (a : Image) (ino : Inode) (l : List Nat)
    : Prop extends a.BlockList smallPartition ino l where
  entries : ∀ i ∈ l, i < 140 → ∀ k < 21, (a.dirent ino i k).all
    (fun d => d.fType ≤ 2 && (d.fType != 0 || d == DirEntry.blank)) = true
  absent : ∀ i ∈ l, i < 140 → ∀ k < 21, a.holds ino fileY.iNo (i, k) = false
  lookupY : a.lookup ino [121] = none
  lookupAA : (a.lookup ino [65, 65]).isSome = true

structure PackedInsert (x : Cmd Fault (Vol × Inode) Bool) (s : Vol × Inode) : Prop where
  returns : x.returns s id = true
  first : ((x.after s).1.image smallPartition).holds (x.after s).2 fileY.iNo (1, 0) = true
  second : ((x.after s).1.image smallPartition).holds (x.after s).2 fileY.iNo (1, 1) = true

theorem packedInode_one_computed
    : PackedOne (packedVol.image smallPartition) (packedInode 1 false) [0]
        ∧ PackedInsert (insertEntry smallPartition fileY) (packedVol, packedInode 1 false) := by
  refine ⟨⟨⟨?_, ?_, ?_⟩, ?_, ?_, ?_, ?_⟩, ?_, ?_, ?_⟩ <;> decide +kernel

theorem packedInode_one_owns
    : (packedVol.image smallPartition).Owns smallPartition (packedInode 1 false) :=
  packedInode_one_computed.1.owns

theorem packedInode_one_proper
    : (packedVol.image smallPartition).ProperEntries (packedInode 1 false) :=
  packedInode_one_computed.1.proper packedInode_one_computed.1.entries

theorem packedInode_one_liveCount
    : (packedVol.image smallPartition).liveCount (packedInode 1 false) fileY.iNo = 0 := by
  have h := packedInode_one_computed.1
  rw [Image.liveCount_eq_zero]
  intro i hi k hk
  by_cases hl : i ∈ [0]
  . exact h.absent i hl hi k hk
  . unfold Image.holds
    rw [h.dirent_eq_none hi hl]
    rfl

theorem packedInode_one_insert
    : ∃ ino' v', (syncDirEntry smallPartition (packedInode 1 false) fileY).run packedVol
        = .ok ((true, ino'), v')
        ∧ (v'.image smallPartition).holds ino' fileY.iNo (1, 0) = true
        ∧ (v'.image smallPartition).holds ino' fileY.iNo (1, 1) = true := by
  have h := packedInode_one_computed.2
  obtain ⟨r, hrun, hr⟩ := Cmd.run_of_returns h.returns
  rw [insertEntry_run, show r = true from hr] at hrun
  exact ⟨_, _, hrun, h.first, h.second⟩

/-- When the only block of a directory is full, a new entry is put in a new block twice. -/
theorem syncDirEntry_adds_two
    : ∃ (v v' : Vol) (ino ino' : Inode) (e : DirEntry),
        (v.image smallPartition).TailUsed smallPartition
          ∧ (v.image smallPartition).Owns smallPartition ino
        ∧ e.fType ≠ FileType.unknown.code ∧ (v.image smallPartition).liveCount ino e.iNo = 0
        ∧ e.HasName [121] ∧ (v.image smallPartition).lookup ino [121] = none
        ∧ (syncDirEntry smallPartition ino e).run v = .ok ((true, ino'), v')
        ∧ (v'.image smallPartition).liveCount ino' e.iNo ≠ 1 := by
  obtain ⟨ino', v', hrun, h0, h1⟩ := packedInode_one_insert
  exact ⟨packedVol, v', packedInode 1 false, ino', fileY, packedVol_tailUsed, packedInode_one_owns,
    by decide, packedInode_one_liveCount, by decide, packedInode_one_computed.1.lookupY, hrun,
    Image.liveCount_ne_one (by omega) h0 h1⟩

theorem syncDirEntry_adds_one_packed
    : ∃ ino' v', (syncDirEntry smallPartition (packedInode 1 false) fileY).run packedVol
        = .ok ((true, ino'), v')
        ∧ (((v'.image smallPartition).liveCount ino' fileY.iNo = 1
            ∧ ino'.iSize = (packedInode 1 false).iSize + smallPartition.sb.dirEntrySize)
          ↔ (packedVol.image smallPartition).HasRoom (packedInode 1 false)) := by
  obtain ⟨ino', v', hrun, -, -⟩ := packedInode_one_insert
  exact ⟨ino', v', hrun, syncDirEntry_adds_one_iff packedVol_tailUsed packedInode_one_owns
    (by decide)
    packedInode_one_liveCount hrun⟩

structure PackedTwelve (a : Image) (ino : Inode) (l : List Nat)
    : Prop extends a.BlockList smallPartition ino l where
  entries : ∀ i ∈ l, i < 140 → ∀ k < 21, (a.dirent ino i k).all
    (fun d => d.fType ≤ 2 && (d.fType != 0 || d == DirEntry.blank)) = true
  lookupX : a.lookup ino [120] = some (DirEntry.new [120] 253 .regular)
  lookupY : a.lookup ino [121] = none

structure PackedLoss (x : Cmd Fault (Vol × Inode) Bool) (s : Vol × Inode) : Prop where
  returns : x.returns s id = true
  lost : ((x.after s).1.image smallPartition).lookup (x.after s).2 [120] = none

theorem packedInode_twelve_computed
    : PackedTwelve (packedVol.image smallPartition) (packedInode 12 true) [0, 1, 2, 3, 4, 5, 6, 7,
        8, 9, 10, 11, 12, 140]
        ∧ PackedLoss (insertEntry smallPartition fileY) (packedVol, packedInode 12 true) := by
  refine ⟨⟨⟨?_, ?_, ?_⟩, ?_, ?_, ?_⟩, ?_, ?_⟩ <;> decide +kernel

theorem packedInode_twelve_dirState : DirState smallPartition (packedVol, packedInode 12 true) where
  tail := packedVol_tailUsed
  owns := packedInode_twelve_computed.1.owns
  proper := packedInode_twelve_computed.1.proper packedInode_twelve_computed.1.entries

theorem packedInode_twelve_lookup
    : (searchDirEntry smallPartition (packedInode 12 true) [120]).run packedVol
        =
      .ok (some (DirEntry.new [120] 253 .regular), packedVol) := by
  rw [searchDirEntry_run packedInode_twelve_dirState.owns.inBlocks,
    packedInode_twelve_computed.1.lookupX]

/--
With twelve full blocks an insertion replaces the indirect table, and `x` is not found any more.
-/
theorem insertEntry_loses_entry
    : ∃ (s s' : Vol × Inode) (e : DirEntry), DirState smallPartition s
        ∧ e.fType = FileType.regular.code ∧ e.HasName [121]
        ∧ (searchDirEntry smallPartition s.2 [121]).run s.1 = .ok (none, s.1)
        ∧ (searchDirEntry smallPartition s.2 [120]).run s.1
            = .ok (some (DirEntry.new [120] 253 .regular), s.1)
        ∧ (insertEntry smallPartition e).run s = .ok (true, s')
        ∧ (searchDirEntry smallPartition s'.2 [120]).run s'.1 = .ok (none, s'.1) := by
  have hs := packedInode_twelve_dirState
  have h := packedInode_twelve_computed.2
  obtain ⟨r, hrun, hr⟩ := Cmd.run_of_returns h.returns
  rw [show r = true from hr] at hrun
  refine ⟨_, _, fileY, hs, rfl, by decide, ?_, packedInode_twelve_lookup, hrun, ?_⟩
  . rw [searchDirEntry_run hs.owns.inBlocks, packedInode_twelve_computed.1.lookupY]
  . rw [insertEntry_run] at hrun
    have hins :=
      (syncDirEntry_run (fun j hj h0 => hs.owns.isBlock_sector hj h0) hs.tail (by decide) hrun).2.2
    rw [searchDirEntry_run (hins.owns hs.owns hs.tail).inBlocks, h.lost]

theorem searchDirEntry_of_reach_packed
    : ∃ s', Cmd.Reach (insertEntry smallPartition) (InsertGuard smallPartition)
        (packedVol, packedInode 1 false) s'
        ∧ ∃ d, (searchDirEntry smallPartition s'.2 [65, 65]).run s'.1 = .ok (some d, s'.1) := by
  have hs : DirState smallPartition (packedVol, packedInode 1 false) :=
    ⟨packedVol_tailUsed, packedInode_one_owns, packedInode_one_proper⟩
  have hg : InsertGuard smallPartition (packedVol, packedInode 1 false) fileY := by
    refine ⟨.inl rfl, ?_, by intro h; exact h.2 (by decide)⟩
    intro name hname
    have hy : name.chars = [121] :=
      (DirEntry.new_hasName_iff (by decide) (by decide) name.nulFree).mp hname
    rw [searchDirEntry_run hs.owns.inBlocks, hy, packedInode_one_computed.1.lookupY]
  have hfound := Option.isSome_iff_exists.mp packedInode_one_computed.1.lookupAA
  obtain ⟨r, hrun, -⟩ := Cmd.run_of_returns packedInode_one_computed.2.returns
  obtain ⟨d, hd⟩ := hfound
  have hreach := Relation.ReflTransGen.single (r := Cmd.Step (insertEntry smallPartition)
    (InsertGuard smallPartition)) ⟨fileY, r, hg, hrun⟩
  refine ⟨_, hreach, d, ?_⟩
  apply searchDirEntry_of_reach_insertEntry hs hreach ⟨[65, 65], by decide⟩ (by simp)
  rw [searchDirEntry_run hs.owns.inBlocks, hd]

end Packed

end RogOS
