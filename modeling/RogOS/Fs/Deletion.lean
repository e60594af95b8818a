import RogOS.Fs.Insertion
import RogOS.Fs.Lemmas.DeleteRun

/-!
Deleting entries of a directory with `delete_dir_entry`: what lookups find afterwards, what becomes
of the block that held the entry, and when the function returns at all.
-/

namespace RogOS

variable {part : Partition} {v v' : Vol} {a a' : Image} {ino ino' : Inode} {m : UInt32} {i k : Nat}

section Removed

def IsDotDot (buf : Mem) (k : Nat) : Prop :=
  (DirEntry.at buf k).fType ≠ FileType.unknown.code ∧ nameEq buf k [46, 46] = true

instance {buf : Mem} : Decidable (IsDotDot buf k) := inferInstanceAs (Decidable (_ ∧ _))

/--
A directory: its blocks are its own, its entries have proper types, `..` is in a block with `.`, and
no two of its other entries have the same inode number.
-/
structure Image.IsDir (part : Partition) (a : Image) (ino : Inode) : Prop where
  owns : a.Owns part ino
  proper : a.ProperEntries ino
  dots : ∀ i < 140, a.block ino i ≠ 0 → ∀ k < 21, IsDotDot (a.blockSec ino i) k →
    ∃ l < 21, IsDot (a.blockSec ino i) l
  numbers : ∀ m, a.HeldOnce ino m

structure Image.Removed (a : Image) (ino : Inode) (i k : Nat) (a' : Image) (ino' : Inode)
    : Prop where
  kept : ∀ j < 140, ∀ l < 21, ¬ (j = i ∧ l = k) → ∀ d, a.dirent ino j l = some d → d.fType ≠ 0 →
    a'.dirent ino' j l = some d
  old : ∀ j < 140, ∀ l < 21, ∀ d, a'.dirent ino' j l = some d → d = DirEntry.blank
    ∨ ¬ (j = i ∧ l = k) ∧ a.dirent ino j l = some d

theorem Image.Removed.proper (h : a.Removed ino i k a' ino') (hp : a.ProperEntries ino)
    : a'.ProperEntries ino' := by
  intro j hj l hl d hd
  cases h.old j hj l hl d hd with
  | inl hblank =>
    rw [hblank]
    exact ⟨by decide, fun _ => rfl⟩
  | inr hold => exact hp j hj l hl d hold.2

variable {name : List UInt8} {d : DirEntry}

theorem Image.Removed.named (h : a.Removed ino i k a' ino') (hname : 0 ∉ name) (hne : name ≠ [])
    {j l : Nat} (hj : j < 140) (hl : l < 21) (hn : a'.Named ino' name j l)
    : ¬ (j = i ∧ l = k) ∧ a.Named ino name j l := by
  obtain ⟨d, hd, hdn⟩ := hn
  cases h.old j hj l hl d hd with
  | inl hblank =>
    rw [hblank] at hdn
    exact absurd hdn (DirEntry.not_hasName_blank hname hne)
  | inr hold => exact ⟨hold.1, d, hold.2, hdn⟩

theorem Image.Removed.lookup_ne (h : a.Removed ino i k a' ino') (hp : a.ProperEntries ino)
    (hname : 0 ∉ name) (hne : name ≠ [])
    (honce : ∀ j < 140, ∀ l < 21, a.dirent ino j l = some d → j = i ∧ l = k)
    : a'.lookup ino' name ≠ some d := by
  intro hd
  obtain ⟨j, hj, l, hl, hat, hdn⟩ := Image.lookup_eq_some (h.proper hp) hname hd
  cases h.old j hj l hl d hat with
  | inl hblank =>
    rw [hblank] at hdn
    exact DirEntry.not_hasName_blank hname hne hdn
  | inr hold => exact hold.1 (honce j hj l hl hold.2)

theorem Image.Removed.lookup_eq (h : a.Removed ino i k a' ino') (hp : a.ProperEntries ino)
    (hname : 0 ∉ name) (hne : name ≠ []) (hd : a.lookup ino name = some d)
    (hother : a.dirent ino i k ≠ some d)
    : a'.lookup ino' name = some d := by
  unfold lookup at hd ⊢
  rw [Option.map_eq_some_iff] at hd
  obtain ⟨⟨j, l⟩, hpos, hent⟩ := hd
  dsimp only at hent
  obtain ⟨-, hj, hl, hhit⟩ := findPos_eq_some hpos
  dsimp only at hj hl hhit
  have hj' : j < 140 := by omega
  have h0 : a.block ino j ≠ 0 := by
    simp only [hit, Bool.and_eq_true, bne_iff_ne] at hhit
    exact hhit.1
  have hat : a.dirent ino j l = some d := by
    rw [dirent_of_ne_zero hj' h0, hent]
  obtain ⟨d', hd', hdn⟩ := (hit_iff hp hname hj' hl).mp hhit
  rw [hat, Option.some.injEq] at hd'
  subst hd'
  have hlive : d.fType ≠ 0 := by
    intro hz
    rw [(hp j hj' l hl d hat).2 hz] at hdn
    exact DirEntry.not_hasName_blank hname hne hdn
  have hslot : ¬ (j = i ∧ l = k) := by
    rintro ⟨rfl, rfl⟩
    exact hother hat
  have hat' := h.kept j hj' l hl hslot d hat hlive
  have h0' : a'.block ino' j ≠ 0 := by
    intro hz
    unfold dirent at hat'
    rw [ref_of_lt hj', if_pos hz] at hat'
    contradiction
  rw [findPos_of_first (x := (j, l)) (Nat.zero_le _) hj hl]
  . rw [dirent_of_ne_zero hj' h0'] at hat'
    exact hat'
  . rw [hit_iff (h.proper hp) hname hj' hl]
    exact ⟨d, hat', hdn⟩
  . intro j' l' hge hl' hlt
    dsimp only at hlt
    have hj'' : j' < 140 := by omega
    rw [← Bool.not_eq_true, hit_iff (h.proper hp) hname hj'' hl']
    intro hn
    have hbefore := findPos_first hpos hge hl' hlt
    rw [(hit_iff hp hname hj'' hl').mpr (h.named hname hne hj'' hl' hn).2] at hbefore
    contradiction

theorem Image.ordinary_iff (hp : a.ProperEntries ino) (hi : i < 140) (hk : k < 21)
    (h0 : a.block ino i ≠ 0)
    : Ordinary (a.blockSec ino i) k
        ↔
      (a.entry ino i k).fType ≠ 0 ∧ ¬ (a.entry ino i k).HasName [46]
        ∧ ¬ (a.entry ino i k).HasName [46, 46] := by
  have hle := (hp i hi k hk _ (a.dirent_of_ne_zero hi h0)).1
  have hdot := @DirEntry.nameEq_iff (a.blockSec ino i) k [46] (by decide) hle
  have hdd := @DirEntry.nameEq_iff (a.blockSec ino i) k [46, 46] (by decide) hle
  unfold Ordinary entry
  rw [← hdot, ← hdd, Bool.not_eq_true, Bool.not_eq_true]
  rfl

theorem Image.Held.entry_eq (h : a.Held ino m i k) (hp : a.ProperEntries ino)
    (hone : a.HeldOnce ino m) {j l : Nat} (hj : j < 140) (hl : l < 21)
    (hat : a.dirent ino j l = some (a.entry ino i k))
    : j = i ∧ l = k := by
  have h0 : a.block ino j ≠ 0 := by
    intro hz
    unfold dirent at hat
    rw [ref_of_lt hj, if_pos hz] at hat
    contradiction
  rw [dirent_of_ne_zero hj h0, Option.some.injEq] at hat
  have hord := (ordinary_iff hp h.block h.slot h.present).mp h.holds.1
  rw [← hat] at hord
  refine hone j i l k ⟨hj, hl, h0, (ordinary_iff hp hj hl h0).mpr hord, ?_⟩ h
  exact (congrArg DirEntry.iNo hat).trans h.holds.2

theorem Image.IsDir.removed_clear (h : a.IsDir part ino) (hheld : a.Held ino m i k)
    : a.Removed ino i k
        (a.setSec (a.block ino i).toNat ((a.blockSec ino i).blit (k * 24) 24 Mem.zero)) ino where
  kept j hj l hl hne d hd _ := by
    rw [h.owns.dirent_clear hheld.block hheld.present hj hl, if_neg hne]
    exact hd
  old j hj l hl d hd := by
    rw [h.owns.dirent_clear hheld.block hheld.present hj hl] at hd
    split at hd
    . exact .inl (Option.some.inj hd).symm
    . next hne => exact .inr ⟨hne, hd⟩

theorem Image.IsDir.removed_unlink (h : a.IsDir part ino) (hheld : a.Held ino m i k) (hi : i < 12)
    (halone : Alone (a.blockSec ino i) k) : a.Removed ino i k a (ino.setSector i 0) where
  kept j hj l hl hne d hd hlive := by
    rw [dirent_setSector_zero hi]
    split
    . next hji =>
      exfalso
      subst hji
      have hent := a.dirent_of_ne_zero (k := l) hj hheld.present
      rw [hd, Option.some.injEq] at hent
      rw [hent] at hlive
      by_cases hdot : IsDot (a.blockSec ino j) l
      . exact halone.2 l hl hdot
      . by_cases hdd : IsDotDot (a.blockSec ino j) l
        . obtain ⟨x, hx, hxdot⟩ := h.dots j hj hheld.present l hl hdd
          exact halone.2 x hx hxdot
        . apply hne
          refine ⟨rfl, halone.1 l hl ⟨hlive, ?_, ?_⟩⟩
          . exact Bool.eq_false_iff.mpr fun hn => hdot ⟨hlive, hn⟩
          . exact Bool.eq_false_iff.mpr fun hn => hdd ⟨hlive, hn⟩
    . exact hd
  old j hj l hl d hd := by
    rw [dirent_setSector_zero hi] at hd
    split at hd
    . contradiction
    . next hji => exact .inr ⟨fun h => hji h.1, hd⟩

end Removed

section Delete

/--
The entry in slot `k` of block `i` is gone and nothing else: lookups do not find it and find what
they found otherwise, the directory is one entry shorter, and its block is given up if it was alone
there.
-/
structure DeletesOne (part : Partition) (v : Vol) (ino : Inode) (i k : Nat) (v' : Vol)
    (ino' : Inode) : Prop where
  gone : ∀ name : CStr, name.chars ≠ [] → ∃ r, (searchDirEntry part ino' name.chars).run v'
    = .ok (r, v')
    ∧ r ≠ some ((v.image part).entry ino i k)
  found : ∀ name : CStr, name.chars ≠ [] → ∀ d ≠ (v.image part).entry ino i k,
    (searchDirEntry part ino name.chars).run v = .ok (some d, v) →
    (searchDirEntry part ino' name.chars).run v' = .ok (some d, v')
  removed : (v.image part).Removed ino i k (v'.image part) ino'
  size : ino'.iSize.toNat + part.sb.dirEntrySize.toNat = ino.iSize.toNat
  unlinked : (v'.image part).block ino' i = 0 ↔ Alone ((v.image part).blockSec ino i) k
  blocks : ∀ j ≠ i, (v'.image part).ref ino' j = (v.image part).ref ino j
  bit : ∀ b, (v'.image part).blockUsed b
    = if b = part.blockIdx ((v.image part).block ino i) ∧ Alone ((v.image part).blockSec ino i) k
        then false
      else (v.image part).blockUsed b

theorem Image.Deleted.size (h : a.Deleted part ino m a' (true, ino')) : 24 ≤ ino.iSize := by
  cases h with
  | slot hi hblock hk ordinary number only size => exact size
  | block hi hblock hk ordinary number single noDot size => exact size

theorem DeletesOne.of_removed (hdir : (v.image part).IsDir part ino)
    (hheld : (v.image part).Held ino m i k) (hino' : (v'.image part).InBlocks part ino')
    (hrem : (v.image part).Removed ino i k (v'.image part) ino')
    (hsize : ino'.iSize.toNat + 24 = ino.iSize.toNat)
    (unlinked : (v'.image part).block ino' i = 0 ↔ Alone ((v.image part).blockSec ino i) k)
    (blocks : ∀ j ≠ i, (v'.image part).ref ino' j = (v.image part).ref ino j)
    (bit : ∀ b, (v'.image part).blockUsed b
      = if b = part.blockIdx ((v.image part).block ino i) ∧ Alone ((v.image part).blockSec ino i) k
          then false
        else (v.image part).blockUsed b)
    : DeletesOne part v ino i k v' ino' where
  gone name hne := by
    refine ⟨_, searchDirEntry_run hino', ?_⟩
    apply hrem.lookup_ne hdir.proper name.nulFree hne
    intro j hj l hl hat
    exact hheld.entry_eq hdir.proper (hdir.numbers m) hj hl hat
  found name hne d hd hrun := by
    rw [searchDirEntry_run hdir.owns.inBlocks, Except.ok.injEq, Prod.mk.injEq] at hrun
    rw [searchDirEntry_run hino', hrem.lookup_eq hdir.proper name.nulFree hne hrun.1]
    rw [Image.dirent_of_ne_zero hheld.block hheld.present, ne_eq, Option.some.injEq]
    exact Ne.symm hd
  removed := hrem
  size := by
    rw [Partition.dirEntrySize_eq]
    exact hsize
  unlinked := unlinked
  blocks := blocks
  bit := bit

theorem Image.IsDir.size_of_run (hdir : (v.image part).IsDir part ino)
    (h : (deleteDirEntry part ino m).run v = .ok ((true, ino'), v')) : 24 ≤ ino.iSize :=
  (deleteDirEntry_run hdir.owns.inBlocks h).size

/-- `delete_dir_entry` removes the entry with the number, and nothing else. -/
theorem deleteDirEntry_deletes_one (hdir : (v.image part).IsDir part ino)
    (hheld : (v.image part).Held ino m i k)
    (h : (deleteDirEntry part ino m).run v = .ok ((true, ino'), v'))
    : DeletesOne part v ino i k v' ino' := by
  have hino := hdir.owns.inBlocks
  have hone := hdir.numbers m
  have hsize := hdir.size_of_run h
  have hshrink : ∀ p : Inode, p.iSize = ino.iSize → p.shrink.iSize.toNat + 24
      = ino.iSize.toNat := by
    intro p hp
    rw [← hp] at hsize ⊢
    have := Inode.toNat_shrink hsize
    omega
  by_cases halone : Alone ((v.image part).blockSec ino i) k
  . have hi : i < 12 := by
      by_contra hge
      rw [deleteDirEntry_alone_indirect hino hone hheld halone (by omega)] at h
      contradiction
    obtain ⟨v1, hrun, himg⟩ := deleteDirEntry_alone hino hone hheld hsize halone hi
    rw [hrun] at h
    cases h
    have hrem : (v.image part).Removed ino i k (v'.image part) (ino.setSector i 0).shrink := by
      have hrem := hdir.removed_unlink hheld hi halone
      rw [himg]
      exact ⟨hrem.kept, hrem.old⟩
    have href : ∀ j, (v'.image part).ref (ino.setSector i 0).shrink j = if j = i then 0
        else (v.image part).ref ino j := by
      intro j
      rw [himg]
      exact Image.ref_setSector_zero hi
    have hblocks : ∀ j < 140, (v'.image part).block (ino.setSector i 0).shrink j
        = if j = i then 0 else (v.image part).block ino j := by
      intro j hj
      rw [← Image.ref_of_lt hj, href, Image.ref_of_lt hj]
    refine DeletesOne.of_removed hdir hheld ⟨?_, ?_⟩ hrem (hshrink (ino.setSector i 0) rfl) ?_ ?_ ?_
    . intro h12
      have htab := href 140
      rw [if_neg (by omega), Image.ref_table, Image.ref_table] at htab
      rw [htab] at h12 ⊢
      exact hino.table h12
    . intro j hj h0
      rw [hblocks j hj] at h0 ⊢
      split at h0
      . contradiction
      . next hji =>
        rw [if_neg hji]
        exact hino.block j hj h0
    . rw [hblocks i hheld.block, if_pos rfl]
      exact iff_of_true rfl halone
    . intro j hji
      rw [href, if_neg hji]
    . intro b
      rw [himg, Image.block_of_lt hi]
      refine Image.blockUsed_setBlockUsed.trans ?_
      simp only [halone, and_true]
  . obtain ⟨v1, hrun, himg⟩ := deleteDirEntry_shared hino hone hheld hsize halone
    rw [hrun] at h
    cases h
    have hrem : (v.image part).Removed ino i k (v'.image part) ino.shrink := by
      have hrem := hdir.removed_clear hheld
      rw [himg]
      exact ⟨hrem.kept, hrem.old⟩
    have hheld' : (v.image part).ref ino i ≠ 0 := by
      rw [Image.ref_of_lt hheld.block]
      exact hheld.present
    have href : ∀ j, (v'.image part).ref ino.shrink j = (v.image part).ref ino j := by
      intro j
      rw [himg, ← Image.ref_of_lt hheld.block]
      exact hdir.owns.ref_setSec hheld.block hheld'
    have hblocks : ∀ j < 140, (v'.image part).block ino.shrink j = (v.image part).block ino j := by
      intro j hj
      rw [← Image.ref_of_lt hj, href, Image.ref_of_lt hj]
    refine DeletesOne.of_removed hdir hheld ⟨hino.table, ?_⟩ hrem (hshrink ino rfl) ?_ (fun j _ =>
      href j) ?_
    . intro j hj h0
      rw [hblocks j hj] at h0 ⊢
      exact hino.block j hj h0
    . rw [hblocks i hheld.block]
      exact iff_of_false hheld.present halone
    . intro b
      rw [himg, if_neg (fun h => halone h.2)]
      rfl

theorem Image.BlockList.heldOnce {l : List Nat} (h : a.BlockList part ino l)
    (hno : ∀ i ∈ l, i < 140 → ∀ k < 21, Ordinary (a.blockSec ino i) k → (a.entry ino i k).iNo.toNat
      = 21 * i + k + 1)
    : a.HeldOnce ino m := by
  -- the number says where the entry is
  have hat : ∀ i k, a.Held ino m i k → m.toNat = 21 * i + k + 1 := by
    intro i k hheld
    have hi := hheld.block
    have hl : i ∈ l := by
      apply h.refs i (by omega)
      rw [ref_of_lt hi]
      exact hheld.present
    rw [← hno i hl hi k hheld.slot hheld.holds.1]
    exact congrArg UInt32.toNat hheld.holds.2.symm
  intro i j k l hi hj
  have h1 := hat i k hi
  have h2 := hat j l hj
  have hk := hi.slot
  have hl := hj.slot
  omega

structure PackedSlots (a : Image) (ino : Inode) : Prop where
  dots : ∀ i < 140, a.block ino i ≠ 0 → ∀ k < 21, IsDotDot (a.blockSec ino i) k →
    ∃ l < 21, IsDot (a.blockSec ino i) l
  numbers : ∀ i ∈ [0], i < 140 → ∀ k < 21, Ordinary (a.blockSec ino i) k →
    (a.entry ino i k).iNo.toNat = 21 * i + k + 1
  present : a.block ino 0 ≠ 0
  three : Ordinary (a.blockSec ino 0) 2 ∧ (DirEntry.at (a.blockSec ino 0) 2).iNo = 3
  shared : ¬ Alone (a.blockSec ino 0) 2

def loneVol : Vol := { packedVol with disk := packedVol.disk.blit (689 * 512 + 24) 24 Mem.zero }

def loneInode : Inode := (packedInode 12 true).grow 24

structure LoneSlots (a : Image) (ino : Inode) (l : List Nat)
    : Prop extends a.BlockList smallPartition ino l where
  numbers : ∀ i ∈ l, i < 140 → ∀ k < 21, Ordinary (a.blockSec ino i) k →
    (a.entry ino i k).iNo.toNat = 21 * i + k + 1
  present : a.block ino 12 ≠ 0 ∧ a.block ino 0 ≠ 0
  last : Ordinary (a.blockSec ino 12) 0 ∧ (DirEntry.at (a.blockSec ino 12) 0).iNo = 253
  alone : Alone (a.blockSec ino 12) 0
  three : Ordinary (a.blockSec ino 0) 2 ∧ (DirEntry.at (a.blockSec ino 0) 2).iNo = 3

theorem slots_computed
    : PackedSlots (packedVol.image smallPartition) (packedInode 1 false)
        ∧ LoneSlots (loneVol.image smallPartition) loneInode [0, 1, 2, 3, 4, 5, 6, 7, 8, 9, 10, 11,
            12, 140] := by
  refine ⟨⟨?_, ?_, ?_, ?_, ?_⟩, ⟨?_, ?_, ?_⟩, ?_, ?_, ?_, ?_, ?_⟩ <;> decide +kernel

theorem packedInode_one_slots
    : PackedSlots (packedVol.image smallPartition) (packedInode 1 false) := slots_computed.1

theorem packedInode_one_isDir
    : (packedVol.image smallPartition).IsDir smallPartition (packedInode 1 false) where
  owns := packedInode_one_owns
  proper := packedInode_one_proper
  dots := packedInode_one_slots.dots
  numbers := fun _ => packedInode_one_computed.1.heldOnce packedInode_one_slots.numbers

theorem packedInode_one_held
    : (packedVol.image smallPartition).Held (packedInode 1 false) 3 0 2 where
  block := by decide
  slot := by decide
  present := packedInode_one_slots.present
  holds := packedInode_one_slots.three

theorem deleteDirEntry_deletes_one_packed
    : ∃ ino' v', (deleteDirEntry smallPartition (packedInode 1 false) 3).run packedVol
        = .ok ((true, ino'), v')
        ∧ DeletesOne smallPartition packedVol (packedInode 1 false) 0 2 v' ino' := by
  have hdir := packedInode_one_isDir
  obtain ⟨v', hrun, -⟩ :=
    deleteDirEntry_shared hdir.owns.inBlocks (hdir.numbers 3) packedInode_one_held (by decide)
    packedInode_one_slots.shared
  exact ⟨_, v', hrun, deleteDirEntry_deletes_one hdir packedInode_one_held hrun⟩

end Delete

section Returns

/--
`delete_dir_entry` returns unless the entry is the only one of a block that is reached through the
indirect table.
-/
theorem deleteDirEntry_returns_iff (hino : (v.image part).InBlocks part ino)
    (hone : ∀ n, (v.image part).HeldOnce ino n)
    (hsize : ∀ n i k, (v.image part).Held ino n i k → 24 ≤ ino.iSize)
    : Cmd.Succeeds (deleteDirEntry part ino m) v
        ↔
      ¬ ∃ i k, 12 ≤ i ∧ (v.image part).Held ino m i k
        ∧ Alone ((v.image part).blockSec ino i) k := by
  constructor
  . rintro ⟨r, hrun⟩ ⟨i, k, hi, hheld, halone⟩
    rw [deleteDirEntry_alone_indirect hino (hone m) hheld halone hi] at hrun
    contradiction
  . intro hno
    by_cases hex : ∃ i k, (v.image part).Held ino m i k
    . obtain ⟨i, k, hheld⟩ := hex
      by_cases halone : Alone ((v.image part).blockSec ino i) k
      . have hi : i < 12 := by
          by_contra hge
          exact hno ⟨i, k, by omega, hheld, halone⟩
        obtain ⟨v', hrun, -⟩ :=
          deleteDirEntry_alone hino (hone m) hheld (hsize m i k hheld) halone hi
        exact Cmd.succeeds_of_run hrun
      . obtain ⟨v', hrun, -⟩ := deleteDirEntry_shared hino (hone m) hheld (hsize m i k hheld) halone
        exact Cmd.succeeds_of_run hrun
    . apply Cmd.succeeds_of_run
      apply deleteDirEntry_absent hino
      intro j l hheld
      exact hex ⟨j, l, hheld⟩

theorem loneInode_owns
    : (loneVol.image smallPartition).Owns smallPartition loneInode := slots_computed.2.owns

theorem loneInode_heldOnce : (loneVol.image smallPartition).HeldOnce loneInode m :=
  slots_computed.2.heldOnce slots_computed.2.numbers

theorem loneInode_held : (loneVol.image smallPartition).Held loneInode 253 12 0 where
  block := by decide
  slot := by decide
  present := slots_computed.2.present.1
  holds := slots_computed.2.last

theorem loneInode_alone
    : Alone ((loneVol.image smallPartition).blockSec loneInode 12) 0 := slots_computed.2.alone

theorem loneInode_held_direct : (loneVol.image smallPartition).Held loneInode 3 0 2 where
  block := by decide
  slot := by decide
  present := slots_computed.2.present.2
  holds := slots_computed.2.three

theorem deleteDirEntry_returns_lone
    : ¬ Cmd.Succeeds (deleteDirEntry smallPartition loneInode 253) loneVol
        ∧ Cmd.Succeeds (deleteDirEntry smallPartition loneInode 3) loneVol := by
  have hiff := fun m =>
    @deleteDirEntry_returns_iff smallPartition loneVol loneInode m loneInode_owns.inBlocks
    (fun _ => loneInode_heldOnce) (fun _ _ _ _ => by decide)
  constructor
  . rw [hiff, not_not]
    exact ⟨12, 0, by omega, loneInode_held, loneInode_alone⟩
  . rw [hiff]
    rintro ⟨i, k, hi, hheld, -⟩
    have := (loneInode_heldOnce i 0 k 2 hheld loneInode_held_direct).1
    omega

/-- The only file of an indirect block cannot be deleted. -/
theorem deleteDirEntry_hangs
    : ∃ (v : Vol) (ino : Inode) (m : UInt32), (v.image smallPartition).InBlocks smallPartition ino
        ∧ (∀ n, (v.image smallPartition).HeldOnce ino n)
        ∧ (∀ n i k, (v.image smallPartition).Held ino n i k → 24 ≤ ino.iSize)
        ∧ (deleteDirEntry smallPartition ino m).run v = .error .hang :=
  ⟨loneVol, loneInode, 253, loneInode_owns.inBlocks, fun _ => loneInode_heldOnce, fun _ _ _ _ => by
    decide,
    deleteDirEntry_alone_indirect loneInode_owns.inBlocks loneInode_heldOnce loneInode_held
      loneInode_alone (by omega)⟩

end Returns

end RogOS
