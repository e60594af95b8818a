import RogOS.Fs.Lemmas.Format
import RogOS.Fs.Lemmas.Open

/-!
The inode table on disk: what `inode_sync` writes is what `inode_open` loads, and no other slot is
touched.
-/

namespace RogOS

variable {part : Partition}

def Inode.SameStored (x y : Inode) : Prop :=
  x.iNo = y.iNo ∧ x.iSize = y.iSize ∧ ∀ i < 13, x.sector i = y.sector i

def OpensTo (part : Partition) (v : Vol) (inodeNo : UInt32) (inode : Inode) : Prop :=
  ∀ s : Fs, s.vol = v → (∀ p ∈ s.openInodes, p.2.iNo ≠ inodeNo) →
    ∃ addr s' loaded, (inodeOpen part inodeNo).run s = .ok (addr, s') ∧ s'.inode? addr = some loaded
      ∧ loaded.SameStored inode

/--
`inode_sync` of an inode with a buffer of 1024 bytes on the volume `v`: the inode can be loaded
again, and the bytes of the other slots of the table are the same as before.
-/
def SyncsAlone (part : Partition) (v : Vol) (inode : Inode) : Prop :=
  ∃ v', (inodeSync part 1024 inode).run v = .ok ((), v') ∧ OpensTo part v' inode.iNo inode
    ∧ ∀ m < 4096, m ≠ inode.iNo.toNat → ∀ i < 76,
        v'.disk (part.slotAddr m + i) = v.disk (part.slotAddr m + i)

theorem inodeOpen_of_not_open {s : Fs} {inodeNo : UInt32} (hn : inodeNo.toNat < 4096)
    (hs : ∀ p ∈ s.openInodes, p.2.iNo ≠ inodeNo)
    : ∃ addr s', (inodeOpen part inodeNo).run s = .ok (addr, s')
        ∧ s'.inode? addr = some { (s.vol.image part).slot inodeNo.toNat with iOpenCnts := 1 } := by
  have hfind : s.find? inodeNo = none := by
    rw [Fs.find?, List.find?_eq_none]
    intro p hp
    simpa using hs p hp
  refine ⟨_, _, inodeOpen_run.mpr ⟨fun _ => hn, rfl⟩, ?_⟩
  simp [hfind, Fs.inode?_pushInode]

theorem slotAddr_disjoint {m n : Nat} (h : m ≠ n) {i : Nat} (hi : i < 76)
    : part.slotAddr m + i < part.slotAddr n ∨ part.slotAddr n + 76 ≤ part.slotAddr m + i := by
  simp only [Partition.slotAddr]
  omega

theorem syncsAlone_of_lt {v : Vol} {inode : Inode} (hn : inode.iNo.toNat < 256)
    : SyncsAlone part v inode := by
  have hmod : inode.iNo.toNat % 256 = inode.iNo.toNat := Nat.mod_eq_of_lt hn
  refine ⟨_, inodeSync_run.mpr ⟨fun _ => by omega, by omega, rfl⟩, ?_, ?_⟩
  . intro s hs hopen
    obtain ⟨addr, s', h1, h2⟩ := inodeOpen_of_not_open (by omega) hopen
    refine ⟨addr, s', _, h1, h2, ?_⟩
    rw [hs, hmod, image_blit_slot (by omega), Inode.decode_encode_pure]
    simp only [Image.setSlot, Function.update_self]
    exact ⟨rfl, rfl, fun _ _ => rfl⟩
  . intro m _ hmn i hi
    rw [hmod]
    exact Mem.blit_of_not_mem (slotAddr_disjoint hmn hi)

theorem encode_pure_one {inode : Inode}
    : inode.pure.encode 1 = UInt8.ofNat (inode.iNo.toNat / 256) := by
  simp [Inode.encode, Mem.ofWord]

/--
`inode_sync` keeps the inode number in a `uint8_t`: whatever the disk holds, the round trip and the
frame hold exactly for the numbers below 256.
-/
theorem forall_syncsAlone_iff {inode : Inode} (hn : inode.iNo.toNat < 4096)
    : (∀ v, SyncsAlone part v inode) ↔ inode.iNo.toNat < 256 := by
  constructor
  . intro h
    by_contra hge
    -- on an empty disk the slot of the low 8 bits gets the high bits of the number
    obtain ⟨v', h1, -, h3⟩ := h ⟨Mem.zero, Mem.zero, Mem.zero⟩
    have hsync := (inodeSync_run.mp h1).2.2
    simp only [Prod.mk.injEq, true_and] at hsync
    have hbyte := h3 (inode.iNo.toNat % 256) (by omega) (by omega) 1 (by omega)
    simp only [hsync] at hbyte
    rw [Mem.blit_of_mem (by omega) (by omega), Nat.add_sub_cancel_left, encode_pure_one,
      ← UInt8.toNat_inj, UInt8.toNat_ofNat'] at hbyte
    simp only [Mem.zero, UInt8.toNat_zero] at hbyte
    omega
  . intro h v
    exact syncsAlone_of_lt h

theorem forall_syncsAlone_seven
    : (∀ v, SyncsAlone smallPartition v (inodeInit 7)) ↔ (inodeInit 7).iNo.toNat < 256 :=
  forall_syncsAlone_iff (by decide)

/-- Inode 256 is written to slot 0. -/
theorem not_syncsAlone_256
    : (inodeInit 256).iNo.toNat < 4096 ∧ ¬ ∀ v, SyncsAlone smallPartition v (inodeInit 256) := by
  refine ⟨by decide, ?_⟩
  intro h
  obtain ⟨v', h1, -, h3⟩ := h ⟨Mem.zero, Mem.zero, Mem.zero⟩
  have hsync := (inodeSync_run.mp h1).2.2
  simp only [Prod.mk.injEq, true_and] at hsync
  have hbyte := h3 0 (by decide) (by decide) 1 (by decide)
  simp only [hsync] at hbyte
  rw [Mem.blit_of_mem (by decide) (by decide)] at hbyte
  revert hbyte
  decide

end RogOS
