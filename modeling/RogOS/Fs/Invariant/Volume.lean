import RogOS.Fs.Invariant.Entries
import RogOS.Fs.Lemmas.Calls

/-!
The parts of the system calls that work on the volume keep a tree: they go from the tree that the
volume holds to the tree that it holds afterwards, with the inodes stored in the inode table.
-/

namespace RogOS

variable {part : Partition} {strict : Bool} {pend : Option Nat} {a a' : Image} {T : Tree}
  {d n : Nat} {p p' x : Inode}

section Congr

theorem TreeInv.congr (h : TreeInv part strict pend a T) (hsec : a'.sec = a.sec)
    (hused : a'.blockUsed = a.blockUsed)
    : TreeInv part strict pend a' T := by
  have hrefs : ∀ ino j, a'.refs ino j = a.refs ino j := by
    intro ino j
    unfold Image.refs Image.ref Image.block
    rw [hsec]
  have hdirent : ∀ ino i k, a'.dirent ino i k = a.dirent ino i k := by
    intro ino i k
    unfold Image.dirent Image.ref Image.block
    rw [hsec]
  have hT : T.refs a' = T.refs a := by
    funext q
    unfold Tree.refs
    split
    . exact hrefs _ _
    . rfl
  constructor
  . unfold Image.TailUsed
    rw [hused]
    exact h.tail
  . exact h.lt
  . exact h.root
  . exact h.type
  . exact h.parent
  . exact h.rooted
  . exact h.entries
  . rw [hused, hT]
    exact h.own
  . rw [hused, hT]
    exact h.noLeak
  . intro m ino hm hty
    exact (h.file m ino hm hty).mono fun j => hrefs ino j
  . intro m ino hm hty
    have hok := h.dir m ino hm hty
    exact hok.mono (fun i _ k _ => hdirent ino i k) rfl (fun e he => ⟨he, rfl⟩) hok.size id
  . intro hs m q hm h0 hp hq
    apply (h.linked hs m q hm h0 hp hq).mono
    intro i _ k _ _ e he _
    rw [hdirent]
    exact he

theorem Image.Inserted.pure {e : DirEntry} (h : a.Inserted part p e a' p')
    : a.Inserted part p.pure e a' p'.pure := by
  cases h with
  | slot i k hi hfull hblock hk => exact .slot i k hi hfull hblock hk
  | block i b hi hfull hblock hb => exact .block i b hi hfull hblock hb
  | table b c hfull hb hc => exact .table b c hfull hb hc

theorem Image.Deleted.pure {m : UInt32} {b : Bool} (h : a.Deleted part p m a' (b, p'))
    : a.Deleted part p.pure m a' (b, p'.pure) := by
  cases h with
  | absent none => exact .absent none
  | slot hi hblock hk ordinary number only size =>
    exact .slot hi hblock hk ordinary number only size
  | block hi hblock hk ordinary number single noDot size =>
    exact .block hi hblock hk ordinary number single noDot size

theorem Image.BlocksLive.pure (h : a.BlocksLive p) : a.BlocksLive p.pure := ⟨h.entry, h.table⟩

end Congr

structure Image.Stored (a : Image) (T : Tree) : Prop where
  slot : ∀ n x, T.node n = some x → a.slot n = x ∧ x.pure = x
  used : ∀ n < 4096, a.inodeUsed n = true ↔ (T.node n).isSome

section Make

def dirInit (n : Nat) (lba : UInt32) : Inode :=
  { (inodeInit (UInt32.ofNat n)).setSector 0 lba with iSize := 48 }

theorem dirInit_sector {lba : UInt32} {j : Nat}
    : (dirInit n lba).sector j = if j = 0 then lba else 0 := by
  have h := @Inode.sector_setSector (inodeInit (UInt32.ofNat n)) 0 j lba (by omega)
  rw [inodeInit_sector] at h
  have hsame : (dirInit n lba).sector j = ((inodeInit (UInt32.ofNat n)).setSector 0 lba).sector j :=
    rfl
  rw [hsame, h]
  split
  . next h0 => rw [if_pos h0.symm]
  . next h0 => rw [if_neg (Ne.symm h0)]

theorem refs_dirInit {lba : UInt32} {j : Nat}
    : a.refs (dirInit n lba) j = if j = 0 then lba else 0 := by
  unfold Image.refs Image.ref Image.block
  simp only [dirInit_sector]
  grind

structure Image.DirAdded (part : Partition) (a : Image) (p : Inode) (name : List UInt8) (n b : Nat)
    (p' : Inode) (a' : Image) : Prop where
  inode : a.FreeInode n
  block : a.FreeBlock part b
  entered : ∃ a1, (((a.setInodeUsed n true).setBlockUsed b true).setSec (part.blockLba b).toNat
      (dotSector (UInt32.ofNat n) p.iNo)).Inserted part p
        (DirEntry.new name (UInt32.ofNat n) .directory) a1 p'
    ∧ a' = (a1.setSlot (p'.iNo.toNat % 256) p'.pure).setSlot (n % 256) (dirInit n (part.blockLba b))

theorem makeDir_image {v : Vol} {name : List UInt8} {r : (Bool × Inode) × Vol}
    (hino : ∀ j < 12, p.sector j ≠ 0 → part.IsBlock (p.sector j))
    (ht : (v.image part).TailUsed part)
    (h : (makeDir part (inodeBitmapAlloc part) (blockBitmapAlloc part) p name).run v = .ok r)
    : r.1.1 = true ∧ ∃ n b, (v.image part).DirAdded part p name n b r.1.2 (r.2.image part) := by
  simp only [makeDir, Cmd.bind_run] at h
  obtain ⟨o, v1, h1, h2⟩ := h
  obtain ⟨n, hn, ho, hv1⟩ := inodeBitmapAlloc_image h1
  dsimp only at ho hv1
  rw [ho] at h2
  simp only [Cmd.bind_run] at h2
  obtain ⟨o', v2, h3, h4⟩ := h2
  obtain ⟨b, hb, ho', hv2⟩ := blockBitmapAlloc_image h3
  dsimp only at ho' hv2
  rw [ho'] at h4
  simp only [Cmd.bind_run, Cmd.assert_run, createDirEntry_run] at h4
  obtain ⟨_, _, ⟨-, h5⟩, _, v3, h6, _, v4, h7, _, _, ⟨-, h8⟩, q, v5, h9, h10⟩ := h4
  cases h5
  cases h8
  rw [hv1] at hb hv2
  have hb' : (v.image part).FreeBlock part b := ⟨hb.lt, hb.clear, hb.first⟩
  have hv3 := bitmapSync_blockLba hb' h6
  have hblock := part.isBlock_blockLba (hb'.lt_bitLen ht)
  have hv4 := ideWrite_image hblock h7
  dsimp only at hv3 hv4
  rw [hv3, hv2] at hv4
  have ht4 : (v4.image part).TailUsed part := by
    rw [hv4]
    exact Image.TailUsed.setBlockUsed (a := (v.image part).setInodeUsed n true) ht
  obtain ⟨hq, -, hins⟩ := syncDirEntry_run hino ht4 (by rw [DirEntry.new_fType]; decide) h9
  obtain ⟨ok, pi⟩ := q
  dsimp only at hq hins h10
  subst hq
  simp only [Cmd.bind_run, Cmd.pure_run] at h10
  obtain ⟨_, v6, h11, _, v7, h12, _, v8, h13, h14⟩ := h10
  have hv6 := inodeSync_image h11
  have hv7 := inodeSync_image h12
  have hlt := hn.lt
  have hnat : (UInt32.ofNat n).toNat = n := UInt32.toNat_ofNat_of_lt' (by rw [UInt32.size]; omega)
  rw [hnat] at h13
  have hv8 := bitmapSync_image (show part.HasBit n .inode from hn.lt) h13
  dsimp only at hv6 hv7 hv8
  rw [h14]
  refine ⟨rfl, n, b, hn, hb', v5.image part, ?_, ?_⟩
  . rw [← hv4]
    exact hins
  . dsimp only
    have hsize : (2 : UInt32) * part.sb.dirEntrySize = 48 := by
      rw [part.dirEntrySize_eq]
      rfl
    rw [hv8, hv7, hv6, hsize]
    show (((v5.image part).setSlot (pi.iNo.toNat % 256) pi.pure).setSlot
        ((UInt32.ofNat n).toNat % 256) _) = _
    rw [hnat]
    rfl

theorem at_dotSector {no par : UInt32} {l : Nat} (hl : l < 21)
    : DirEntry.at ((dotSector no par).clip 512) l
        =
      if l = 0 then DirEntry.new [46] no .directory
      else if l = 1 then DirEntry.new [46, 46] par .directory
      else DirEntry.blank := by
  rw [DirEntry.at_clip hl]
  have hsec : dotSector no par
      = (Mem.zero.blit (0 * 24) 24 (DirEntry.new [46] no .directory).encode).blit (1 * 24) 24
          (DirEntry.new [46, 46] par .directory).encode := rfl
  rw [hsec]
  by_cases h1 : l = 1
  . rw [h1, DirEntry.at_blit_self, DirEntry.decode_encode]
    rfl
  . rw [DirEntry.at_blit_of_ne h1]
    by_cases h0 : l = 0
    . rw [h0, DirEntry.at_blit_self, DirEntry.decode_encode]
      rfl
    . rw [DirEntry.at_blit_of_ne h0, DirEntry.at_zero, if_neg h0, if_neg h1]

theorem dirent_dirInit {b i k : Nat} {par : UInt32} (hb : b < 163840) (hi : i < 140) (hk : k < 21)
    : (a.setSec (part.blockLba b).toNat (dotSector (UInt32.ofNat n) par)).dirent
        (dirInit n (part.blockLba b)) i k
        =
      if i = 0 then
        some (if k = 0 then DirEntry.new [46] (UInt32.ofNat n) .directory
          else if k = 1 then DirEntry.new [46, 46] par .directory
          else DirEntry.blank)
      else none := by
  have href := @refs_dirInit (a.setSec (part.blockLba b).toNat (dotSector (UInt32.ofNat n) par)) n
    (part.blockLba b) i
  rw [Image.refs_of_lt (by omega)] at href
  unfold Image.dirent
  rw [href]
  by_cases h0 : i = 0
  . have hne := (part.isData_blockLba hb).ne_zero
    rw [if_pos h0, if_neg hne, Image.sec_setSec_self, at_dotSector hk, if_pos h0]
  . rw [if_neg h0, if_pos rfl, if_neg h0]

theorem TreeInv.extends_dir {b : Nat} {m : Mem} (h : TreeInv part strict pend a T)
    (hb : a.FreeBlock part b)
    : Extends part part.bitLen a ((a.setBlockUsed b true).setSec (part.blockLba b).toNat m)
        (fun _ => 0)
        (fun j => if j = 0 then part.blockLba b else 0) := by
  have hne := (part.isData_blockLba hb.lt_max).ne_zero
  have hno : Ownership part part.bitLen a.blockUsed (fun _ : Nat => 0) :=
    ⟨h.own.le, fun _ h0 => absurd rfl h0, fun _ h0 => absurd rfl h0, fun _ _ h0 => absurd rfl h0⟩
  have hext1 : Extends part part.bitLen a (a.setBlockUsed b true) (fun _ => 0)
      (fun j => if j = 0 then part.blockLba b else 0) :=
    Extends.alloc hno hb (hb.lt_bitLen h.tail) 0 (if_pos rfl) (fun j hj => if_neg hj)
  have hext2 := Extends.write hext1.own (m := m)
    (show (if (0 : Nat) = 0 then part.blockLba b else 0) ≠ 0 by simpa using hne)
  rw [if_pos rfl] at hext2
  exact hext1.trans hext2 Keeps.refl

theorem TreeInv.addDir {b : Nat} (h : TreeInv part strict none a T) (hnew : T.node n = none)
    (hn : n < 256) (hd : T.node d = some p) (hdty : T.type d = .directory) (hb : a.FreeBlock part b)
    : TreeInv part strict (some n)
        ((a.setBlockUsed b true).setSec (part.blockLba b).toNat (dotSector (UInt32.ofNat n) p.iNo))
        (T.add d n .directory (dirInit n (part.blockLba b))) := by
  have hext := @TreeInv.extends_dir _ _ _ _ _ _ (dotSector (UInt32.ofNat n) p.iNo) h hb
  apply h.add hnew hn rfl hd hdty (.inr rfl)
  . have hrefs :
        ((a.setBlockUsed b true).setSec (part.blockLba b).toNat
        (dotSector (UInt32.ofNat n) p.iNo)).refs
        (dirInit n (part.blockLba b)) = fun j => if j = 0 then part.blockLba b else 0 :=
          funext fun j => refs_dirInit
    rw [hrefs]
    exact hext
  . intro hreg
    contradiction
  . intro _
    have hent : ∀ i < 140, ∀ k < 21, _ := fun i hi k hk =>
      @dirent_dirInit part (a.setBlockUsed b true) n b i k p.iNo hb.lt_max hi hk
    have hblank : ∀ i < 140, ∀ k < 21, OtherSlot i k → ∀ e,
        ((a.setBlockUsed b true).setSec (part.blockLba b).toNat
          (dotSector (UInt32.ofNat n) p.iNo)).dirent
          (dirInit n (part.blockLba b)) i k = some e → e = DirEntry.blank := by
      intro i hi k hk ho e he
      rw [hent i hi k hk] at he
      split at he
      . next h0 =>
        have hk2 : ¬ k < 2 := fun hlt => ho ⟨h0, hlt⟩
        rw [if_neg (by omega), if_neg (by omega), Option.some.injEq] at he
        exact he.symm
      . contradiction
    constructor
    . rw [hent 0 (by omega) 0 (by omega)]
      rfl
    . rw [hent 0 (by omega) 1 (by omega)]
      simp [Tree.add, (h.lt d p hd).2]
    . intro i hi k hk ho e he
      exact .inl (hblank i hi k hk ho e he)
    . intro i hi k hk j hj l hl ho ho' e e' he he' h0
      rw [hblank i hi k hk ho e he] at h0
      exact absurd rfl h0
    . intro i hi k hk ho e he h0
      rw [hblank i hi k hk ho e he] at h0
      exact absurd rfl h0
    . rw [T.add_size hnew, h.size_of_none hnew]
      rfl
    . constructor
      . intro i hi h0 e he
        rw [hent i hi 0 (by omega), if_neg h0] at he
        contradiction
      . intro h12
        rw [dirInit_sector] at h12
        exact absurd rfl h12

theorem TreeInv.enter {a₀ a₁ : Image} {ty : FileType} {name : List UInt8}
    (h : TreeInv part strict (some n) a (T.add d n ty x)) (hS : a₀.Stored T)
    (hslot : a.slot = a₀.slot) (hused : a.inodeUsed = Function.update a₀.inodeUsed n true)
    (hnew : T.node n = none) (hd : T.node d = some p.pure) (hdty : T.type d = .directory)
    (h0 : n ≠ 0) (hn : n < 256) (hx : x.pure = x)
    (hname : ProperName name)
    (hins : a.Inserted part p (DirEntry.new name (UInt32.ofNat n) ty) a₁ p')
    (htab : strict = true → ¬ (a.FullBelow p 12 ∧ p.sector 12 ≠ 0))
    (ha' : a' = (a₁.setSlot (p'.iNo.toNat % 256) p'.pure).setSlot (n % 256) x)
    : ∃ w, TreeInv part strict none a' ((T.add d n ty x).change d p'.pure n w)
        ∧ a'.Stored ((T.add d n ty x).change d p'.pure n w) := by
  have hdn : d ≠ n := by
    rintro rfl
    rw [hd] at hnew
    contradiction
  have hd' : (T.add d n ty x).node d = some p.pure := by
    simp only [Tree.add, Function.update_of_ne hdn]
    exact hd
  have hnode : (T.add d n ty x).node n = some x := by simp [Tree.add]
  have htyd : (T.add d n ty x).type d = .directory := by
    simp only [Tree.add, Function.update_of_ne hdn]
    exact hdty
  have htyn : (T.add d n ty x).type n = ty := by simp [Tree.add]
  have hins' := hins
  rw [← htyn] at hins'
  obtain ⟨w, hT⟩ := h.insert hd' htyd (by rw [hnode]; rfl) h0 (by simp [Tree.add])
    (by simp [Tree.add]) hname hins'.pure htab
  have hext := hins.pure.extends (h.owns hd') h.tail
  have hlt : d < 256 := (h.lt d _ hd').1
  have hdno : p'.iNo.toNat % 256 = d := by
    have hno : p'.iNo = p.pure.iNo := hins.iNo
    rw [hno, (h.lt d _ hd').2, UInt32.toNat_ofNat_of_lt' (by rw [UInt32.size]; omega)]
    omega
  rw [hdno, show n % 256 = n by omega] at ha'
  have hslot' : ∀ m, a'.slot m = if m = n then x else if m = d then p'.pure else a₀.slot m := by
    intro m
    rw [ha']
    simp only [Image.setSlot, Function.update_apply]
    rw [hext.slot, hslot]
  have hused' : a'.inodeUsed = Function.update a₀.inodeUsed n true := by
    rw [ha']
    exact hext.inodeUsed.trans hused
  refine ⟨w, hT.congr (by rw [ha']; rfl) (by rw [ha']; rfl), ?_, ?_⟩
  . intro m y hy
    rw [hslot']
    by_cases hmd : m = d
    . rw [if_neg (by rw [hmd]; exact hdn), if_pos hmd]
      rw [hmd, Tree.change_node_self, Option.some.injEq] at hy
      rw [← hy]
      exact ⟨rfl, rfl⟩
    . rw [Tree.change_node_of_ne hmd] at hy
      by_cases hmn : m = n
      . rw [if_pos hmn]
        rw [hmn, hnode, Option.some.injEq] at hy
        rw [← hy]
        exact ⟨rfl, hx⟩
      . rw [if_neg hmn, if_neg hmd]
        simp only [Tree.add, Function.update_of_ne hmn] at hy
        exact hS.slot m y hy
  . intro m hm
    rw [hused', Tree.change_isSome hd', Function.update_apply]
    by_cases hmn : m = n
    . simp [hmn, hnode]
    . rw [if_neg hmn]
      simp only [Tree.add, Function.update_of_ne hmn]
      exact hS.used m hm

theorem Image.FreeInode.node_none (h : a.FreeInode n) (hS : a.Stored T) : T.node n = none := by
  have hnot := hS.used n h.lt
  rw [h.clear] at hnot
  cases hn : T.node n with
  | none => rfl
  | some y =>
    rw [hn] at hnot
    simp at hnot

theorem Image.FreeInode.ne_zero (h : a.FreeInode n) (hS : a.Stored T)
    (hT : TreeInv part strict pend a T) : n ≠ 0 := by
  rintro rfl
  have hroot := hT.root.1
  rw [h.node_none hS] at hroot
  contradiction

theorem TreeInv.fullBelow_alloc {b : Nat} {m : Mem} (h : TreeInv part strict pend a T)
    (hd : T.node d = some p) (hb : a.FreeBlock part b)
    (hfull : ((a.setBlockUsed b true).setSec (part.blockLba b).toNat m).FullBelow p 12)
    : a.FullBelow p 12 := by
  intro j hj
  obtain ⟨h0, hfree⟩ := hfull j hj
  refine ⟨h0, ?_⟩
  rw [Image.sec_setSec_of_ne] at hfree
  . exact hfree
  . intro heq
    apply (h.owns hd).ne_free hb.clear hb.lt_max (show j < 141 by omega)
    . rw [Image.ref_direct hj]
      exact h0
    . rw [Image.ref_direct hj]
      exact UInt32.toNat_inj.mp heq

theorem Image.DirAdded.treeInv {b : Nat} {name : List UInt8} (h : a.DirAdded part p name n b p' a')
    (hT : TreeInv part strict none a T) (hS : a.Stored T) (hd : T.node d = some p.pure)
    (hdty : T.type d = .directory) (hn : n < 256) (hname : ProperName name)
    (htab : strict = true → ¬ (a.FullBelow p 12 ∧ p.sector 12 ≠ 0))
    : ∃ w, TreeInv part strict none a'
        ((T.add d n .directory (dirInit n (part.blockLba b))).change d p'.pure n w)
        ∧ a'.Stored ((T.add d n .directory (dirInit n (part.blockLba b))).change d p'.pure n
            w) := by
  have hnew := h.inode.node_none hS
  have hT0 : TreeInv part strict none (a.setInodeUsed n true) T := hT.congr rfl rfl
  have hb0 : (a.setInodeUsed n true).FreeBlock part b := ⟨h.block.lt, h.block.clear, h.block.first⟩
  have hT1 := hT0.addDir hnew hn hd hdty hb0
  obtain ⟨a1, hins, ha'⟩ := h.entered
  apply hT1.enter hS rfl rfl hnew hd hdty (h.inode.ne_zero hS hT) hn rfl hname hins _ ha'
  rintro hs ⟨hfull, h12⟩
  exact htab hs ⟨hT0.fullBelow_alloc (p := p.pure) hd hb0 hfull, h12⟩

end Make

section Create

structure Image.FileAdded (part : Partition) (a : Image) (p : Inode) (name : List UInt8) (n : Nat)
    (p' : Inode) (a' : Image) : Prop where
  inode : a.FreeInode n
  entered : ∃ a1,
    (a.setInodeUsed n true).Inserted part p (DirEntry.new name (UInt32.ofNat n) .regular) a1 p'
    ∧ a' = (a1.setSlot (p'.iNo.toNat % 256) p'.pure).setSlot (n % 256) (inodeInit (UInt32.ofNat n))

theorem FileEntered.image {v v' v1 : Vol} {no : UInt32} {name : List UInt8}
    (hino : ∀ j < 12, p.sector j ≠ 0 → part.IsBlock (p.sector j))
    (ht : (v.image part).TailUsed part) (halloc : (inodeBitmapAlloc part).run v = .ok (some no, v1))
    (h : FileEntered part p name no v1 p' v')
    : ∃ n, no = UInt32.ofNat n ∧ (v.image part).FileAdded part p name n p' (v'.image part) := by
  obtain ⟨n, hn, ho, hv1⟩ := inodeBitmapAlloc_image halloc
  dsimp only at ho hv1
  rw [Option.some.injEq] at ho
  subst ho
  obtain ⟨v2, v3, v4, h1, h2, h3, h4⟩ := h.runs
  have ht1 : (v1.image part).TailUsed part := by
    rw [hv1]
    exact ht
  obtain ⟨-, -, hins⟩ := syncDirEntry_run hino ht1 (by rw [DirEntry.new_fType]; decide) h1
  have hlt := hn.lt
  have hnat : (UInt32.ofNat n).toNat = n := UInt32.toNat_ofNat_of_lt' (by rw [UInt32.size]; omega)
  rw [hnat] at h4
  have hv3 := inodeSync_image h2
  have hv4 := inodeSync_image h3
  have hv' := bitmapSync_image (show part.HasBit n .inode from hn.lt) h4
  dsimp only at hins hv3 hv4 hv'
  refine ⟨n, rfl, hn, v2.image part, ?_, ?_⟩
  . rw [← hv1]
    exact hins
  . rw [hv', hv4, hv3]
    show (((v2.image part).setSlot (p'.iNo.toNat % 256) p'.pure).setSlot
        ((UInt32.ofNat n).toNat % 256) _) = _
    rw [hnat]
    rfl

theorem TreeInv.addFile (hT : TreeInv part strict none a T) (hnew : T.node n = none) (hn : n < 256)
    (hd : T.node d = some p) (hdty : T.type d = .directory)
    : TreeInv part strict (some n) (a.setInodeUsed n true)
        (T.add d n .regular (inodeInit (UInt32.ofNat n))) := by
  have hT0 : TreeInv part strict none (a.setInodeUsed n true) T := hT.congr rfl rfl
  have hrefs : (a.setInodeUsed n true).refs (inodeInit (UInt32.ofNat n)) = fun _ => 0 :=
    funext fun j => Image.refs_inodeInit
  have hno : Ownership part part.bitLen (a.setInodeUsed n true).blockUsed (fun _ : Nat => 0) :=
    ⟨hT.own.le, fun _ h0 => absurd rfl h0, fun _ h0 => absurd rfl h0, fun _ _ h0 => absurd rfl h0⟩
  apply hT0.add hnew hn rfl hd hdty (.inl rfl)
  . rw [hrefs]
    exact Extends.refl hno
  . intro _
    exact ⟨.inl ⟨fun j => Image.refs_inodeInit, rfl⟩, Nat.zero_lt_succ _⟩
  . intro hdir
    contradiction

theorem Image.FileAdded.treeInv {name : List UInt8} (h : a.FileAdded part p name n p' a')
    (hT : TreeInv part strict none a T) (hS : a.Stored T) (hd : T.node d = some p.pure)
    (hdty : T.type d = .directory) (hn : n < 256) (hname : ProperName name)
    (htab : strict = true → ¬ (a.FullBelow p 12 ∧ p.sector 12 ≠ 0))
    : ∃ w, TreeInv part strict none a'
        ((T.add d n .regular (inodeInit (UInt32.ofNat n))).change d p'.pure n w)
        ∧ a'.Stored ((T.add d n .regular (inodeInit (UInt32.ofNat n))).change d p'.pure n w) := by
  have hnew := h.inode.node_none hS
  obtain ⟨a1, hins, ha'⟩ := h.entered
  exact (hT.addFile hnew hn hd hdty).enter hS rfl rfl hnew hd hdty (h.inode.ne_zero hS hT) hn rfl
    hname hins htab ha'

end Create

section Remove

variable {m : Nat}

theorem Image.Deleted.slot_eq {no : UInt32} (h : a.Deleted part p no a' (true, p'))
    : a'.slot = Function.update a.slot (p.iNo.toNat % 256) p'.pure
        ∧ a'.inodeUsed = a.inodeUsed := by
  cases h with
  | slot => exact ⟨rfl, rfl⟩
  | block => exact ⟨rfl, rfl⟩

def Tree.Leaf (T : Tree) (m : Nat) (x : Inode) : Prop := T.type m = .regular ∨ x.iSize.toNat = 48

theorem TreeInv.ne_of_leaf (h : TreeInv part strict none a T) (hm : T.node m = some x) (h0 : m ≠ 0)
    (hleaf : T.Leaf m x) (hdty : T.type d = .directory) (hpar : T.parent m = d) : m ≠ d := by
  rintro rfl
  cases hleaf with
  | inl hreg =>
    rw [hreg] at hdty
    contradiction
  | inr h48 =>
    have hsize := (h.dir m x hm hdty).size
    have hshare : T.share m m = T.entries m := by
      unfold Tree.share
      rw [if_pos ⟨by rw [hm]; rfl, h0, hpar⟩]
    have hle := Tree.share_le_size (T := T) (d := m) (h.lt m x hm).1
    have hpos := (h.entries m x hm).2 h0 (by simp)
    omega

theorem TreeInv.delete_live {v v' : Vol} {no : UInt32} {b : Bool}
    (h : TreeInv part strict none (v.image part) T)
    (hd : T.node d = some p.pure) (hty : T.type d = .directory)
    (hm : ∃ i < 140, ∃ k < 21, OtherSlot i k ∧ ∃ e, (v.image part).dirent p i k = some e
      ∧ T.ChildEntry none d e
      ∧ e.iNo = no)
    (hrun : (deleteDirEntry part p no).run v = .ok ((b, p'), v'))
    : (v'.image part).BlocksLive p' := by
  have hok := h.dir d _ hd hty
  have how' : Ownership part part.bitLen (v.image part).blockUsed ((v.image part).refs p.pure) :=
    Image.owns_iff.mp (h.owns hd)
  have how : (v.image part).Owns part p := Image.owns_iff.mpr how'
  have hin : (v.image part).InBlocks part p := ⟨how.inBlocks.table, how.inBlocks.block⟩
  obtain ⟨-, i, k, e, hat, -⟩ :=
    h.erased hd hok hm (deleteDirEntry_run (r := ((b, p'), v')) hin hrun).pure
  obtain ⟨hheld', honce'⟩ := hat.held h hok
  have hheld : (v.image part).Held p no i k :=
    ⟨hheld'.block, hheld'.slot, hheld'.present, hheld'.holds⟩
  have honce : (v.image part).HeldOnce p no := fun i₁ j₁ k₁ l₁ h₁ h₂ =>
    honce' i₁ j₁ k₁ l₁ ⟨h₁.block, h₁.slot, h₁.present, h₁.holds⟩ ⟨h₂.block, h₂.slot, h₂.present,
      h₂.holds⟩
  have hlive : (v.image part).BlocksLive p := ⟨hok.blocks.entry, hok.blocks.table⟩
  have hsize : 24 ≤ p.iSize := by
    rw [UInt32.le_iff_toNat_le]
    have hsz : p.iSize.toNat = 48 + 24 * T.size d := hok.size
    rw [hsz, show (24 : UInt32).toNat = 24 by rfl]
    omega
  by_cases halone : Alone ((v.image part).blockSec p i) k
  . by_cases hi : i < 12
    . obtain ⟨v₁, hrun₁, himage⟩ := deleteDirEntry_alone hin honce hheld hsize halone hi
      rw [hrun] at hrun₁
      cases hrun₁
      have hdirent : ∀ j l, (v'.image part).dirent (p.setSector i 0).shrink j l
          = if j = i then none else (v.image part).dirent p j l := by
        intro j l
        rw [himage]
        exact Image.dirent_setSector_zero hi
      constructor
      . intro j hj h0 e' he'
        have hji : j ≠ i := by
          rintro rfl
          rw [hdirent, if_pos rfl] at he'
          contradiction
        rw [hdirent, if_neg hji] at he'
        obtain ⟨l, hl, e₁, he₁, hne⟩ := hlive.entry j hj h0 e' he'
        exact ⟨l, hl, e₁, by rw [hdirent, if_neg hji]; exact he₁, hne⟩
      . intro h12
        have hsec : (p.setSector i 0).shrink.sector 12 = p.sector 12 :=
          Inode.sector_setSector_of_ne (by omega) (by omega)
        rw [hsec] at h12
        rw [hdirent, if_neg (by omega)]
        exact hlive.table h12
    . have hhang := deleteDirEntry_alone_indirect hin honce hheld halone (by omega)
      rw [hrun] at hhang
      cases hhang
  . obtain ⟨v₁, hrun₁, himage⟩ := deleteDirEntry_shared hin honce hheld hsize halone
    rw [hrun] at hrun₁
    cases hrun₁
    have hdirent : ∀ j < 140, ∀ l < 21, (v'.image part).dirent p.shrink j l
        = if j = i ∧ l = k then some DirEntry.blank else (v.image part).dirent p j l := by
      intro j hj l hl
      rw [himage]
      exact how.dirent_clear hat.block hheld.present hj hl
    constructor
    . intro j hj h0 e' he'
      by_cases hji : j = i
      . obtain ⟨l, hl, hlk, hne⟩ := exists_live_of_not_alone hheld.holds.1 halone
        refine ⟨l, hl, _, ?_, hne⟩
        rw [hdirent j hj l hl, if_neg (fun heq => hlk heq.2), hji]
        exact Image.dirent_of_ne_zero hat.block hheld.present
      . rw [hdirent j hj 0 (by omega), if_neg (fun heq => hji heq.1)] at he'
        obtain ⟨l, hl, e₁, he₁, hne⟩ := hlive.entry j hj h0 e' he'
        exact ⟨l, hl, e₁, by rw [hdirent j hj l hl, if_neg (fun heq => hji heq.1)]; exact he₁, hne⟩
    . intro h12
      rw [hdirent 12 (by omega) 0 (by omega)]
      split
      . intro hnone
        contradiction
      . exact hlive.table h12

theorem TreeInv.remove {a₁ : Image} {y : Inode} {b : Bool} (h : TreeInv part strict none a T)
    (hS : a.Stored T) (hd : T.node d = some p.pure) (hdty : T.type d = .directory)
    (hm : T.node m = some y.pure) (hleaf : T.Leaf m y)
    (hent : ∃ i < 140, ∃ k < 21, OtherSlot i k ∧ ∃ e, a.dirent p i k = some e
      ∧ T.ChildEntry none d e
      ∧ e.iNo = UInt32.ofNat m)
    (hdel : a.Deleted part p (UInt32.ofNat m) a₁ (b, p')) (hlive : a₁.BlocksLive p')
    (hrel : a₁.InBlocks part y → a₁.Released part y m a')
    : TreeInv part strict none a' ((T.change d p'.pure m 0).setNode m none)
        ∧ a'.Stored ((T.change d p'.pure m 0).setNode m none) ∧ a₁.Released part y m a' := by
  have hlt := (h.lt m _ hm).1
  have hdlt := (h.lt d _ hd).1
  have hnat : (UInt32.ofNat m).toNat = m := UInt32.toNat_ofNat_of_lt' (by rw [UInt32.size]; omega)
  have hno : p.iNo.toNat % 256 = d := by
    have hno : p.iNo = UInt32.ofNat d := (h.lt d _ hd).2
    rw [hno, UInt32.toNat_ofNat_of_lt' (by rw [UInt32.size]; omega)]
    omega
  obtain ⟨hb, hT1⟩ := h.delete hd hdty hent hdel.pure hlive.pure
  rw [hnat] at hT1
  obtain ⟨i, -, k, -, -, e, -, hchild, hnum⟩ := hent
  have h0 : m ≠ 0 := by
    rintro rfl
    exact hchild.nonzero hnum
  have hpar : T.parent m = d := by
    have := hchild.parent
    rw [hnum, hnat] at this
    exact this
  have hmd : m ≠ d := h.ne_of_leaf hm h0 hleaf hdty hpar
  have hm1 : (T.change d p'.pure m 0).node m = some y.pure := by
    rw [Tree.change_node_of_ne hmd]
    exact hm
  have hblocks := (hT1.owns hm1).inBlocks
  have hrel := hrel ⟨hblocks.table, hblocks.block⟩
  have hrel' : a₁.Released part y.pure m a' := ⟨hrel.sec, hrel.slot, hrel.inodeUsed, hrel.blockUsed⟩
  refine ⟨?_, ?_, hrel⟩
  . apply hT1.release hm1 h0 Tree.change_entries_self _ hrel'
    intro z i hz hzm
    by_cases hz0 : z = 0
    . rw [hz0]
      have : (T.change d p'.pure m 0).parent 0 = 0 := h.root.2.2
      rw [this]
      exact Ne.symm h0
    . have hzs : (T.node z).isSome := by
        have hsame : ((T.change d p'.pure m 0).node z).isSome = (T.node z).isSome :=
          Tree.change_isSome hd
        rw [← hsame, hz]
        rfl
      obtain ⟨i', hi'⟩ := Option.isSome_iff_exists.mp hzs
      exact h.leaf hm hleaf (.inl rfl) hi' hz0 hzm
  . rw [hb] at hdel
    obtain ⟨hslot, hused⟩ := hdel.slot_eq
    rw [hno] at hslot
    constructor
    . intro z i hz
      have hzm : z ≠ m := by
        rintro rfl
        rw [Tree.setNode_self] at hz
        contradiction
      rw [Tree.setNode_of_ne hzm] at hz
      rw [hrel.slot, Function.update_of_ne hzm, hslot]
      by_cases hzd : z = d
      . rw [hzd, Tree.change_node_self, Option.some.injEq] at hz
        rw [hzd, Function.update_self, ← hz]
        exact ⟨rfl, rfl⟩
      . rw [Tree.change_node_of_ne hzd] at hz
        rw [Function.update_of_ne hzd]
        exact hS.slot z i hz
    . intro z hz
      rw [hrel.inodeUsed, hused]
      by_cases hzm : z = m
      . rw [hzm, Function.update_self, Tree.setNode_self]
        simp
      . rw [Function.update_of_ne hzm, Tree.setNode_of_ne hzm, Tree.change_isSome hd]
        exact hS.used z hz

end Remove

section Write

variable {ino ino' : Inode} {buf : Mem} {count : UInt32}

theorem TreeInv.fileShape (h : TreeInv part strict pend a T) (hn : T.node n = some ino.pure)
    (hty : T.type n = .regular)
    : FileShape part part.bitLen a ino := by
  have hok := h.file n _ hn hty
  have hown : Ownership part part.bitLen a.blockUsed (a.refs ino.pure) :=
    Image.owns_iff.mp (h.owns hn)
  refine ⟨hown, ?_, hok.small⟩
  cases hok.has with
  | inl h0 => exact .inl h0
  | inr hb => exact .inr ⟨hb.block, hb.table⟩

theorem TreeInv.wrote {a₁ : Image} (h : TreeInv part strict none a T) (hS : a.Stored T)
    (hn : T.node n = some ino.pure) (hty : T.type n = .regular)
    (hW : Wrote part part.bitLen buf count ino a ino' a₁)
    (ha' : a' = a₁.setSlot (ino.iNo.toNat % 256) ino'.pure)
    : TreeInv part strict none a' (T.change n ino'.pure n (T.entries n))
        ∧ a'.Stored (T.change n ino'.pure n (T.entries n)) := by
  have hlt := (h.lt n _ hn).1
  have hno : ino.iNo.toNat % 256 = n := by
    have hno : ino.iNo = UInt32.ofNat n := (h.lt n _ hn).2
    rw [hno, UInt32.toNat_ofNat_of_lt' (by rw [UInt32.size]; omega)]
    omega
  have hfile : Tree.FileOk a₁ ino'.pure := by
    refine ⟨?_, hW.shape.small⟩
    cases hW.shape.has with
    | inl h0 => exact .inl h0
    | inr hb => exact .inr ⟨hb.block, hb.table⟩
  have hT : TreeInv part strict none _ (T.change n ino'.pure n (T.entries n)) :=
    h.write hn hty hW.ext hW.keeps hW.same.1 hfile
  rw [hno] at ha'
  refine ⟨hT.congr (by rw [ha']; rfl) (by rw [ha']; rfl), ?_, ?_⟩
  . intro m x hx
    rw [ha']
    simp only [Image.setSlot, Function.update_apply]
    by_cases hmn : m = n
    . rw [hmn, Tree.change_node_self, Option.some.injEq] at hx
      rw [if_pos hmn, ← hx]
      exact ⟨rfl, rfl⟩
    . rw [Tree.change_node_of_ne hmn] at hx
      rw [if_neg hmn, hW.ext.slot]
      exact hS.slot m x hx
  . intro m hm
    rw [ha', Tree.change_isSome hn]
    have hused : (a₁.setSlot n ino'.pure).inodeUsed = a.inodeUsed := hW.ext.inodeUsed
    rw [hused]
    exact hS.used m hm

end Write

end RogOS
