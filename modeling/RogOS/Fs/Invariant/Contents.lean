import RogOS.Fs.FileContent
import RogOS.Fs.Invariant.Volume

/-!
What the files of a tree hold. The system calls leave it alone where they work on directories, since
the blocks of a file are in no other inode.
-/

namespace RogOS

variable {part : Partition} {strict : Bool} {pend : Option Nat} {a a' : Image} {T T' : Tree}
  {d n m : Nat} {p p' x : Inode}

def Image.content (a : Image) (ino : Inode)
    : List UInt8 := (List.range ino.iSize.toNat).map (fileByte a ino)

def Tree.files (T : Tree) (a : Image) (n : Nat) : Option (List UInt8) :=
  if T.type n = .regular then (T.node n).map a.content else none

namespace Tree

theorem files_of_node (hn : T.node n = some x) (hty : T.type n = .regular)
    : T.files a n = some (a.content x) := by
  rw [files, if_pos hty, hn, Option.map_some]

theorem files_of_dir (hty : T.type n = .directory) : T.files a n = none := by
  rw [files, hty, if_neg (by decide)]

theorem files_of_none (hn : T.node n = none) : T.files a n = none := by
  rw [files, hn, Option.map_none, ite_self]

theorem files_congr (hsec : a'.sec = a.sec) : T.files a' = T.files a := by
  have hcontent : a'.content = a.content := by
    unfold Image.content fileByte Image.ref Image.block
    rw [hsec]
  unfold files
  rw [hcontent]

end Tree

section Frame

theorem TreeInv.content_frame (h : TreeInv part strict pend a T) (hframe : T.Frame d a a')
    (hnd : n ≠ d) (hn : T.node n = some x)
    (hty : T.type n = .regular) : a'.content x = a.content x := by
  unfold Image.content
  apply List.map_congr_left
  intro k hk
  rw [List.mem_range] at hk
  have hok := h.file n x hn hty
  have hsmall := hok.small
  have h0 : a.ref x (k / 512) ≠ 0 := by
    cases hok.has with
    | inl hempty => omega
    | inr hhas => exact (hhas.block _ (by omega)).mpr (by omega)
  have href : a'.ref x (k / 512) = a.ref x (k / 512) := by
    have hrefs := @Tree.Frame.refs _ _ _ _ _ _ hframe hnd hn (k / 512)
    rw [Image.refs_of_lt (by omega), Image.refs_of_lt (by omega)] at hrefs
    exact hrefs
  have hT : T.refs a (n, k / 512) = a.ref x (k / 512) := by
    rw [Tree.refs_of_node hn, Image.refs_of_lt (by omega)]
  have hsec := hframe n hnd (k / 512) (by rw [hT]; exact h0)
  rw [hT] at hsec
  unfold fileByte
  rw [href, hsec]

theorem TreeInv.files_frame (h : TreeInv part strict pend a T) (hframe : T.Frame d a a')
    (hnd : n ≠ d) (hnode : T'.node n = T.node n) (htype : T'.type n = T.type n)
    : T'.files a' n = T.files a n := by
  by_cases hty : T.type n = .regular
  . cases hn : T.node n with
    | none => rw [Tree.files_of_none hn, Tree.files_of_none (hnode.trans hn)]
    | some x =>
      rw [Tree.files_of_node hn hty, Tree.files_of_node (hnode.trans hn) (htype.trans hty),
        h.content_frame hframe hnd hn hty]
  . rw [Tree.files, Tree.files, htype, if_neg hty, if_neg hty]

theorem TreeInv.files_change (h : TreeInv part strict pend a T) (hframe : T.Frame d a a')
    (hdty : T.type d = .directory) {w : Nat} : (T.change d p' m w).files a' = T.files a := by
  funext n
  by_cases hnd : n = d
  . have hdty' : (T.change d p' m w).type d = .directory := hdty
    rw [hnd, Tree.files_of_dir hdty, Tree.files_of_dir hdty']
  . exact h.files_frame hframe hnd (Tree.change_node_of_ne hnd) rfl

end Frame

section Steps

variable {ty : FileType} {name : List UInt8} {w : Nat}

theorem TreeInv.files_enter {a₁ : Image} (h : TreeInv part strict (some n) a (T.add d n ty x))
    (hnew : T.node n = none) (hd : T.node d = some p.pure) (hdty : T.type d = .directory)
    (hins : a.Inserted part p (DirEntry.new name (UInt32.ofNat n) ty) a₁ p')
    (ha' : a' = (a₁.setSlot (p'.iNo.toNat % 256) p'.pure).setSlot (n % 256) x)
    : ((T.add d n ty x).change d p'.pure n w).files a' = (T.add d n ty x).files a := by
  have hdn : d ≠ n := by
    rintro rfl
    rw [hd] at hnew
    contradiction
  have hd' : (T.add d n ty x).node d = some p.pure := by
    simp only [Tree.add, Function.update_of_ne hdn]
    exact hd
  have htyd : (T.add d n ty x).type d = .directory := by
    simp only [Tree.add, Function.update_of_ne hdn]
    exact hdty
  have hext := hins.pure.extends (h.owns hd') h.tail
  have hrefs : a.refs p.pure = fun j => (T.add d n ty x).refs a (d, j) := funext fun j =>
    (Tree.refs_of_node hd').symm
  rw [hrefs] at hext
  have hsec : a'.sec = a₁.sec := by
    rw [ha']
    rfl
  rw [Tree.files_congr hsec]
  exact h.files_change (h.frame hext) htyd

theorem Image.FileAdded.files (h : a.FileAdded part p name n p' a')
    (hT : TreeInv part strict none a T) (hS : a.Stored T)
    (hd : T.node d = some p.pure) (hdty : T.type d = .directory) (hn : n < 256)
    : ((T.add d n .regular (inodeInit (UInt32.ofNat n))).change d p'.pure n w).files a'
        =
      Function.update (T.files a) n (some []) := by
  obtain ⟨a1, hins, ha'⟩ := h.entered
  have hnew := h.inode.node_none hS
  rw [(hT.addFile hnew hn hd hdty).files_enter hnew hd hdty hins ha']
  funext k
  by_cases hk : k = n
  . have hnode : (T.add d n .regular (inodeInit (UInt32.ofNat n))).node n
        = some (inodeInit (UInt32.ofNat n)) := by
      simp only [Tree.add, Function.update_self]
    have htype : (T.add d n .regular (inodeInit (UInt32.ofNat n))).type n = .regular := by
      simp only [Tree.add, Function.update_self]
    rw [hk, Function.update_self, Tree.files_of_node hnode htype]
    rfl
  . rw [Function.update_of_ne hk]
    simp only [Tree.files, Tree.add, Function.update_of_ne hk]
    rfl

theorem Image.DirAdded.files {b : Nat} (h : a.DirAdded part p name n b p' a')
    (hT : TreeInv part strict none a T) (hS : a.Stored T) (hd : T.node d = some p.pure)
    (hdty : T.type d = .directory) (hn : n < 256)
    : ((T.add d n .directory (dirInit n (part.blockLba b))).change d p'.pure n w).files a'
        = T.files a := by
  obtain ⟨a1, hins, ha'⟩ := h.entered
  have hnew := h.inode.node_none hS
  have hT0 : TreeInv part strict none (a.setInodeUsed n true) T := hT.congr rfl rfl
  have hb0 : (a.setInodeUsed n true).FreeBlock part b := ⟨h.block.lt, h.block.clear, h.block.first⟩
  rw [(hT0.addDir hnew hn hd hdty hb0).files_enter hnew hd hdty hins ha']
  have hext := @TreeInv.extends_dir _ _ _ _ _ _ (dotSector (UInt32.ofNat n) p.pure.iNo) hT0 hb0
  have hnone : (fun j => T.refs (a.setInodeUsed n true) (n, j)) = fun _ => 0 := funext fun j =>
    T.refs_of_none hnew
  rw [← hnone] at hext
  funext k
  by_cases hk : k = n
  . rw [hk, Tree.files_of_none hnew]
    apply Tree.files_of_dir
    simp only [Tree.add, Function.update_self]
  . exact hT0.files_frame (hT0.frame hext) hk (by simp only [Tree.add, Function.update_of_ne hk])
      (by simp only [Tree.add, Function.update_of_ne hk])

theorem TreeInv.files_remove {a₁ : Image} {y : Inode} {b : Bool} (h : TreeInv part strict none a T)
    (hd : T.node d = some p.pure) (hdty : T.type d = .directory)
    (hent : ∃ i < 140, ∃ k < 21, OtherSlot i k ∧ ∃ e, a.dirent p i k = some e
      ∧ T.ChildEntry none d e
      ∧ e.iNo = UInt32.ofNat m)
    (hdel : a.Deleted part p (UInt32.ofNat m) a₁ (b, p')) (hrel : a₁.Released part y m a')
    : ((T.change d p'.pure m 0).setNode m none).files a' = Function.update (T.files a) m none := by
  obtain ⟨hb, -⟩ := h.erased hd (h.dir d _ hd hdty) hent hdel.pure
  rw [hb] at hdel
  obtain ⟨hframe, -⟩ := h.blocks_delete hd hdel.pure
  have hchange := @TreeInv.files_change _ _ _ _ _ _ _ (UInt32.ofNat m).toNat p'.pure h hframe hdty 0
  rw [Tree.files_congr hrel.sec]
  funext k
  by_cases hk : k = m
  . rw [hk, Function.update_self, Tree.files_of_none Tree.setNode_self]
  . rw [Function.update_of_ne hk, ← hchange]
    unfold Tree.files
    rw [Tree.setNode_of_ne hk]
    rfl

theorem TreeInv.files_wrote {a₁ : Image} {ino ino' : Inode} {buf : Mem} {count : UInt32}
    (h : TreeInv part strict none a T) (hn : T.node n = some ino.pure) (hty : T.type n = .regular)
    (hW : Wrote part part.bitLen buf count ino a ino' a₁) (hsec : a'.sec = a₁.sec)
    : (T.change n ino'.pure n w).files a'
        =
      Function.update (T.files a) n (some (a.content ino ++ bytesOf (buf, count))) := by
  have hrefs : a.refs ino = fun j => T.refs a (n, j) := funext fun j => (Tree.refs_of_node hn).symm
  have hext := hW.ext
  rw [hrefs] at hext
  rw [Tree.files_congr hsec]
  funext k
  by_cases hk : k = n
  . have hty' : (T.change n ino'.pure n w).type n = .regular := hty
    rw [hk, Function.update_self, Tree.files_of_node Tree.change_node_self hty', Option.some.injEq]
    have hold : FileData a ino fun q => (a.content ino).getD q 0 := by
      constructor
      intro q hq
      simp [Image.content, List.getD, hq, fileByte]
    have hlen : (a.content ino).length = ino.iSize.toNat := by
      rw [Image.content, List.length_map, List.length_range]
    have hbytes := (hW.data _ hold).bytes
    apply List.ext_getElem
    . rw [List.length_append, hlen]
      simp [Image.content, hW.size, bytesOf, Inode.pure]
    . intro q h1 h2
      have hq : q < ino'.iSize.toNat := by
        simpa [Image.content, Inode.pure] using h1
      have hb := hbytes q hq
      rw [hW.size] at hq
      rw [← hlen, appended_eq_getD (w := (buf, count)) (by rw [hlen]; exact hq)] at hb
      rw [List.getD_eq_getElem _ _ h2] at hb
      rw [← hb]
      simp only [Image.content, List.getElem_map, List.getElem_range]
      rfl
  . rw [Function.update_of_ne hk]
    exact h.files_frame (h.frame hext) hk (Tree.change_node_of_ne hk) rfl

end Steps

end RogOS
