import RogOS.Fs.Lemmas.Calls
import RogOS.Fs.Lemmas.FileRead
import RogOS.Fs.Lemmas.Format

/-!
The contents of a file: what was written to it is read from it.
-/

namespace RogOS

variable {part : Partition} {s s' : Fs} {fdIdx : Fin 32} {addr : Nat} {ino : Inode}

def writeFiles (part : Partition) (fdIdx : Fin 32) : List (Mem × UInt32) → FsM (List Int)
  | [] => pure []
  | (buf, count) :: rest => do
    let r ← writeFile part fdIdx buf count
    let rs ← writeFiles part fdIdx rest
    pure (r :: rs)

def bytesOf (w : Mem × UInt32) : List UInt8 := (List.range w.2.toNat).map w.1

def contents (ws : List (Mem × UInt32)) : List UInt8 := ws.flatMap bytesOf

structure OpenOn (part : Partition) (s : Fs) (fdIdx : Fin 32) (addr : Nat) (ino : Inode)
    (data : List UInt8) : Prop where
  entry : (s.fileTable fdIdx).fdInode = some addr
  inode : s.inode? addr = some ino
  size : ino.iSize.toNat = data.length
  shape : FileShape part 163840 (s.vol.image part) ino
  bytes : FileData (s.vol.image part) ino (fun p => data.getD p 0)

theorem appended_eq_getD {data : List UInt8} {w : Mem × UInt32} {p : Nat}
    (hp : p < data.length + w.2.toNat)
    : appended (fun p => data.getD p 0) data.length w.1 p = (data ++ bytesOf w).getD p 0 := by
  unfold appended
  split
  . next hlt => rw [List.getD_append _ _ _ _ hlt]
  . next hge =>
    rw [List.getD_append_right _ _ _ _ (by omega)]
    have hlen : p - data.length < w.2.toNat := by omega
    simp [bytesOf, List.getD, hlen]

theorem writeFile_run {w : Mem × UInt32} (hentry : (s.fileTable fdIdx).fdInode = some addr)
    (hino : s.inode? addr = some ino) {r : Int × Fs}
    (h : (writeFile part fdIdx w.1 w.2).run s = .ok r)
    : ∃ q v, (fileWrite part (s.fileTable fdIdx).fdPos ino w.1 w.2).run s.vol = .ok (q, v)
        ∧ r.1 = q.1
        ∧ (r.2.fileTable fdIdx).fdInode = some addr ∧ r.2.inode? addr = some q.2.2
            ∧ r.2.vol = v := by
  simp only [writeFile, Cmd.bind_run, Cmd.get_run] at h
  obtain ⟨_, _, h1, h2⟩ := h
  cases h1
  rw [hentry] at h2
  simp only [Cmd.bind_run, Cmd.modify_run, Cmd.pure_run, onInode_run] at h2
  obtain ⟨⟨k, pos⟩, s1, ⟨ino0, ino', v, h3, h4, h5⟩, _, _, h6, h7⟩ := h2
  cases h6
  rw [hino] at h3
  cases h3
  obtain ⟨q, v', h8, h9⟩ := h4
  cases h9
  rw [h7, h5]
  refine ⟨q, _, h8, rfl, ?_, ?_, rfl⟩
  . simp only [Fs.setFile, Function.update_self]
    exact hentry
  . have hget := @Fs.inode?_updInode { s with vol := v } addr addr (fun _ => q.2.2)
    have hold : Fs.inode? { s with vol := v } addr = some ino := hino
    rw [if_pos rfl, hold] at hget
    exact hget

theorem OpenOn.write {data : List UInt8} {w : Mem × UInt32} (hO : OpenOn part s fdIdx addr ino data)
    {r : Int × Fs} (h : (writeFile part fdIdx w.1 w.2).run s = .ok r) (hr : r.1 = w.2.toNat)
    : ∃ ino', OpenOn part r.2 fdIdx addr ino' (data ++ bytesOf w) := by
  obtain ⟨q, v, hrun, hq, hentry, hino, hvol⟩ := writeFile_run hO.entry hO.inode h
  rw [hq] at hr
  obtain ⟨hneg, -, -⟩ | ⟨-, a', hW, himg⟩ := fileWrite_run hO.shape Image.freeBelow_max hrun
  . dsimp only at hneg
    omega
  . dsimp only at hW himg
    refine ⟨q.2.2, hentry, hino, ?_, ?_, ?_⟩
    . rw [hW.size, hO.size, List.length_append]
      simp [bytesOf]
    . rw [hvol, himg]
      exact hW.shape.setSlot
    . rw [hvol, himg]
      have hd := hW.data _ hO.bytes
      constructor
      intro p hp
      have hb := hd.bytes p hp
      rw [hW.size, hO.size] at hp
      rw [hO.size, appended_eq_getD hp] at hb
      exact hb

theorem OpenOn.writes {ws : List (Mem × UInt32)} {data : List UInt8}
    (hO : OpenOn part s fdIdx addr ino data) {r : List Int × Fs}
    (h : (writeFiles part fdIdx ws).run s = .ok r) (hr : r.1 = ws.map fun w => (w.2.toNat : Int))
    : ∃ ino', OpenOn part r.2 fdIdx addr ino' (data ++ contents ws) := by
  induction ws generalizing s ino data r with
  | nil =>
    rw [writeFiles, Cmd.pure_run] at h
    rw [h]
    refine ⟨ino, ?_⟩
    simpa [contents] using hO
  | cons w ws ih =>
    simp only [writeFiles, Cmd.bind_run, Cmd.pure_run] at h
    obtain ⟨k, s1, h1, ks, s2, h2, h3⟩ := h
    rw [h3] at hr ⊢
    dsimp only at hr ⊢
    rw [List.map_cons, List.cons.injEq] at hr
    obtain ⟨ino1, hO1⟩ := hO.write h1 hr.1
    obtain ⟨ino2, hO2⟩ := ih hO1 h2 hr.2
    refine ⟨ino2, ?_⟩
    rw [List.append_assoc] at hO2
    exact hO2

theorem fileShape_inodeInit {lim : Nat} (hlim : lim ≤ 163840) {a : Image} {n : UInt32} {k : Nat}
    : FileShape part lim a { inodeInit n with iOpenCnts := k } := by
  constructor
  . constructor
    . exact hlim
    . intro j hj
      exact absurd Image.refs_inodeInit hj
    . intro j hj
      exact absurd Image.refs_inodeInit hj
    . intro j _ hj
      exact absurd Image.refs_inodeInit hj
  . exact .inl ⟨fun j => Image.refs_inodeInit, rfl⟩
  . simp [inodeInit]

theorem fileCreate_inode {task : Nat} {parentDir : DirRef} {filename : List UInt8} {flag : UInt8}
    {r : Int × Fs} (hidx : getFreeSlotInGlobal s = some fdIdx)
    (h : (fileCreate part task parentDir filename flag).run s = .ok r) (hr : r.1 ≠ -1)
    : ∃ addr n, (r.2.fileTable fdIdx).fdInode = some addr
        ∧ r.2.inode? addr = some { inodeInit n with iOpenCnts := 1 } := by
  cases fileCreate_run h with
  | noInode alloc => contradiction
  | noSlot alloc slot undo => contradiction
  | noEntry alloc slot parent entry undo => contradiction
  | made alloc slot parent length entered =>
    rename_i n v v' p p' i
    rw [hidx, Option.some.injEq] at slot
    subst slot
    refine ⟨s.newAddr, n, ?_⟩
    cases Fs.installed_cases with
    | inl h =>
      rw [h.2] at hr
      contradiction
    | inr h =>
      obtain ⟨fd, -, hinst⟩ := h
      rw [hinst]
      constructor
      . simp [Fs.created, Fs.setFd, Fs.setFile, Fs.pushInode, Fs.updInode]
      . exact Fs.inode?_pushInode.trans (if_pos rfl)

theorem fileCreate_openOn {task : Nat} {parentDir : DirRef} {filename : List UInt8} {flag : UInt8}
    {r : Int × Fs} (hidx : getFreeSlotInGlobal s = some fdIdx)
    (h : (fileCreate part task parentDir filename flag).run s = .ok r) (hr : r.1 ≠ -1)
    : ∃ addr ino, OpenOn part r.2 fdIdx addr ino [] := by
  obtain ⟨addr, n, hentry, hino⟩ := fileCreate_inode hidx h hr
  refine ⟨addr, _, hentry, hino, rfl, fileShape_inodeInit (Nat.le_refl _), ?_⟩
  constructor
  intro p hp
  contradiction

def Fs.fileInode? (s : Fs) (fdIdx : Fin 32)
    : Option Inode := (s.fileTable fdIdx).fdInode.bind s.inode?

def Fs.seek (s : Fs) (fdIdx : Fin 32) (p : UInt32) : Fs :=
  s.setFile fdIdx { s.fileTable fdIdx with fdPos := p }

theorem OpenOn.read {data : List UInt8} {p count : UInt32} {buf : Mem} {r : (Int × Mem) × Fs}
    (hO : OpenOn part s fdIdx addr ino data) (hp : p.toNat ≤ ino.iSize.toNat)
    (hsum : p.toNat + count.toNat < 2 ^ 32)
    (h : (readFile fdIdx buf count).run (s.seek fdIdx p) = .ok r)
    : r.1.1 = (if readSize ino p count = 0 ∧ 0 < count.toNat then -1
        else (readSize ino p count : Int))
        ∧ (List.range (readSize ino p count)).map r.1.2
            = (data.drop p.toNat).take (readSize ino p count)
        ∧ (∀ i, readSize ino p count ≤ i → r.1.2 i = buf i)
        ∧ (r.2.fileTable fdIdx).fdPos.toNat = p.toNat + readSize ino p count := by
  have hentry : ((s.seek fdIdx p).fileTable fdIdx).fdInode = some addr := by
    rw [← hO.entry]
    simp [Fs.seek, Fs.setFile]
  have hpos : ((s.seek fdIdx p).fileTable fdIdx).fdPos = p := by simp [Fs.seek, Fs.setFile]
  have hino : (s.seek fdIdx p).inode? addr = some ino := hO.inode
  simp only [readFile, Cmd.bind_run, Cmd.get_run] at h
  obtain ⟨_, _, h1, h2⟩ := h
  cases h1
  rw [hentry] at h2
  simp only [Cmd.bind_run, Cmd.modify_run, Cmd.pure_run, derefInode_run, onVol_run] at h2
  obtain ⟨_, _, ⟨i, h3, h4⟩, q, s1, ⟨v, h5, h6⟩, _, _, h7, h8⟩ := h2
  cases h4
  cases h7
  rw [hino, Option.some.injEq] at h3
  subst h3
  rw [hpos] at h5
  have hrun := fileRead_run hO.shape hO.bytes hp hsum h5
  rw [h8]
  refine ⟨hrun.1, ?_, hrun.2.2.1, ?_⟩
  . apply List.ext_getElem
    . have hsize := hO.size
      simp only [List.length_map, List.length_range, List.length_take, List.length_drop]
      unfold readSize
      omega
    . intro i h1 h2
      rw [List.length_map, List.length_range] at h1
      rw [List.length_take, List.length_drop] at h2
      have hb := hrun.2.1 i h1
      rw [List.getD_eq_getElem _ _ (by omega)] at hb
      simp only [List.getElem_map, List.getElem_range, List.getElem_take, List.getElem_drop]
      exact hb
  . simp only [Fs.setFile, Function.update_self]
    exact hrun.2.2.2

/--
What a sequence of writes puts in a new file is what a read delivers: from the position `p` on, as
many bytes as were asked for and are there, with the result -1 at the end of the file.
-/
theorem readFile_of_writeFiles {task : Nat} {parentDir : DirRef} {filename : List UInt8}
    {flag : UInt8} {fd k : Int} {ws : List (Mem × UInt32)} {p count : UInt32} {buf buf' : Mem}
    {s0 s1 s2 s3 : Fs} (hslot : getFreeSlotInGlobal s0 = some fdIdx)
    (hcreate : (fileCreate part task parentDir filename flag).run s0 = .ok (fd, s1)) (hfd : fd ≠ -1)
    (hwrite : (writeFiles part fdIdx ws).run s1 = .ok (ws.map fun w => (w.2.toNat : Int), s2))
    (hino : s2.fileInode? fdIdx = some ino) (hp : p.toNat ≤ ino.iSize.toNat)
    (hsum : p.toNat + count.toNat < 2 ^ 32)
    (hread : (readFile fdIdx buf count).run (s2.seek fdIdx p) = .ok ((k, buf'), s3))
    : let d := min count.toNat (ino.iSize.toNat - p.toNat)
      ino.iSize.toNat = (contents ws).length
        ∧ k = (if d = 0 ∧ 0 < count.toNat then -1 else (d : Int))
        ∧ (List.range d).map buf' = ((contents ws).drop p.toNat).take d
        ∧ (∀ i, d ≤ i → buf' i = buf i)
        ∧ (s3.fileTable fdIdx).fdPos.toNat = p.toNat + d := by
  obtain ⟨addr, ino0, hO0⟩ := fileCreate_openOn hslot hcreate hfd
  obtain ⟨ino2, hO⟩ := hO0.writes hwrite rfl
  have hsame : ino2 = ino := by
    rw [Fs.fileInode?, hO.entry, Option.bind_some, hO.inode] at hino
    exact Option.some.inj hino
  subst hsame
  rw [List.nil_append] at hO
  exact ⟨hO.size, hO.read hp hsum hread⟩

def fiveBytes
    : List (Mem × UInt32) :=
        [(fun i => [97, 98, 99].getD i 0, 3), (fun i => [100, 101].getD i 0, 2)]

theorem readFile_of_writeFiles_fiveBytes
    : ∃ fd s1 s2 s3 buf' ino,
        (fileCreate smallPartition 0 .root [102] oRdwr).run smallFs = .ok (fd, s1) ∧ fd ≠ -1
          ∧ (writeFiles smallPartition 3 fiveBytes).run s1 = .ok ([3, 2], s2)
          ∧ s2.fileInode? 3 = some ino ∧ ino.iSize.toNat = 5
          ∧ (readFile 3 Mem.zero 10).run (s2.seek 3 2) = .ok ((3, buf'), s3)
          ∧ (List.range 3).map buf' = [99, 100, 101] ∧ (s3.fileTable 3).fdPos.toNat = 5 := by
  have hret1 : (fileCreate smallPartition 0 .root [102] oRdwr).returns smallFs (· ≠ -1) = true := by
    decide +kernel
  obtain ⟨fd, hrun1, hfd⟩ := Cmd.run_of_returns hret1
  have hret2 : (writeFiles smallPartition 3 fiveBytes).returns
      ((fileCreate smallPartition 0 .root [102] oRdwr).after smallFs) (· = [3, 2]) = true := by
    decide +kernel
  obtain ⟨ks, hrun2, hks⟩ := Cmd.run_of_returns hret2
  rw [decide_eq_true_iff] at hfd hks
  subst hks
  generalize hs1 : (fileCreate smallPartition 0 .root [102] oRdwr).after smallFs = s1 at *
  generalize hs2 : (writeFiles smallPartition 3 fiveBytes).after s1 = s2 at *
  have hsize : (s2.fileInode? 3).map (·.iSize) = some 5 := by
    rw [← hs2, ← hs1]
    decide +kernel
  have hret3 : (readFile 3 Mem.zero 10).returns (s2.seek 3 2) (fun _ => true) = true := by
    rw [← hs2, ← hs1]
    decide +kernel
  obtain ⟨⟨k, buf'⟩, hrun3, -⟩ := Cmd.run_of_returns hret3
  obtain ⟨ino, hino, h5⟩ := Option.map_eq_some_iff.mp hsize
  have hread := readFile_of_writeFiles (by decide +kernel) hrun1 hfd hrun2 hino
    (by rw [h5]; decide) (by decide) hrun3
  rw [h5] at hread
  have hk : k = 3 := hread.2.1
  rw [hk] at hrun3
  refine ⟨fd, s1, s2, _, buf', ino, hrun1, hfd, hrun2, hino, by rw [h5]; rfl, hrun3, ?_,
    hread.2.2.2.2⟩
  have hbytes : (List.range 3).map buf' = ((contents fiveBytes).drop 2).take 3 := hread.2.2.1
  rw [hbytes]
  decide

end RogOS
