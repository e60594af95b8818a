import RogOS.Task.Impl.Exec
import RogOS.Fs.FileContent
import RogOS.Fs.PathResolution

/-!
What `load` does with the bytes of a file: which segments it copies, and where the position in the
file goes.
-/

namespace RogOS

variable {part : Partition} {task : Nat} {kbd : Mem} {junk : UInt32} {data : List UInt8} {s t : Fs}
  {fd : Fin 8}
  {fdIdx : Fin 32}

section Reading

theorem fdLocal2Global_run {fdIdx : Fin 32} {r : Fin 32 × Fs}
    (hfd : (s.tasks task).fdTable fd = fdIdx.val)
    (h : (fdLocal2Global task fd.val).run s = .ok r) : r = (fdIdx, s) := by
  simp only [fdLocal2Global, Cmd.bind_run, Cmd.get_run] at h
  obtain ⟨_, _, h1, h2⟩ := h
  cases h1
  rw [dif_pos fd.isLt] at h2
  have hlt := fdIdx.isLt
  have hg : (s.tasks task).fdTable ⟨fd.val, fd.isLt⟩ = fdIdx.val := hfd
  rw [dif_pos (by omega), Cmd.pure_run] at h2
  rw [h2]
  apply Prod.ext
  . apply Fin.ext
    dsimp only
    omega
  . rfl

theorem toInt_toInt32 {x : UInt32} (hx : x.toNat < 2 ^ 31) : x.toInt32.toInt = x.toNat := by
  show x.toBitVec.toInt = x.toNat
  rw [BitVec.toInt_eq_toNat_of_lt]
  . rfl
  . show 2 * x.toNat < 2 ^ 32
    omega

theorem seek_out_of_range_iff {off size : UInt32} (hsize : size.toNat < 71680)
    : (off.toInt32 < 0 ∨ size.toInt32 - 1 < off.toInt32) ↔ size.toNat ≤ off.toNat := by
  have hsz : size.toInt32.toInt = size.toNat := toInt_toInt32 (by omega)
  have hsub : (size.toInt32 - 1).toInt = (size.toNat : Int) - 1 := by
    rw [Int32.toInt_sub, hsz, Int32.toInt_one, Int.bmod_def]
    omega
  rw [Int32.lt_iff_toInt_lt, Int32.lt_iff_toInt_lt, hsub, Int32.toInt_zero]
  by_cases hoff : off.toNat < 2 ^ 31
  . rw [toInt_toInt32 hoff]
    omega
  . have hneg : off.toInt32.toInt = (off.toNat : Int) - 2 ^ 32 := by
      show off.toBitVec.toInt = _
      rw [BitVec.toInt_eq_toNat_cond, if_neg]
      . rfl
      . show ¬ 2 * off.toNat < 2 ^ 32
        omega
    have hlt := off.toNat_lt
    rw [hneg]
    omega

theorem OpenOn.congr {s' : Fs} {fdIdx fdIdx' : Fin 32} {addr addr' : Nat} {ino ino' : Inode}
    (hO : OpenOn part s fdIdx addr ino data) (hvol : s'.vol = s.vol)
    (hentry : (s'.fileTable fdIdx').fdInode = some addr')
    (hino : s'.inode? addr' = some ino') (hsec : ino'.iSectors = ino.iSectors)
    (hsize : ino'.iSize = ino.iSize)
    : OpenOn part s' fdIdx' addr' ino' data where
  entry := hentry
  inode := hino
  size := by
    rw [hsize]
    exact hO.size
  shape := by
    obtain ⟨hown, hhas, hsmall⟩ := hO.shape
    rw [hvol]
    cases ino'
    cases hsec
    cases hsize
    refine ⟨hown, ?_, hsmall⟩
    cases hhas with
    | inl h => exact .inl h
    | inr h => exact .inr ⟨h.block, h.table⟩
  bytes := by
    have hbytes := hO.bytes.bytes
    rw [hvol]
    cases ino'
    cases hsec
    cases hsize
    exact ⟨hbytes⟩

theorem Fs.seek_self {fdIdx : Fin 32} : s.seek fdIdx (s.fileTable fdIdx).fdPos = s := by
  unfold Fs.seek Fs.setFile
  simp

theorem Fs.seek_fdPos {fdIdx : Fin 32} {q : UInt32}
    : ((s.seek fdIdx q).fileTable fdIdx).fdPos = q := by
  simp [Fs.seek, Fs.setFile]

theorem OpenOn.seek {fdIdx : Fin 32} {addr : Nat} {ino : Inode} {q : UInt32}
    (hO : OpenOn part s fdIdx addr ino data)
    : OpenOn part (s.seek fdIdx q) fdIdx addr ino data where
  entry := by
    rw [← hO.entry]
    simp [Fs.seek, Fs.setFile]
  inode := hO.inode
  size := hO.size
  shape := hO.shape
  bytes := hO.bytes

theorem OpenOn.lseek {fdIdx : Fin 32} {addr : Nat} {ino : Inode} {off : UInt32} {r : Int × Fs}
    (hO : OpenOn part s fdIdx addr ino data) (hfd : (s.tasks task).fdTable fd = fdIdx.val)
    (h : (sysLseek task fd.val off.toInt32 seekSet).run s = .ok r)
    : r.2 = s.seek fdIdx (if off.toNat < data.length then off else (s.fileTable fdIdx).fdPos) := by
  have hsmall := hO.shape.small
  have hsize := hO.size
  unfold sysLseek at h
  rw [if_neg (by omega)] at h
  simp only [Cmd.bind_run, Cmd.assert_run, Int.toNat_natCast] at h
  obtain ⟨_, _, ⟨-, h1⟩, _, _, h2, h3⟩ := h
  cases h1
  cases fdLocal2Global_run hfd h2
  simp only [Cmd.get_run] at h3
  obtain ⟨_, _, h4, h5⟩ := h3
  cases h4
  rw [hO.entry] at h5
  simp only [Cmd.bind_run, derefInode_run] at h5
  obtain ⟨_, _, ⟨i, h6, h7⟩, h8⟩ := h5
  cases h7
  rw [hO.inode, Option.some.injEq] at h6
  subst h6
  simp only [↓reduceIte] at h8
  by_cases hout : ino.iSize.toNat ≤ off.toNat
  . rw [if_pos ((seek_out_of_range_iff hsmall).mpr hout), Cmd.pure_run] at h8
    rw [h8, if_neg (by omega), Fs.seek_self]
  . rw [if_neg (fun hc => hout ((seek_out_of_range_iff hsmall).mp hc))] at h8
    simp only [Cmd.bind_run, Cmd.modify_run, Cmd.pure_run] at h8
    obtain ⟨_, _, h9, h10⟩ := h8
    cases h9
    rw [h10, if_pos (by omega)]
    rfl

theorem OpenOn.sysRead {fdIdx : Fin 32} {addr : Nat} {ino : Inode} {buf : Mem} {count : UInt32}
    {r : (Int × Mem) × Fs} (hO : OpenOn part s fdIdx addr ino data) (habove : 3 ≤ fd.val)
    (hfd : (s.tasks task).fdTable fd = fdIdx.val)
    (hpos : (s.fileTable fdIdx).fdPos.toNat ≤ data.length)
    (h : (sysRead task kbd fd.val buf count).run s = .ok r)
    : (s.fileTable fdIdx).fdPos.toNat + count.toNat < 2 ^ 32
        ∧ r.1.1.toNat = min count.toNat (data.length - (s.fileTable fdIdx).fdPos.toNat)
        ∧ (∀ i < min count.toNat (data.length - (s.fileTable fdIdx).fdPos.toNat),
            data[(s.fileTable fdIdx).fdPos.toNat + i]? = some (r.1.2 i))
        ∧ ∃ q, r.2 = s.seek fdIdx q
            ∧ q.toNat = (s.fileTable fdIdx).fdPos.toNat
                + min count.toNat (data.length - (s.fileTable fdIdx).fdPos.toNat) := by
  have hsize := hO.size
  have hsmall := hO.shape.small
  unfold RogOS.sysRead at h
  rw [if_neg (by omega), if_neg (by omega)] at h
  simp only [Cmd.bind_run, Int.toNat_natCast] at h
  obtain ⟨_, _, h1, h2⟩ := h
  cases fdLocal2Global_run hfd h1
  simp only [readFile, Cmd.bind_run, Cmd.get_run] at h2
  obtain ⟨_, _, h3, h4⟩ := h2
  cases h3
  rw [hO.entry] at h4
  simp only [Cmd.bind_run, Cmd.modify_run, Cmd.pure_run, derefInode_run, onVol_run] at h4
  obtain ⟨_, _, ⟨i, h5, h6⟩, q, s1, ⟨v, h7, h8⟩, _, _, h9, h10⟩ := h4
  cases h6
  cases h9
  rw [hO.inode, Option.some.injEq] at h5
  subst h5
  have hsum := fileRead_no_wrap (by omega) hsmall h7
  obtain ⟨h11, h12, -, h13⟩ := fileRead_run hO.shape hO.bytes (by omega) hsum h7
  have hvol : v = s.vol := fileRead_keeps _ _ h7
  unfold readSize at h11 h12 h13
  rw [hsize] at h11 h12 h13
  rw [h10]
  refine ⟨hsum, ?_, ?_, q.2.2, ?_, h13⟩
  . dsimp only
    rw [h11]
    split <;> omega
  . intro j hj
    have hget := h12 j hj
    rw [List.getD_eq_getElem _ _ (by omega)] at hget
    rw [List.getElem?_eq_getElem (by omega), ← hget]
  . rw [h8, hvol]
    rfl

structure Fs.Reads (part : Partition) (task : Nat) (fd : Fin 8) (fdIdx : Fin 32) (data : List UInt8)
    (s : Fs) : Prop where
  above : 3 ≤ fd.val
  entry : (s.tasks task).fdTable fd = fdIdx.val
  file : ∃ addr ino, OpenOn part s fdIdx addr ino data

structure Fs.SeekTo (s : Fs) (fdIdx : Fin 32) (data : List UInt8) (pos : Nat) (t : Fs) : Prop where
  state : ∃ q, t = s.seek fdIdx q ∧ q.toNat = pos
  le : pos ≤ data.length

theorem Fs.seek_seek {q q' : UInt32} : (s.seek fdIdx q).seek fdIdx q' = s.seek fdIdx q' := by
  simp [Fs.seek, Fs.setFile]

namespace Fs.SeekTo

variable {pos : Nat}

theorem trans {pos' : Nat} {t' : Fs} (h : s.SeekTo fdIdx data pos t)
    (h' : t.SeekTo fdIdx data pos' t')
    : s.SeekTo fdIdx data pos' t' := by
  obtain ⟨q, rfl, -⟩ := h.state
  obtain ⟨q', rfl, hq⟩ := h'.state
  exact ⟨⟨q', Fs.seek_seek, hq⟩, h'.le⟩

theorem fdPos (h : s.SeekTo fdIdx data pos t) : (t.fileTable fdIdx).fdPos.toNat = pos := by
  obtain ⟨q, rfl, hq⟩ := h.state
  rw [Fs.seek_fdPos, hq]

theorem reads (h : s.SeekTo fdIdx data pos t) (hR : s.Reads part task fd fdIdx data)
    : t.Reads part task fd fdIdx data := by
  obtain ⟨q, rfl, -⟩ := h.state
  obtain ⟨addr, ino, hO⟩ := hR.file
  exact ⟨hR.above, hR.entry, addr, ino, hO.seek⟩

end Fs.SeekTo

def seekPos (data : List UInt8) (pos : Nat) (off : UInt32)
    : Nat := if off.toNat < data.length then off.toNat else pos

def readBytes (data : List UInt8) (pos count : Nat) : List UInt8 := (data.drop pos).take count

theorem length_readBytes {pos count : Nat}
    : (readBytes data pos count).length = min count (data.length - pos) := by
  rw [readBytes, List.length_take, List.length_drop]

namespace Fs.Reads

variable {pos : Nat}

theorem length_lt (hR : s.Reads part task fd fdIdx data) : data.length < 71680 := by
  obtain ⟨_, _, hO⟩ := hR.file
  have hsize := hO.size
  have hsmall := hO.shape.small
  omega

theorem lseek {off : UInt32} {r : Int × Fs} (hR : s.Reads part task fd fdIdx data)
    (hat : s.SeekTo fdIdx data pos t) (h : (sysLseek task fd.val off.toInt32 seekSet).run t = .ok r)
    : s.SeekTo fdIdx data (seekPos data pos off) r.2 := by
  have hRt := hat.reads hR
  obtain ⟨addr, ino, hO⟩ := hRt.file
  have hle := hat.le
  have hpos := hat.fdPos
  apply hat.trans
  rw [hO.lseek hRt.entry h]
  refine ⟨⟨_, rfl, ?_⟩, ?_⟩
  . unfold seekPos
    split
    . rfl
    . exact hpos
  . unfold seekPos
    split <;> omega

theorem sysRead {buf : Mem} {count : UInt32} {r : (Int × Mem) × Fs}
    (hR : s.Reads part task fd fdIdx data) (hat : s.SeekTo fdIdx data pos t)
    (h : (RogOS.sysRead task kbd fd.val buf count).run t = .ok r)
    : r.1.1.toNat = (readBytes data pos count.toNat).length
        ∧ (∀ i < (readBytes data pos count.toNat).length, r.1.2 i
            = (readBytes data pos count.toNat).getD i 0)
        ∧ s.SeekTo fdIdx data (pos + (readBytes data pos count.toNat).length) r.2 := by
  have hRt := hat.reads hR
  obtain ⟨addr, ino, hO⟩ := hRt.file
  have hle := hat.le
  have hpos := hat.fdPos
  obtain ⟨-, h1, h2, q, h3, h4⟩ := hO.sysRead hRt.above hRt.entry (by omega) h
  rw [hpos] at h1 h2 h4
  rw [length_readBytes]
  refine ⟨h1, ?_, hat.trans ⟨⟨q, h3, h4⟩, by omega⟩⟩
  intro i hi
  have hget := h2 i hi
  rw [readBytes, List.getD, List.getElem?_take, if_pos (by omega), List.getElem?_drop, hget]
  rfl

end Fs.Reads

end Reading
section Pages

variable {p p1 p' : Proc}

theorem getAPage_run {vaddr : UInt32} {r : Bool × Proc} (h : (getAPage vaddr).run p = .ok r)
    : r = (true, { p with
        mapped := Function.update p.mapped (vaddr.toNat / 4096) true
        vaddrBits := p.vaddrBits.setBit ((vaddr - 0x8048000) / 4096).toNat true
        frames := p.frames - 1 }) := by
  simp only [getAPage, Cmd.bind_run, Cmd.assert_run, Cmd.get_run, Cmd.modify_run, Cmd.pure_run] at h
  obtain ⟨_, _, ⟨-, h1⟩, _, _, ⟨-, h2⟩, _, _, h3, _, _, h4, _, _, ⟨-, h5⟩, _, _, h6, h7⟩ := h
  cases h1
  cases h2
  cases h3
  cases h4
  cases h5
  cases h6
  exact h7

structure Copy where
  vaddr : Nat
  pages : Nat
  bytes : List UInt8
  deriving DecidableEq

namespace Copy

def Needs (c : Copy) (k : Nat) : Prop := ∃ i < c.pages, k = (c.vaddr / 4096 + i) % 2 ^ 20

def write (m : Mem) (c : Copy) : Mem := m.blit c.vaddr c.bytes.length fun i => c.bytes.getD i 0

def writeAll (m : Mem) (cs : List Copy) : Mem := cs.foldl write m

end Copy

structure Proc.Copied (cs : List Copy) (p p' : Proc) : Prop where
  mapped : ∀ k, p'.mapped k = true ↔ p.mapped k = true ∨ ∃ c ∈ cs, c.Needs k
  mem : p'.mem = Copy.writeAll p.mem cs
  present : ∀ c ∈ cs, ∀ i < c.bytes.length, p'.mapped ((c.vaddr + i) / 4096) = true
  vaddrBits : p'.mapped = p.mapped → p'.vaddrBits = p.vaddrBits
  name : p'.name = p.name

namespace Proc.Copied

variable {cs cs' : List Copy}

theorem nil (hmapped : p'.mapped = p.mapped) (hmem : p'.mem = p.mem)
    (hbits : p'.vaddrBits = p.vaddrBits) (hname : p'.name = p.name) : Copied [] p p' where
  mapped k := by simp [hmapped]
  mem := hmem
  present := fun c hc => absurd hc List.not_mem_nil
  vaddrBits _ := hbits
  name := hname

theorem setFs {s : Fs} : Copied [] p { p with fs := s } := nil rfl rfl rfl rfl

theorem trans (h1 : Copied cs p p1) (h2 : Copied cs' p1 p') : Copied (cs ++ cs') p p' where
  mapped k := by
    rw [h2.mapped, h1.mapped, or_assoc]
    simp only [List.mem_append, or_and_right, exists_or]
  mem := by
    rw [h2.mem, h1.mem, Copy.writeAll, Copy.writeAll, Copy.writeAll, List.foldl_append]
  present := by
    intro c hc i hi
    cases List.mem_append.mp hc with
    | inl hc => exact (h2.mapped _).mpr (.inl (h1.present c hc i hi))
    | inr hc => exact h2.present c hc i hi
  vaddrBits := by
    intro hsame
    have hmid : p1.mapped = p.mapped := by
      funext k
      apply Bool.eq_iff_iff.mpr
      constructor
      . intro hk
        rw [← hsame]
        exact (h2.mapped k).mpr (.inl hk)
      . intro hk
        exact (h1.mapped k).mpr (.inl hk)
    rw [h2.vaddrBits (hsame.trans hmid.symm), h1.vaddrBits hmid]
  name := h2.name.trans h1.name

end Proc.Copied

structure Proc.Grows (pages : Nat → Prop) (p p' : Proc) : Prop where
  fs : p'.fs = p.fs
  mem : p'.mem = p.mem
  name : p'.name = p.name
  mapped : ∀ k, p'.mapped k = true ↔ p.mapped k = true ∨ pages k
  vaddrBits : p'.mapped = p.mapped → p'.vaddrBits = p.vaddrBits

theorem Proc.grows_getAPage {vaddrPage : UInt32} {bits : Mem} {frames : Nat}
    (habsent : p.mapped (vaddrPage.toNat / 4096) = false)
    : Proc.Grows (· = vaddrPage.toNat / 4096) p { p with
        mapped := Function.update p.mapped (vaddrPage.toNat / 4096) true
        vaddrBits := bits
        frames := frames } where
  fs := rfl
  mem := rfl
  name := rfl
  mapped k := by
    dsimp only
    rw [Function.update_apply]
    split
    . next h => simp [h]
    . next h => simp [h]
  vaddrBits := by
    intro hsame
    have hpage := congrFun hsame (vaddrPage.toNat / 4096)
    dsimp only at hpage
    rw [Function.update_self, habsent] at hpage
    contradiction

theorem mapPages_run {n : Nat} {vaddrPage : UInt32} {r : Bool × Proc}
    (h : (segmentLoad.mapPages n vaddrPage).run p = .ok r)
    : r.1 = true ∧ p.Grows (fun k => ∃ i < n, k = (vaddrPage.toNat / 4096 + i) % 2 ^ 20) r.2 := by
  induction n generalizing vaddrPage p with
  | zero =>
    rw [segmentLoad.mapPages, Cmd.pure_run] at h
    rw [h]
    refine ⟨rfl, rfl, rfl, rfl, ?_, fun _ => rfl⟩
    intro k
    rw [iff_self_or]
    rintro ⟨i, hi, -⟩
    omega
  | succ n ih =>
    simp only [segmentLoad.mapPages, Cmd.bind_run, Cmd.get_run] at h
    obtain ⟨_, _, h2, h3⟩ := h
    cases h2
    have hlt := vaddrPage.toNat_lt
    have hnext : (vaddrPage + 4096).toNat / 4096 = (vaddrPage.toNat / 4096 + 1) % 2 ^ 20 := by
      rw [UInt32.toNat_add]
      show (vaddrPage.toNat + 4096) % 2 ^ 32 / 4096 = _
      omega
    -- the first page, and then the others
    have hfirst : ∃ p1, p.Grows (· = vaddrPage.toNat / 4096) p1
        ∧ (segmentLoad.mapPages n (vaddrPage + 4096)).run p1 = .ok r := by
      split at h3
      . next habsent =>
        simp only [Cmd.bind_run] at h3
        obtain ⟨ok, p1, h4, h5⟩ := h3
        have hrun := getAPage_run h4
        rw [Prod.mk.injEq] at hrun
        rw [hrun.1] at h5
        refine ⟨p1, ?_, h5⟩
        rw [hrun.2]
        exact Proc.grows_getAPage habsent
      . next hpresent =>
        have hpresent' : p.mapped (vaddrPage.toNat / 4096) = true := by simpa using hpresent
        refine ⟨p, ⟨rfl, rfl, rfl, ?_, fun _ => rfl⟩, h3⟩
        intro k
        rw [iff_self_or]
        rintro rfl
        exact hpresent'
    obtain ⟨p1, hg1, hrest⟩ := hfirst
    obtain ⟨hok, hg2⟩ := ih hrest
    refine ⟨hok, hg2.fs.trans hg1.fs, hg2.mem.trans hg1.mem, hg2.name.trans hg1.name, ?_, ?_⟩
    . intro k
      rw [hg2.mapped, hg1.mapped, hnext, or_assoc]
      apply or_congr_right
      constructor
      . rintro (rfl | ⟨i, hi, rfl⟩)
        . exact ⟨0, Nat.zero_lt_succ n, by omega⟩
        . exact ⟨i + 1, by omega, by omega⟩
      . rintro ⟨i, hi, rfl⟩
        cases i with
        | zero => exact .inl (by omega)
        | succ i => exact .inr ⟨i, by omega, by omega⟩
    . intro hsame
      have hmid : p1.mapped = p.mapped := by
        funext k
        apply Bool.eq_iff_iff.mpr
        constructor
        . intro hk
          rw [← hsame]
          exact (hg2.mapped k).mpr (.inl hk)
        . intro hk
          exact (hg1.mapped k).mpr (.inl hk)
      rw [hg2.vaddrBits (hsame.trans hmid.symm), hg1.vaddrBits hmid]

end Pages

section Plan

def elfHeader (data : List UInt8) : Elf32Ehdr := ⟨fun k => data.getD k 0⟩

end Plan

section Load

variable {p p' : Proc} {pos : Nat}

theorem Proc.onFs_run {α : Type} {x : FsM α} {r : α × Proc}
    : (Proc.onFs x).run p = .ok r ↔ ∃ s', x.run p.fs = .ok (r.1, s') ∧ r.2 = { p with fs := s' } :=
        Cmd.zoom_run

end Load

section Open

variable {p p' : Proc} {path : CStr}

theorem sysOpen_existing {path : CStr} {r : Int × Fs}
    (h : (sysOpen part task junk path 0).run s = .ok r)
    (hr : r.1 ≠ -1) : ∃ n t, FileOpened part task n 0 t r := by
  have hquit : ∀ {t : Fs} {dir : DirRef}, ¬ (do dirClose dir; pure (-1) : FsM Int).run t
      = .ok r := by
    intro t dir hrun
    simp only [Cmd.bind_run, Cmd.pure_run] at hrun
    obtain ⟨_, _, -, h1⟩ := hrun
    rw [h1] at hr
    contradiction
  simp only [sysOpen, Cmd.bind_run, Cmd.assert_run] at h
  obtain ⟨_, _, -, h1⟩ := h
  split at h1
  . rw [Cmd.pure_run] at h1
    rw [h1] at hr
    contradiction
  . simp only [Cmd.bind_run, Cmd.assert_run] at h1
    obtain ⟨_, _, -, _, _, -, ⟨n, rec⟩, _, -, h2⟩ := h1
    dsimp only at h2
    split at h2
    . exact absurd h2 hquit
    . simp only [Cmd.bind_run] at h2
      obtain ⟨_, t, -, h3⟩ := h2
      split at h3
      . exact absurd h3 hquit
      . split at h3
        . exact absurd h3 hquit
        . split at h3
          . exact absurd h3 hquit
          . rw [if_neg (by decide)] at h3
            exact ⟨n, t, fileOpen_run h3⟩

theorem FileOpened.reads {n : UInt32} {t : Fs} {r : Int × Fs} (h : FileOpened part task n 0 t r)
    (hr : r.1 ≠ -1)
    : ∃ (i : Fin 8) (idx : Fin 32), 3 ≤ i.val
        ∧ r = ((i.val : Int), (t.taken part n idx 0).setFd task i idx.val) := by
  cases h with
  | noSlot slot => contradiction
  | denied slot inode write deny => contradiction
  | write slot inode write allow => exact absurd write (by decide)
  | read slot read =>
    rename_i idx
    cases @Fs.installed_cases (t.taken part n idx 0) task idx with
    | inl h =>
      rw [h.2] at hr
      contradiction
    | inr h =>
      obtain ⟨i, hfree, hinst⟩ := h
      refine ⟨i, idx, ?_, hinst⟩
      have hpred := List.find?_some hfree
      simp only [Bool.and_eq_true, decide_eq_true_eq] at hpred
      exact hpred.1

def Fs.HasFile (part : Partition) (task : Nat) (junk : UInt32) (s : Fs) (path : CStr)
    (data : List UInt8) : Prop :=
  ∀ fd s', (sysOpen part task junk path 0).run s = .ok (fd, s') → fd ≠ -1 →
    ∃ (i : Fin 8) (fdIdx : Fin 32) (addr : Nat) (ino : Inode),
      fd = i.val ∧ (s'.tasks task).fdTable i = fdIdx.val ∧ OpenOn part s' fdIdx addr ino data

theorem Fs.HasFile.reads {r : Int × Fs} (hF : s.HasFile part task junk path data)
    (h : (sysOpen part task junk path 0).run s = .ok r) (hr : r.1 ≠ -1)
    : ∃ (i : Fin 8) (idx : Fin 32), r.1 = i.val ∧ r.2.Reads part task i idx data
        ∧ r.2.SeekTo idx data 0 r.2 := by
  obtain ⟨i, fdIdx, addr, ino, hi, hfd, hO⟩ := hF _ _ h hr
  obtain ⟨n, t, hopen⟩ := sysOpen_existing h hr
  obtain ⟨fd, idx, habove, hr'⟩ := hopen.reads hr
  rw [hr'] at hi hfd hO ⊢
  dsimp only at hi hfd hO ⊢
  have hfdi : fd = i := by
    apply Fin.ext
    omega
  subst hfdi
  have hidx : fdIdx = idx := by
    simp only [Fs.setFd, Function.update_self] at hfd
    apply Fin.ext
    omega
  subst hidx
  refine ⟨fd, fdIdx, rfl, ⟨habove, hfd, addr, ino, hO⟩, ⟨_, Fs.seek_self.symm, ?_⟩, Nat.zero_le _⟩
  simp [Fs.setFd, Fs.taken, Fs.setFile]

end Open

section NewFile

end NewFile

end RogOS
