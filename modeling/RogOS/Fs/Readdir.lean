import RogOS.Fs.Deletion

/-!
Listing a directory with `sys_rewinddir` and `sys_readdir`.
-/

namespace RogOS

variable {part : Partition} {v : Vol} {ino : Inode} {dirPos iSize cur : UInt32}

section Slots

variable {buf : Mem} {n i c j : Nat}

def liveSlots (buf : Mem) (n i : Nat) : List Nat :=
  (List.range' i n).filter fun k => (DirEntry.at buf k).fType != FileType.unknown.code

theorem liveSlots_succ
    : liveSlots buf (n + 1) i
        =
      if (DirEntry.at buf i).fType ≠ FileType.unknown.code then i :: liveSlots buf n (i + 1)
      else liveSlots buf n (i + 1) := by
  rw [liveSlots, List.range'_succ, List.filter_cons]
  simp only [bne_iff_ne]
  rfl

theorem dirRead.slots_some {σ : Type} {s : σ} (hcur : cur.toNat = 24 * c)
    (hpos : dirPos.toNat = 24 * j) (hcj : c ≤ j) {k : Nat}
    (hk : (liveSlots buf n i)[j - c]? = some k)
    : (slots part dirPos buf n i cur).run s = .ok ((some k, dirPos), s) := by
  induction n generalizing i c cur with
  | zero => contradiction
  | succ n ih =>
    rw [liveSlots_succ] at hk
    unfold slots
    split at hk
    . next hlive =>
      rw [if_pos hlive]
      by_cases hlt : c < j
      . have hless : cur < dirPos := UInt32.lt_iff_toNat_lt.mpr (by omega)
        rw [if_pos hless, Partition.dirEntrySize_eq]
        rw [show j - c = j - (c + 1) + 1 by omega, List.getElem?_cons_succ] at hk
        refine ih ?_ (by omega) hk
        have c24 : (24 : UInt32).toNat = 24 := rfl
        have := dirPos.toNat_lt
        rw [UInt32.toNat_add]
        omega
      . have heq : cur = dirPos := UInt32.toNat_inj.mp (by omega)
        have hless : ¬ cur < dirPos := by
          rw [heq]
          exact UInt32.lt_irrefl _
        rw [show j - c = 0 by omega, List.getElem?_cons_zero, Option.some.injEq] at hk
        rw [if_neg hless, Cmd.exec_assert_bind, if_pos heq, hk, heq]
        rfl
    . next hfree =>
      rw [if_neg hfree]
      exact ih hcur hcj hk

theorem dirRead.slots_none {σ : Type} {s : σ} (hcur : cur.toNat = 24 * c)
    (hpos : dirPos.toNat = 24 * j) (hlen : c + (liveSlots buf n i).length ≤ j)
    : ∃ cur', (slots part dirPos buf n i cur).run s = .ok ((none, cur'), s)
        ∧ cur'.toNat = 24 * (c + (liveSlots buf n i).length) := by
  induction n generalizing i c cur with
  | zero => exact ⟨cur, rfl, hcur⟩
  | succ n ih =>
    rw [liveSlots_succ] at hlen ⊢
    unfold slots
    split at hlen
    . next hlive =>
      rw [List.length_cons] at hlen
      have hless : cur < dirPos := UInt32.lt_iff_toNat_lt.mpr (by omega)
      have hnext : (cur + part.sb.dirEntrySize).toNat = 24 * (c + 1) := by
        have c24 : (24 : UInt32).toNat = 24 := rfl
        have := dirPos.toNat_lt
        rw [Partition.dirEntrySize_eq, UInt32.toNat_add]
        omega
      obtain ⟨cur', hrun, hcur'⟩ := ih (i := i + 1) hnext (by omega)
      rw [if_pos hlive, if_pos hless, if_pos hlive]
      refine ⟨cur', hrun, ?_⟩
      rw [hcur', List.length_cons]
      omega
    . next hfree =>
      rw [if_neg hfree, if_neg hfree]
      exact ih hcur hlen

end Slots

section Blocks

variable {a : Image} {n i c j : Nat}

def Image.entriesFrom (a : Image) (ino : Inode) (n i : Nat) : List DirEntry :=
  (List.range' i n).flatMap fun j =>
    if a.block ino j = 0 then [] else (liveSlots (a.blockSec ino j) 21 0).map (a.entry ino j)

def Image.entries (a : Image) (ino : Inode) : List DirEntry := a.entriesFrom ino 140 0

theorem Image.entriesFrom_succ
    : a.entriesFrom ino (n + 1) i
        =
      (if a.block ino i = 0 then [] else (liveSlots (a.blockSec ino i) 21 0).map (a.entry ino i))
        ++ a.entriesFrom ino n (i + 1) := by
  rw [entriesFrom, List.range'_succ, List.flatMap_cons]
  rfl

theorem Image.entriesFrom_eq_nil (h : ∀ j, i ≤ j → j < i + n → a.block ino j = 0)
    : a.entriesFrom ino n i = [] := by
  rw [entriesFrom, List.flatMap_eq_nil_iff]
  intro j hj
  rw [List.mem_range'_1] at hj
  rw [if_pos (h j hj.1 hj.2)]

theorem Image.entries_eq
    : a.entries ino = a.entriesFrom ino (if ino.sector 12 ≠ 0 then 140 else 12) 0 := by
  split
  . rfl
  . next h12 =>
    have hnil : a.entriesFrom ino 128 12 = [] := by
      apply entriesFrom_eq_nil
      intro j hj _
      rw [block_of_ge hj, if_neg h12]
    have hsplit : a.entriesFrom ino 140 0 = a.entriesFrom ino 12 0 ++ a.entriesFrom ino 128 12 := by
      rw [entriesFrom, entriesFrom, entriesFrom, ← List.flatMap_append, List.range'_append_1]
    rw [entries, hsplit, hnil, List.append_nil]

theorem dirRead.go_run (hino : (v.image part).InBlocks part ino) (hn : i + n ≤ 140)
    (hcur : cur.toNat = 24 * c) (hpos : dirPos.toNat = 24 * j) (hcj : c ≤ j) (hlt : dirPos < iSize)
    : (go part dirPos iSize ((v.image part).block ino) n i cur).run v
        =
      .ok (((v.image part).entriesFrom ino n i)[j - c]?, v) := by
  induction n generalizing i c cur with
  | zero => rfl
  | succ n ih =>
    have hle : ¬ iSize ≤ dirPos := UInt32.not_le.mpr hlt
    unfold go
    rw [if_neg hle, Image.entriesFrom_succ]
    split
    . rw [List.nil_append]
      exact ih (by omega) hcur hcj
    . next h0 =>
      rw [Cmd.exec_bind (ideRead_block (hino.block i (by omega) h0)), Partition.entriesPerSec_eq]
      have hlen :
          ((liveSlots ((v.image part).blockSec ino i) 21 0).map ((v.image part).entry ino i)).length
          = (liveSlots ((v.image part).blockSec ino i) 21 0).length := List.length_map ..
      by_cases hk : c + (liveSlots ((v.image part).blockSec ino i) 21 0).length ≤ j
      . obtain ⟨cur', hrun, hcur'⟩ :=
          @slots_none part dirPos cur ((v.image part).blockSec ino i) 21 0 c j Vol v hcur hpos hk
        rw [Image.blockSec] at hrun
        rw [Cmd.exec_bind hrun, List.getElem?_append_right (by omega), hlen]
        dsimp only
        rw [ih (by omega) hcur' hk, Nat.sub_sub]
      . obtain ⟨k, hget⟩ : ∃ k, (liveSlots ((v.image part).blockSec ino i) 21 0)[j - c]? = some k :=
          ⟨_, List.getElem?_eq_getElem (by omega)⟩
        have hrun :=
          @slots_some part dirPos cur ((v.image part).blockSec ino i) 21 0 c j Vol v hcur hpos hcj k
            hget
        rw [Image.blockSec] at hrun
        rw [Cmd.exec_bind hrun, List.getElem?_append_left (by omega), List.getElem?_map, hget]
        rfl

theorem dirRead_run (hino : (v.image part).InBlocks part ino)
    (hsize : ino.iSize.toNat = 24 * ((v.image part).entries ino).length)
    (hpos : dirPos.toNat = 24 * min j ((v.image part).entries ino).length)
    : ∃ dirPos', (dirRead part ino dirPos).run v = .ok ((((v.image part).entries ino)[j]?, dirPos'),
        v)
        ∧ dirPos'.toNat = 24 * min (j + 1) ((v.image part).entries ino).length := by
  have hcollect := @allBlocks_run part v ino hino.table
  by_cases hlt : j < ((v.image part).entries ino).length
  . rw [Nat.min_eq_left (by omega)] at hpos
    have hless : dirPos < ino.iSize := UInt32.lt_iff_toNat_lt.mpr (by omega)
    have hgo : (dirRead.go part dirPos ino.iSize ((v.image part).block ino)
        (if ino.sector 12 ≠ 0 then 140 else 12) 0 0).run v
          = .ok (((v.image part).entries ino)[j]?, v) := by
      rw [Image.entries_eq]
      apply dirRead.go_run (c := 0) hino _ rfl hpos (Nat.zero_le _) hless
      split <;> omega
    rw [dirRead, Cmd.exec_bind hcollect, Cmd.exec_bind hgo, List.getElem?_eq_getElem hlt,
      Partition.dirEntrySize_eq]
    refine ⟨dirPos + 24, rfl, ?_⟩
    have c24 : (24 : UInt32).toNat = 24 := rfl
    have := ino.iSize.toNat_lt
    rw [UInt32.toNat_add]
    omega
  . have hless : ino.iSize ≤ dirPos := UInt32.le_iff_toNat_le.mpr (by omega)
    have hgo : ∀ n > 0, (dirRead.go part dirPos ino.iSize ((v.image part).block ino) n 0 0).run v
        = .ok (none, v) := by
      intro n hn
      cases n with
      | zero => contradiction
      | succ n =>
        rw [dirRead.go, if_pos hless]
        rfl
    have hcnt : (if ino.sector 12 ≠ 0 then 140 else 12) > 0 := by
      split <;> omega
    rw [dirRead, Cmd.exec_bind hcollect, Cmd.exec_bind (hgo _ hcnt),
      List.getElem?_eq_none (by omega)]
    exact ⟨dirPos, rfl, by omega⟩

end Blocks

section Calls

variable {s : Fs} {dir : Dir}

def readdirs (part : Partition) : (n : Nat) → Dir → FsM (List (Option DirEntry) × Dir)
  | 0, dir => pure ([], dir)
  | n + 1, dir => do
    let (e, dir) ← sysReaddir part dir
    let (es, dir) ← readdirs part n dir
    pure (e :: es, dir)

theorem sysReaddir_run {e : Option DirEntry} {dirPos' : UInt32}
    (hdir : s.inode? dir.inode = some ino)
    (hread : (dirRead part ino dir.dirPos).run s.vol = .ok ((e, dirPos'), s.vol))
    : (sysReaddir part dir).run s = .ok ((e, { dir with dirPos := dirPos' }), s) := by
  have hderef : (derefInode dir.inode).run s = .ok (ino, s) := by
    rw [derefInode, Cmd.exec_get_bind, hdir]
    rfl
  rw [sysReaddir, Cmd.exec_bind hderef, onVol, Cmd.exec_bind (Cmd.exec_zoom hread)]
  rfl

theorem readdirs_run {n j : Nat} (hdir : s.inode? dir.inode = some ino)
    (hino : (s.vol.image part).InBlocks part ino)
    (hsize : ino.iSize.toNat = 24 * ((s.vol.image part).entries ino).length)
    (hpos : dir.dirPos.toNat = 24 * min j ((s.vol.image part).entries ino).length)
    : ∃ dir', (readdirs part n dir).run s
        = .ok (((List.range' j n).map fun i => ((s.vol.image part).entries ino)[i]?, dir'), s) := by
  induction n generalizing j dir with
  | zero => exact ⟨dir, rfl⟩
  | succ n ih =>
    obtain ⟨dirPos', hread, hpos'⟩ := dirRead_run hino hsize hpos
    obtain ⟨dir', hrun⟩ := @ih { dir with dirPos := dirPos' } (j + 1) hdir hpos'
    rw [readdirs, Cmd.exec_bind (sysReaddir_run hdir hread)]
    dsimp only
    rw [Cmd.exec_bind hrun, List.range'_succ, List.map_cons]
    exact ⟨dir', rfl⟩

/--
After `sys_rewinddir` the calls of `sys_readdir` return the entries in use one after the other, and
then `NULL`.
-/
theorem readdirs_enumerates (hdir : s.inode? dir.inode = some ino)
    (hino : (s.vol.image part).InBlocks part ino)
    (hsize : ino.iSize.toNat = part.sb.dirEntrySize.toNat * ((s.vol.image part).entries ino).length)
    (n : Nat)
    : ∃ dir', (readdirs part n (sysRewinddir dir)).run s
        = .ok (((List.range n).map fun i => ((s.vol.image part).entries ino)[i]?, dir'), s) := by
  rw [Partition.dirEntrySize_eq] at hsize
  have hpos : (sysRewinddir dir).dirPos.toNat
      = 24 * min 0 ((s.vol.image part).entries ino).length := by
    rw [Nat.zero_min]
    rfl
  rw [List.range_eq_range']
  exact readdirs_run hdir hino hsize hpos

theorem readdirs_enumerates_lone
    : ∃ dir', (readdirs smallPartition 254 (sysRewinddir ⟨1, 48⟩)).run
        { smallFs with vol := loneVol, openInodes := [(1, loneInode)] }
          = .ok (((List.range 254).map fun i =>
              ((loneVol.image smallPartition).entries loneInode)[i]?, dir'),
              { smallFs with vol := loneVol, openInodes := [(1, loneInode)] }) := by
  have hlen : ((loneVol.image smallPartition).entries loneInode).length = 253 := by decide +kernel
  apply readdirs_enumerates rfl loneInode_owns.inBlocks
  rw [hlen]
  rfl

end Calls

end RogOS
