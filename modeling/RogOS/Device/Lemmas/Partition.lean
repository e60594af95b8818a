import RogOS.Device.Impl.Partition
import RogOS.Lib.Cmd
import Mathlib.Data.List.Nodup
import Mathlib.Data.List.Induction
import Mathlib.Tactic.IntervalCases

/-!
What entering a partition does, and how `partition_scan` goes through a table.
-/

namespace RogOS

open Cmd

variable {hd n : Nat} {kind : PartKind} {extLba : UInt32} {p : PartitionTableEntry}
  {ps qs : List PartitionTableEntry} {s s' : Disks}
  {scan : UInt32 → DisksM Unit} {strict : Bool}

namespace PartitionTableEntry

def IsPart (p : PartitionTableEntry) : Prop := p.fsType ≠ 0 ∧ p.fsType ≠ 5

def IsLink (p : PartitionTableEntry) : Prop := p.fsType = 5

instance : DecidablePred IsPart := fun _ => inferInstanceAs (Decidable (_ ∧ _))

instance : DecidablePred IsLink := fun p => inferInstanceAs (Decidable (p.fsType = 5))

end PartitionTableEntry

def tableAt (disk : Mem) (lba : Nat)
    : List PartitionTableEntry := partitionTable ((disk.shift (lba * 512)).clip 512)

def entriesAt (disk : Mem) (lba : Nat)
    : List PartitionTableEntry := (tableAt disk lba).filter (·.fsType ≠ 0)

theorem ideRead_ok {lba : UInt32} (h : lba.toNat ≤ maxLba)
    : (Disks.ideRead hd lba).run s = .ok (((s.hds hd).sectors.shift (lba.toNat * 512)).clip 512,
        s) := by
  rw [Disks.ideRead, exec_assert_bind, if_pos h]
  rfl

namespace partitionScan

theorem add_ok (h : strict → (s.no kind).toNat < kind.len)
    : (add strict hd kind extLba p).run s = .ok ((), added hd kind extLba p s) := by
  rw [add, exec_get_bind, exec_assert_bind, if_pos h, exec_modify]

theorem add_overrun (hstrict : strict) (h : kind.len ≤ (s.no kind).toNat)
    : (add strict hd kind extLba p).run s = .error .overrun := by
  rw [add, exec_get_bind, exec_assert_bind, if_neg fun hfit => Nat.not_lt.mpr h (hfit hstrict)]

theorem entries_filter
    : entries strict scan hd extLba ps = entries strict scan hd extLba
        (ps.filter (·.fsType ≠ 0)) := by
  induction ps with
  | nil => rfl
  | cons p ps ih =>
    rw [List.filter_cons]
    by_cases h0 : p.fsType = 0
    . rw [if_neg (by simpa using h0), entries, if_neg (by rw [h0]; decide),
        if_neg (by simpa using h0)]
      exact ih
    . rw [if_pos (by simpa using h0), entries, entries, ih]

theorem entries_link (h : p.IsLink)
    : entries strict scan hd extLba (p :: ps)
        = (do link scan p; entries strict scan hd extLba ps) := by
  rw [entries, if_pos (show p.fsType = 5 from h)]

theorem entries_prime (h : p.IsPart)
    : entries strict scan hd 0 (p :: ps) = (do
        add strict hd .prime 0 p
        let s ← get
        Cmd.assert .panic (s.no .prime < 4)
        entries strict scan hd 0 ps) := by
  rw [entries, if_neg h.2, if_pos h.1, if_pos rfl]

theorem entries_logic (h : p.IsPart) (hlba : extLba ≠ 0)
    : entries strict scan hd extLba (p :: ps) = (do
        add strict hd .logic extLba p
        let s ← get
        if 8 ≤ s.no .logic then
          pure ()
        else
          entries strict scan hd extLba ps) := by
  rw [entries, if_neg h.2, if_pos h.1, if_neg hlba]

end partitionScan

def Disks.part (s : Disks) (t : PartTag) : HdPart := (s.hds t.hd).parts t.kind t.idx

structure PartRecord where
  kind : PartKind
  startLba : UInt32
  secCnt : UInt32
  deriving DecidableEq, Repr

def Disks.record (s : Disks) (t : PartTag)
    : PartRecord := ⟨t.kind, (s.part t).startLba, (s.part t).secCnt⟩

section Added

variable {t : PartTag} {k : Nat}

open partitionScan

theorem Disks.part_setPart {part : HdPart} {u : PartTag}
    : (s.setPart t part).part u = if u = t then part else s.part u := by
  obtain ⟨hd, kind, idx⟩ := t
  obtain ⟨hd', kind', idx'⟩ := u
  simp only [Disks.part, Disks.setPart, PartTag.mk.injEq]
  by_cases hhd : hd' = hd
  . subst hhd
    rw [Function.update_self]
    by_cases hkind : kind' = kind
    . subst hkind
      dsimp only
      rw [Function.update_self, Function.update_apply]
      by_cases hidx : idx' = idx
      . rw [if_pos hidx, if_pos ⟨rfl, rfl, hidx⟩]
      . rw [if_neg hidx, if_neg fun h => hidx h.2.2]
    . dsimp only
      rw [Function.update_of_ne hkind, if_neg fun h => hkind h.2.1]
  . rw [Function.update_of_ne hhd, if_neg fun h => hhd h.1]

theorem part_added
    : (added hd kind extLba p s).part t = if t = tag hd kind s then part hd kind extLba p s
        else s.part t :=
  Disks.part_setPart

theorem added_sectors : ((added hd kind extLba p s).hds k).sectors = (s.hds k).sectors := by
  simp only [added, Disks.setPart, Function.update_apply]
  split
  . next hk => rw [hk]
  . rfl

theorem added_no {kind' : PartKind}
    : (added hd kind extLba p s).no kind' = if kind' = kind then s.no kind + 1 else s.no kind' := by
  simp only [added, Function.update_apply]

end Added

structure PartFound where
  kind : PartKind
  extLba : UInt32
  entry : PartitionTableEntry

namespace PartFound

def record (f : PartFound) : PartRecord := ⟨f.kind, f.extLba + f.entry.startLba, f.entry.secCnt⟩

end PartFound

def Disks.addAll (hd : Nat) (s : Disks) (l : List PartFound) : Disks :=
  l.foldl (fun s f => partitionScan.added hd f.kind f.extLba f.entry s) s

structure Disks.Entered (hd : Nat) (s : Disks) (l : List PartRecord) (s' : Disks) : Prop where
  tags : ∃ tags, s'.partitionList = s.partitionList ++ tags ∧ tags.Nodup ∧ tags.map s'.record = l
    ∧ ∀ t ∈ tags, t.hd = hd ∧ t.idx < t.kind.len

section AddAll

variable {l : List PartFound} {f : PartFound}

open partitionScan

theorem Disks.addAll_append {l' : List PartFound}
    : s.addAll hd (l ++ l') = (s.addAll hd l).addAll hd l' := List.foldl_append

theorem Disks.addAll_concat
    : s.addAll hd (l ++ [f]) = added hd f.kind f.extLba f.entry (s.addAll hd l) := by
  rw [Disks.addAll_append]
  rfl

theorem addAll_sectors {k : Nat} : ((s.addAll hd l).hds k).sectors = (s.hds k).sectors := by
  induction l using List.reverseRecOn with
  | nil => rfl
  | append_singleton l f ih => rw [Disks.addAll_concat, added_sectors, ih]

theorem addAll_extLbaBase : (s.addAll hd l).extLbaBase = s.extLbaBase := by
  induction l using List.reverseRecOn with
  | nil => rfl
  | append_singleton l f ih =>
    rw [Disks.addAll_concat]
    exact ih

theorem addAll_no (hno : (s.no kind).toNat + l.countP (·.kind = kind) < 256)
    : ((s.addAll hd l).no kind).toNat = (s.no kind).toNat + l.countP (·.kind = kind) := by
  induction l using List.reverseRecOn with
  | nil => rfl
  | append_singleton l f ih =>
    rw [List.countP_append, List.countP_singleton] at hno ⊢
    rw [Disks.addAll_concat, added_no]
    by_cases hkind : f.kind = kind
    . subst hkind
      rw [if_pos (decide_eq_true rfl)] at hno ⊢
      rw [if_pos rfl, UInt8.toNat_add, ih (by omega), UInt8.toNat_one]
      omega
    . rw [decide_eq_false hkind, if_neg Bool.false_ne_true] at hno ⊢
      rw [if_neg fun h => hkind h.symm, ih (by omega), Nat.add_zero]

theorem addAll_entered (hfit : ∀ kind, (s.no kind).toNat + l.countP (·.kind = kind) ≤ kind.len)
    : s.Entered hd (l.map PartFound.record) (s.addAll hd l) := by
  have hstrong : ∃ tags, (s.addAll hd l).partitionList = s.partitionList ++ tags ∧ tags.Nodup
      ∧ tags.map (s.addAll hd l).record = l.map PartFound.record
      ∧ ∀ t ∈ tags, t.hd = hd ∧ t.idx < ((s.addAll hd l).no t.kind).toNat := by
    induction l using List.reverseRecOn with
    | nil => exact ⟨[], (List.append_nil _).symm, List.nodup_nil, rfl, fun t ht =>
        absurd ht List.not_mem_nil⟩
    | append_singleton l f ih =>
      have hlen : ∀ kind : PartKind, kind.len ≤ 8 := by
        intro kind
        cases kind <;> decide
      have hfit' : ∀ kind, (s.no kind).toNat + l.countP (·.kind = kind) ≤ kind.len := by
        intro kind
        have := hfit kind
        rw [List.countP_append] at this
        omega
      obtain ⟨tags, hlist, hnodup, hmap, hidx⟩ := ih hfit'
      rw [Disks.addAll_concat]
      have hno := @addAll_no hd f.kind s l
      have hroom := hfit f.kind
      have hlen' := hlen f.kind
      rw [List.countP_append, List.countP_singleton, if_pos (by simp)] at hroom
      have hno := hno (by omega)
      generalize s.addAll hd l = u at hlist hmap hidx hno ⊢
      have hsucc : (u.no f.kind + 1).toNat = (u.no f.kind).toNat + 1 := by
        rw [UInt8.toNat_add, UInt8.toNat_one]
        omega
      have hnew : ∀ t ∈ tags, t ≠ tag hd f.kind u := by
        rintro t ht rfl
        exact Nat.lt_irrefl _ (hidx _ ht).2
      refine ⟨tags ++ [tag hd f.kind u], ?_, ?_, ?_, ?_⟩
      . show u.partitionList ++ _ = _
        rw [hlist, List.append_assoc]
      . rw [List.nodup_append]
        exact ⟨hnodup, List.nodup_singleton _, fun t ht t' ht' => by
          rw [List.mem_singleton.mp ht']; exact hnew t ht⟩
      . rw [List.map_append, List.map_append, ← hmap]
        congr 1
        . apply List.map_congr_left
          intro t ht
          rw [Disks.record, Disks.record, part_added, if_neg (hnew t ht)]
        . rw [List.map_singleton, List.map_singleton, Disks.record, part_added, if_pos rfl]
          rfl
      . intro t ht
        rw [List.mem_append, List.mem_singleton] at ht
        rw [added_no]
        cases ht with
        | inl ht =>
          obtain ⟨h1, h2⟩ := hidx t ht
          refine ⟨h1, ?_⟩
          split
          . next hkind =>
            rw [hsucc, ← hkind]
            omega
          . exact h2
        | inr ht =>
          rw [ht]
          refine ⟨rfl, ?_⟩
          rw [if_pos (show (tag hd f.kind u).kind = f.kind from rfl), hsucc]
          exact Nat.lt_succ_self _
  obtain ⟨tags, hlist, hnodup, hmap, hidx⟩ := hstrong
  refine ⟨tags, hlist, hnodup, hmap, ?_⟩
  intro t ht
  obtain ⟨h1, h2⟩ := hidx t ht
  have hlen : t.kind.len ≤ 8 := by cases t.kind <;> decide
  have h3 := hfit t.kind
  rw [addAll_no (by omega)] at h2
  exact ⟨h1, by omega⟩

end AddAll

section DiskOf

def tableSector (l : List PartitionTableEntry) : Mem := fun i =>
  match l[(i - 446) / 16]? with
  | none => 0
  | some p =>
    let k := (i - 446) % 16
    if i < 446 then 0
    else if k = 4 then p.fsType
    else if 8 ≤ k ∧ k < 12 then Mem.ofWord p.startLba (k - 8)
    else if 12 ≤ k then Mem.ofWord p.secCnt (k - 12)
    else 0

def diskOf (tables : List (Nat × List PartitionTableEntry)) : Mem := fun i =>
  tableSector ((tables.lookup (i / 512)).getD []) (i % 512)

def PartitionTableEntry.empty : PartitionTableEntry := ⟨0, 0, 0⟩

theorem at_tableSector {l : List PartitionTableEntry} {k : Nat} (hk : k < 4)
    : PartitionTableEntry.at (tableSector l) k = l.getD k .empty := by
  have hat : ∀ j < 16, (446 + k * 16 + j - 446) / 16 = k ∧ (446 + k * 16 + j - 446) % 16 = j := by
    intro j hj
    omega
  have hbyte : ∀ j < 16, tableSector l (446 + k * 16 + j)
      = match l[k]? with
        | none => 0
        | some p =>
          if j = 4 then p.fsType
          else if 8 ≤ j ∧ j < 12 then Mem.ofWord p.startLba (j - 8)
          else if 12 ≤ j then Mem.ofWord p.secCnt (j - 12)
          else 0 := by
    intro j hj
    obtain ⟨h1, h2⟩ := hat j hj
    simp only [tableSector, h1, h2]
    cases l[k]? with
    | none => rfl
    | some p =>
      dsimp only
      rw [if_neg (by omega)]
  rw [List.getD_eq_getElem?_getD]
  unfold PartitionTableEntry.at
  cases hl : l[k]? with
  | none =>
    simp only [hl] at hbyte
    rw [hbyte 4 (by omega), Mem.word_eq_of_bytes (v := 0), Mem.word_eq_of_bytes (v := 0)]
    . rfl
    . intro i hi
      rw [Nat.add_assoc, hbyte (12 + i) (by omega)]
      interval_cases i <;> rfl
    . intro i hi
      rw [Nat.add_assoc, hbyte (8 + i) (by omega)]
      interval_cases i <;> rfl
  | some p =>
    simp only [hl] at hbyte
    rw [hbyte 4 (by omega), if_pos rfl, Mem.word_eq_of_bytes (v := p.startLba),
      Mem.word_eq_of_bytes (v := p.secCnt)]
    . rfl
    . intro i hi
      rw [Nat.add_assoc, hbyte (12 + i) (by omega), if_neg (by omega), if_neg (by omega),
        if_pos (by omega)]
      congr 1
      omega
    . intro i hi
      rw [Nat.add_assoc, hbyte (8 + i) (by omega), if_neg (by omega), if_pos (by omega)]
      congr 1
      omega

theorem tableAt_diskOf {tables : List (Nat × List PartitionTableEntry)} {lba : Nat}
    : tableAt (diskOf tables) lba = (List.range 4).map fun k =>
        ((tables.lookup lba).getD []).getD k .empty := by
  have hsector : ((diskOf tables).shift (lba * 512)).clip 512
      = (tableSector ((tables.lookup lba).getD [])).clip 512 := by
    apply Mem.clip_congr
    intro i hi
    have h1 : (lba * 512 + i) / 512 = lba := by omega
    have h2 : (lba * 512 + i) % 512 = i := by omega
    rw [Mem.shift_apply, diskOf, h1, h2]
  rw [tableAt, hsector, partitionTable]
  apply List.map_congr_left
  intro k hk
  rw [List.mem_range] at hk
  rw [← at_tableSector hk]
  unfold PartitionTableEntry.at
  rw [Mem.clip_of_lt (by omega), Mem.word_clip (by omega), Mem.word_clip (by omega)]

theorem entriesAt_diskOf {tables : List (Nat × List PartitionTableEntry)} {lba : Nat}
    : entriesAt (diskOf tables) lba
        =
      ((List.range 4).map fun k => ((tables.lookup lba).getD []).getD k .empty).filter
        (·.fsType ≠ 0) := by
  rw [entriesAt, tableAt_diskOf]

end DiskOf

open partitionScan

theorem calls_le_maxLba {r : Unit × Disks} (h : (calls strict hd n extLba).run s = .ok r)
    : extLba.toNat ≤ maxLba := by
  cases n with
  | zero => exact absurd h throw_run
  | succ n =>
    simp only [calls, Disks.ideRead, bind_run, assert_run] at h
    obtain ⟨_, _, ⟨_, _, ⟨hle, -⟩, -⟩, -⟩ := h
    exact hle

theorem calls_succ (h : extLba.toNat ≤ maxLba)
    : (calls strict hd (n + 1) extLba).run s
        =
      (entries strict (calls strict hd n) hd extLba (entriesAt (s.hds hd).sectors extLba.toNat)).run
        s := by
  rw [calls, exec_bind (ideRead_ok h), entriesAt, ← entries_filter]
  rfl

section Stable

variable {P : Disks → Prop}

theorem entries_stable (hadded : ∀ kind extLba p s, P s → P (added hd kind extLba p s))
    (hbase : ∀ b s, P s → s.extLbaBase = 0 → P { s with extLbaBase := b })
    (hscan : ∀ lba, Stable P (scan lba))
    : Stable P (entries strict scan hd extLba ps) := by
  have hadd : ∀ kind p, Stable P (add strict hd kind extLba p) := by
    intro kind p
    refine stable_bind stable_get fun s => ?_
    exact stable_bind stable_assert fun _ => stable_modify fun s => hadded kind extLba p s
  have hlink : ∀ p, Stable P (link scan p) := by
    intro p s r hs hr
    rw [link, exec_get_bind] at hr
    split at hr
    . exact hscan _ _ _ hs hr
    . next h => exact hscan _ _ _ (hbase _ s hs (by simpa using h)) hr
  induction ps with
  | nil => exact stable_pure
  | cons p ps ih =>
    rw [entries]
    split
    . exact stable_bind (hlink p) fun _ => ih
    . split
      . split
        . refine stable_bind (hadd _ p) fun _ => ?_
          refine stable_bind stable_get fun s => ?_
          exact stable_bind stable_assert fun _ => ih
        . refine stable_bind (hadd _ p) fun _ => ?_
          refine stable_bind stable_get fun s => ?_
          split
          . exact stable_pure
          . exact ih
      . exact ih

theorem calls_stable (hadded : ∀ kind extLba p s, P s → P (added hd kind extLba p s))
    (hbase : ∀ b s, P s → s.extLbaBase = 0 → P { s with extLbaBase := b })
    : Stable P (calls strict hd n extLba) := by
  induction n generalizing extLba with
  | zero => exact stable_throw
  | succ n ih =>
    rw [calls]
    apply stable_bind
    . rw [Disks.ideRead]
      refine stable_bind stable_assert fun _ => ?_
      refine stable_bind stable_get fun s => ?_
      exact stable_pure
    . intro bs
      exact entries_stable hadded hbase fun lba => ih

theorem calls_sectors {k : Nat} {r : Unit × Disks} (h : (calls strict hd n extLba).run s = .ok r)
    : (r.2.hds k).sectors = (s.hds k).sectors := by
  refine calls_stable (P := fun t => (t.hds k).sectors = (s.hds k).sectors) ?_ ?_ s r rfl h
  . intro kind extLba p t ht
    rw [added_sectors, ht]
  . exact fun _ _ ht _ => ht

theorem calls_base {r : Unit × Disks} (h : (calls strict hd n extLba).run s = .ok r)
    (hbase : s.extLbaBase ≠ 0)
    : r.2.extLbaBase = s.extLbaBase := by
  refine calls_stable (P := fun t => t.extLbaBase = s.extLbaBase) ?_ ?_ s r rfl h
  . exact fun _ _ _ _ ht => ht
  . intro b t ht h0
    exact absurd (ht.symm.trans h0) hbase

end Stable

end RogOS
