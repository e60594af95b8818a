import RogOS.Device.PartitionWalk
import RogOS.Lib.Related

/-!
What `ide_init` records for a disk, and how it depends on the disks that were searched before.
-/

namespace RogOS

open Cmd

variable {hd n fuel : Nat} {extLba : UInt32} {ps : List PartitionTableEntry} {s s' t : Disks}
  {pre : List Nat}
  {disks disks' : Nat → Mem} {scan : UInt32 → DisksM Unit} {strict : Bool}

section Init

theorem ideInit_channels_run {k : Nat} (hfit : n + k ≤ 2)
    : (ideInit.channels fuel n k).run s
        = (ideInit.disks fuel (List.range' (2 * k) (2 * n))).run s := by
  have happend : ∀ l l' s, (ideInit.disks fuel (l ++ l')).run s
      = (do ideInit.disks fuel l; ideInit.disks fuel l' : DisksM Unit).run s := by
    intro l l'
    induction l with
    | nil => exact fun _ => rfl
    | cons hd l ih =>
      intro s
      rw [List.cons_append, ideInit.disks, ideInit.disks, bind_assoc, StateT.run_bind,
        StateT.run_bind]
      congr 1
      funext r
      exact ih r.2
  induction n generalizing k s with
  | zero => rfl
  | succ n ih =>
    rw [ideInit.channels, exec_assert_bind, if_pos (by omega), show 2 * (n + 1) = 2 + 2 * n by
      omega, ← List.range'_append_1 (s := 2 * k), happend, StateT.run_bind, StateT.run_bind]
    congr 1
    funext r
    exact ih (by omega)

theorem ideInit_run {hdCnt : UInt8} (hpos : 0 < hdCnt) (hfit : hdCnt ≤ 4)
    : (ideInit fuel hdCnt).run s
        =
      (ideInit.disks fuel (List.range' 0 (2 * ((hdCnt.toNat + 1) / 2)))).run { s with
        partitionList := [] } := by
  rw [UInt8.le_iff_toNat_le, show (4 : UInt8).toNat = 4 from rfl] at hfit
  rw [ideInit, exec_assert_bind, if_pos hpos, exec_modify_bind, ideInit_channels_run (by omega)]

end Init

section Related

open partitionScan

structure Alike (P : Nat → Prop) (l l' : List PartTag) (s s' : Disks) : Prop where
  hds : ∀ k, P k → s.hds k = s'.hds k
  base : s.extLbaBase = s'.extLbaBase
  no : s.no = s'.no
  tags : ∃ tags, s.partitionList = l ++ tags ∧ s'.partitionList = l' ++ tags ∧ ∀ t ∈ tags, P t.hd

variable {P : Nat → Prop} {l l' : List PartTag} {kind : PartKind} {p : PartitionTableEntry}

theorem Alike.setBase (h : Alike P l l' s s') {b : UInt32}
    : Alike P l l' { s with extLbaBase := b } { s' with extLbaBase := b } :=
  ⟨h.hds, rfl, h.no, h.tags⟩

theorem Alike.added (h : Alike P l l' s s') (hhd : P hd)
    : Alike P l l' (added hd kind extLba p s) (added hd kind extLba p s') := by
  have htag : tag hd kind s = tag hd kind s' := by rw [tag, tag, h.no]
  have hpart : part hd kind extLba p s = part hd kind extLba p s' := by
    rw [part, part, h.no, h.hds hd hhd]
  refine ⟨?_, h.base, ?_, ?_⟩
  . intro k hk
    simp only [partitionScan.added, Disks.setPart, htag, hpart, Function.update_apply]
    split
    . next heq => rw [heq] at hk; rw [h.hds _ hk]
    . exact h.hds k hk
  . simp only [partitionScan.added, h.no]
  . obtain ⟨tags, h1, h2, h3⟩ := h.tags
    refine ⟨tags ++ [tag hd kind s], ?_, ?_, ?_⟩
    . rw [partitionScan.added, h1, List.append_assoc]
    . rw [partitionScan.added, h2, htag, List.append_assoc]
    . intro t ht
      cases List.mem_append.mp ht with
      | inl ht => exact h3 t ht
      | inr ht => rwa [List.mem_singleton.mp ht]

theorem related_entries (hhd : P hd) (hscan : ∀ lba, Related (Alike P l l') (scan lba) (scan lba))
    : Related (Alike P l l') (entries strict scan hd extLba ps)
        (entries strict scan hd extLba ps) := by
  have hadd : ∀ kind p, Related (Alike P l l') (add strict hd kind extLba p)
      (add strict hd kind extLba p) := by
    intro kind p
    apply related_get_bind
    intro s s' h
    rw [h.no]
    exact related_bind related_assert (fun _ => related_modify fun s s' h => h.added hhd) s s' h
  have hlink : ∀ p, Related (Alike P l l') (link scan p) (link scan p) := by
    intro p
    apply related_get_bind
    intro s s' h
    rw [h.base]
    split
    . exact hscan _ s s' h
    . exact related_bind (related_modify fun s s' h => h.setBase) (fun _ => hscan _) s s' h
  induction ps with
  | nil => exact related_pure
  | cons p ps ih =>
    rw [entries]
    split
    . exact related_bind (hlink p) fun _ => ih
    . split
      . split
        . refine related_bind (hadd _ p) fun _ => ?_
          apply related_get_bind
          intro s s' h
          rw [h.no]
          exact related_bind related_assert (fun _ => ih) s s' h
        . refine related_bind (hadd _ p) fun _ => ?_
          apply related_get_bind
          intro s s' h
          rw [h.no]
          split
          . exact .ok h
          . exact ih s s' h
      . exact ih

theorem related_scan (hhd : P hd)
    : Related (Alike P l l') (calls strict hd n extLba) (calls strict hd n extLba) := by
  induction n generalizing extLba with
  | zero => exact related_throw
  | succ n ih =>
    rw [calls]
    apply related_bind
    . refine related_bind related_assert fun _ => ?_
      apply related_get_bind
      intro s s' h
      rw [h.hds hd hhd]
      exact .ok h
    . intro bs
      exact related_entries hhd fun lba => ih

theorem related_disk (hhd : P hd)
    : Related (Alike P l l') (ideInit.disk fuel hd) (ideInit.disk fuel hd) := by
  apply related_bind
  . apply related_modify
    intro s s' h
    refine ⟨?_, h.base, h.no, h.tags⟩
    intro k hk
    simp only [Function.update_apply]
    split
    . rw [h.hds hd hhd]
    . exact h.hds k hk
  . intro _
    split
    . apply related_bind (related_scan hhd)
      intro _
      apply related_modify
      intro s s' h
      exact ⟨h.hds, h.base, rfl, h.tags⟩
    . apply related_modify
      intro s s' h
      exact ⟨h.hds, h.base, rfl, h.tags⟩

theorem related_disks (hpre : ∀ k ∈ pre, P k)
    : Related (Alike P l l') (ideInit.disks fuel pre) (ideInit.disks fuel pre) := by
  induction pre with
  | nil => exact related_pure
  | cons k pre ih =>
    rw [ideInit.disks]
    apply related_bind (related_disk (hpre k List.mem_cons_self))
    intro _
    exact ih fun j hj => hpre j (List.mem_cons_of_mem _ hj)

end Related

section Visited

open partitionScan

variable {disk : Mem} {r : Unit × Disks}

def extStart (disk : Mem) : UInt32 := (((tableAt disk 0).find? (·.IsLink)).map (·.startLba)).getD 0

def extBaseOf (disks : Nat → Mem) : List Nat → UInt32
  | [] => 0
  | hd :: hds => if hd % 2 ≠ 0 ∧ extStart (disks hd) ≠ 0 then extStart (disks hd)
      else extBaseOf disks hds

theorem entries_base (h : (entries strict (calls strict hd n) hd extLba ps).run s = .ok r)
    (hbase : s.extLbaBase ≠ 0)
    : r.2.extLbaBase = s.extLbaBase := by
  have hbase' : ∀ (b : UInt32) (t : Disks), t.extLbaBase = s.extLbaBase → t.extLbaBase = 0
      → b = s.extLbaBase := by
    intro b t ht h0
    exact absurd (ht.symm.trans h0) hbase
  refine entries_stable (P := fun t => t.extLbaBase = s.extLbaBase) ?_ hbase' ?_ s r rfl h
  . exact fun _ _ _ _ ht => ht
  . intro lba
    exact calls_stable (fun _ _ _ _ ht => ht) hbase'

theorem calls_extStart (h : (calls strict hd n 0).run s = .ok r) (hbase : s.extLbaBase = 0)
    : r.2.extLbaBase = extStart (s.hds hd).sectors
        ∧ ∀ p, (tableAt (s.hds hd).sectors 0).find? (·.IsLink) = some p → p.startLba ≠ 0 := by
  induction n generalizing s r with
  | zero => exact absurd h throw_run
  | succ n ih =>
    rw [calls_run (Nat.zero_le _)] at h
    generalize hdisk : (s.hds hd).sectors = disk at *
    have hentries : ∀ ps s, s.extLbaBase = 0 → (s.hds hd).sectors = disk
        → ps.find? (·.IsLink) = (tableAt disk 0).find? (·.IsLink)
            → (entries strict (calls strict hd n) hd 0 ps).run s = .ok r
        → r.2.extLbaBase = extStart disk ∧ ∀ p, (tableAt disk 0).find? (·.IsLink) = some p
            → p.startLba ≠ 0 := by
      intro ps
      induction ps with
      | nil =>
        intro s hbase _ hfind h
        rw [entries, pure_run] at h
        rw [extStart, ← hfind, h]
        refine ⟨hbase, ?_⟩
        intro p hp
        contradiction
      | cons p ps ihps =>
        intro s hbase hdisk hfind h
        by_cases hlink : p.IsLink
        . rw [List.find?_cons_of_pos (by simpa using hlink)] at hfind
          rw [entries_link hlink, bind_run] at h
          obtain ⟨_, t, hscan, hrest⟩ := h
          rw [link_run, hbase, Walk.target, Walk.newBase, if_neg (by simp),
            if_neg (by simp)] at hscan
          have hstart : p.startLba ≠ 0 := by
            intro h0
            rw [h0] at hscan
            have hcircle := (ih hscan rfl).2
            dsimp only at hcircle
            rw [hdisk] at hcircle
            exact hcircle p hfind.symm h0
          have ht : t.extLbaBase = p.startLba := calls_base hscan hstart
          rw [extStart, ← hfind]
          refine ⟨?_, ?_⟩
          . rw [entries_base hrest (by rw [ht]; exact hstart), ht]
            rfl
          . intro q hq
            rw [← Option.some.inj hq]
            exact hstart
        . rw [List.find?_cons_of_neg (by simpa using hlink)] at hfind
          by_cases hempty : p.fsType = 0
          . rw [entries, if_neg (show ¬ p.fsType = 5 from hlink),
              if_neg (by simpa using hempty)] at h
            exact ihps s hbase hdisk hfind h
          . rw [entries_prime ⟨hempty, hlink⟩] at h
            by_cases hfit : strict → (s.no .prime).toNat < PartKind.prime.len
            . rw [exec_bind (add_ok hfit), exec_get_bind, exec_assert_bind] at h
              split at h
              . exact ihps (added hd .prime 0 p s) hbase (added_sectors.trans hdisk) hfind h
              . contradiction
            . obtain ⟨hstrict, hfull⟩ := Classical.not_imp.mp hfit
              rw [StateT.run_bind, add_overrun hstrict (Nat.le_of_not_lt hfull)] at h
              contradiction
    exact hentries _ s hbase hdisk rfl h

structure Visited (hds : List Nat) (s t : Disks) : Prop where
  base : t.extLbaBase = if s.extLbaBase ≠ 0 then s.extLbaBase
    else extBaseOf (fun k => (s.hds k).sectors) hds
  sectors : ∀ k, (t.hds k).sectors = (s.hds k).sectors
  others : ∀ k, k ∉ hds → t.hds k = s.hds k
  no : (s.no = fun _ => 0) → t.no = fun _ => 0

theorem calls_others {k : Nat} (h : (calls strict hd n extLba).run s = .ok r) (hk : k ≠ hd)
    : r.2.hds k = s.hds k := by
  refine calls_stable (P := fun t => t.hds k = s.hds k) ?_ ?_ s r rfl h
  . intro kind extLba p t ht
    rw [partitionScan.added, ← ht]
    exact Function.update_of_ne hk _ _
  . exact fun _ _ ht _ => ht

def Disks.named (hd : Nat) (s : Disks) : Disks :=
  { s with hds := Function.update s.hds hd { s.hds hd with
    name := [115, 100, UInt8.ofNat (97 + hd)] } }

theorem named_sectors {k : Nat} : ((s.named hd).hds k).sectors = (s.hds k).sectors := by
  simp only [Disks.named, Function.update_apply]
  split
  . next heq => rw [heq]
  . rfl

theorem named_others {k : Nat} (hk : k ≠ hd)
    : (s.named hd).hds k = s.hds k := Function.update_of_ne hk _ _

theorem disk_run (h : (ideInit.disk fuel hd).run s = .ok r)
    : ∃ t, r.2 = { t with no := fun _ => 0 }
        ∧ if hd % 2 ≠ 0 then (partitionScan hd fuel 0).run (s.named hd) = .ok ((), t)
            else t = s.named hd := by
  rw [ideInit.disk, exec_modify_bind] at h
  split at h
  . next hodd =>
    rw [bind_run] at h
    obtain ⟨_, t, hscan, h⟩ := h
    rw [modify_run] at h
    refine ⟨t, congrArg Prod.snd h, ?_⟩
    rw [if_pos hodd]
    exact hscan
  . next heven =>
    rw [modify_run] at h
    refine ⟨s.named hd, congrArg Prod.snd h, ?_⟩
    rw [if_neg heven]

theorem disk_visited (h : (ideInit.disk fuel hd).run s = .ok r) : Visited [hd] s r.2 := by
  obtain ⟨t, hr, hscan⟩ := disk_run h
  rw [hr]
  split at hscan
  . next hodd =>
    constructor
    . split
      . next hbase => exact calls_base hscan hbase
      . next hbase =>
        have hstart : t.extLbaBase = _ :=
          (calls_extStart hscan (show s.extLbaBase = 0 by simpa using hbase)).1
        rw [extBaseOf, extBaseOf]
        dsimp only
        rw [hstart, named_sectors]
        split
        . rfl
        . next hzero => simpa [hodd] using hzero
    . intro k
      exact (calls_sectors hscan).trans named_sectors
    . intro k hk
      rw [List.mem_singleton] at hk
      exact (calls_others hscan hk).trans (named_others hk)
    . exact fun _ => rfl
  . next heven =>
    rw [hscan]
    constructor
    . have hskip : extBaseOf (fun k => (s.hds k).sectors) [hd] = 0 := by
        rw [extBaseOf, if_neg fun hcond => heven hcond.1, extBaseOf]
      rw [hskip]
      split
      . rfl
      . next hbase => exact show s.extLbaBase = 0 by simpa using hbase
    . exact fun _ => named_sectors
    . intro k hk
      exact named_others (by simpa using hk)
    . exact fun _ => rfl

theorem disks_visited (h : (ideInit.disks fuel pre).run s = .ok r) : Visited pre s r.2 := by
  induction pre generalizing s with
  | nil =>
    rw [ideInit.disks, pure_run] at h
    rw [h]
    constructor
    . rw [extBaseOf]
      split
      . rfl
      . next hbase => simpa using hbase
    . exact fun _ => rfl
    . exact fun _ _ => rfl
    . exact id
  | cons hd pre ih =>
    rw [ideInit.disks, bind_run] at h
    obtain ⟨_, t, hdisk, hrest⟩ := h
    have h1 : Visited [hd] s t := disk_visited hdisk
    have h2 := ih hrest
    constructor
    . have hbase := h1.base
      rw [h2.base]
      simp only [h1.sectors]
      rw [extBaseOf, extBaseOf] at hbase
      rw [extBaseOf]
      rw [hbase]
      by_cases h0 : s.extLbaBase ≠ 0
      . rw [if_pos h0, if_pos h0, if_pos h0]
      . rw [if_neg h0, if_neg h0]
        by_cases hext : hd % 2 ≠ 0 ∧ extStart (s.hds hd).sectors ≠ 0
        . rw [if_pos hext, if_pos hext, if_pos hext.2]
        . rw [if_neg hext, if_neg hext, if_neg (by simp)]
    . intro k
      rw [h2.sectors, h1.sectors]
    . intro k hk
      rw [List.mem_cons, not_or] at hk
      rw [h2.others k hk.2, h1.others k (by simpa using hk.1)]
    . intro hno
      exact h2.no (h1.no hno)

end Visited

section Records

open partitionScan Function

variable {l : List PartRecord} {d : Mem} {p q : PartitionTableEntry} {start : UInt32}

def ScanRecords (hd : Nat) (s : Disks) (l : List PartRecord) : Prop :=
  ∃ fuel t tags, (ideInit.disk fuel hd).run s = .ok ((), t) ∧ t.partitionList
    = s.partitionList ++ tags ∧ tags.map t.record = l

def Reached (disks : Nat → Mem) (pre : List Nat)
    : Prop := ∃ fuel s, (ideInit.disks fuel pre).run (.boot disks) = .ok ((), s)

section Fuel

theorem covers_entries {scan scan' : UInt32 → DisksM Unit}
    (h : ∀ lba, Covers (scan lba) (scan' lba))
    : Covers (entries strict scan hd extLba ps) (entries strict scan' hd extLba ps) := by
  have hlink : ∀ p, Covers (link scan p) (link scan' p) := by
    intro p
    apply covers_bind covers_refl
    intro s
    split
    . exact h _
    . exact covers_bind covers_refl fun _ => h _
  induction ps with
  | nil => exact covers_refl
  | cons p ps ih =>
    rw [entries, entries]
    split
    . exact covers_bind (hlink p) fun _ => ih
    . split
      . split
        . refine covers_bind covers_refl fun _ => covers_bind covers_refl fun s => ?_
          exact covers_bind covers_refl fun _ => ih
        . refine covers_bind covers_refl fun _ => covers_bind covers_refl fun s => ?_
          split
          . exact covers_refl
          . exact ih
      . exact ih

theorem covers_scan : Covers (calls strict hd n extLba) (calls strict hd (n + 1) extLba) := by
  induction n generalizing extLba with
  | zero => exact covers_throw
  | succ n ih =>
    rw [calls, calls]
    exact covers_bind covers_refl fun bs => covers_entries fun lba => ih

theorem covers_disk : Covers (ideInit.disk fuel hd) (ideInit.disk (fuel + 1) hd) := by
  apply covers_bind covers_refl
  intro _
  split
  . exact covers_bind covers_scan fun _ => covers_refl
  . exact covers_refl

theorem covers_disks : Covers (ideInit.disks fuel pre) (ideInit.disks (fuel + 1) pre) := by
  induction pre with
  | nil => exact covers_refl
  | cons hd pre ih => exact covers_bind covers_disk fun _ => ih

end Fuel

def Records (disks : Nat → Mem) (pre : List Nat) (hd : Nat) (l : List PartRecord) : Prop :=
  ∃ fuel s, (ideInit.disks fuel pre).run (.boot disks) = .ok ((), s) ∧ ScanRecords hd s l

theorem ScanRecords.unique {l' : List PartRecord} (h : ScanRecords hd s l)
    (h' : ScanRecords hd s l') : l = l' := by
  obtain ⟨n, t, tags, hrun, hlist, hmap⟩ := h
  obtain ⟨m, t', tags', hrun', hlist', hmap'⟩ := h'
  have ht : t = t' :=
    congrArg Prod.snd (@covers_unique _ _ _ (ideInit.disk · hd) (fun _ =>
      covers_disk) _ _ _ _ _ hrun hrun')
  subst ht
  rw [← hmap, ← hmap', List.append_cancel_left (hlist.symm.trans hlist')]

theorem Records.unique {l' : List PartRecord} (h : Records disks pre hd l)
    (h' : Records disks pre hd l') : l = l' := by
  obtain ⟨n, s, hrun, hrecords⟩ := h
  obtain ⟨m, s', hrun', hrecords'⟩ := h'
  have hs : s = s' :=
    congrArg Prod.snd (@covers_unique _ _ _ (ideInit.disks · pre) (fun _ =>
      covers_disks) _ _ _ _ _ hrun hrun')
  subst hs
  exact hrecords.unique hrecords'

theorem ScanRecords.of_alike (h : ScanRecords hd s l)
    (halike : Alike (· = hd) s.partitionList s'.partitionList s s')
    : ScanRecords hd s' l := by
  obtain ⟨fuel, t, tags, hrun, hlist, hmap⟩ := h
  obtain ⟨t', hrun', halike'⟩ := (@related_disk hd _ (· = hd) _ _ rfl).run halike hrun
  obtain ⟨tags', hlist', hlist'', htags⟩ := halike'.tags
  rw [List.append_cancel_left (hlist.symm.trans hlist')] at hmap
  refine ⟨fuel, t', tags', hrun', hlist'', ?_⟩
  rw [← hmap]
  apply List.map_congr_left
  intro tag htag
  rw [Disks.record, Disks.record, Disks.part, Disks.part, halike'.hds _ (htags tag htag)]

theorem Reached.update (h : Reached disks pre) (hpre : hd ∉ pre)
    : Reached (Function.update disks hd d) pre := by
  obtain ⟨fuel, s, hrun⟩ := h
  have halike : Alike (· ≠ hd) [] [] (.boot disks) (.boot (Function.update disks hd d)) := by
    refine ⟨?_, rfl, rfl, [], rfl, rfl, nofun⟩
    intro k hk
    rw [Disks.boot, Disks.boot]
    dsimp only
    rw [update_of_ne hk]
  obtain ⟨t, hrun', -⟩ := (related_disks fun k hk => ne_of_mem_of_not_mem hk hpre).run halike hrun
  exact ⟨fuel, t, hrun'⟩

theorem extBaseOf_update (hpre : hd ∉ pre)
    : extBaseOf (update disks hd d) pre = extBaseOf disks pre := by
  induction pre with
  | nil => rfl
  | cons k pre ih =>
    rw [List.mem_cons, not_or] at hpre
    rw [extBaseOf, extBaseOf, ih hpre.2, update_of_ne (Ne.symm hpre.1)]

theorem reached_state (h : (ideInit.disks fuel pre).run (.boot (update disks hd d)) = .ok ((), s))
    (hpre : hd ∉ pre)
    : s.hds hd = ⟨d, [], fun _ _ => .zero⟩ ∧ s.extLbaBase = extBaseOf disks pre ∧ s.no = fun _ =>
        0 := by
  have hvisited : Visited pre _ s := disks_visited h
  refine ⟨?_, ?_, hvisited.no rfl⟩
  . rw [hvisited.others hd hpre, Disks.boot]
    dsimp only
    rw [update_self]
  . rw [hvisited.base, if_neg fun h => h rfl]
    exact extBaseOf_update hpre

theorem Records.of_base (h : Records (update disks hd d) pre hd l) (hpre : hd ∉ pre)
    (hreach : Reached disks' pre) (hbase : extBaseOf disks pre = extBaseOf disks' pre)
    : Records (update disks' hd d) pre hd l := by
  obtain ⟨fuel, s, hrun, hrecords⟩ := h
  obtain ⟨fuel', s', hrun'⟩ := @Reached.update hd pre disks' d hreach hpre
  have h1 := reached_state hrun hpre
  have h2 := reached_state hrun' hpre
  refine ⟨fuel', s', hrun', hrecords.of_alike ?_⟩
  refine ⟨?_, ?_, ?_, [], (List.append_nil _).symm, (List.append_nil _).symm, nofun⟩
  . intro k hk
    rw [hk, h1.1, h2.1]
  . rw [h1.2.1, h2.2.1, hbase]
  . rw [h1.2.2, h2.2.2]

theorem target_eq {base : UInt32} : Walk.target base p = p.startLba + base := by
  rw [Walk.target]
  split
  . rfl
  . next h =>
    rw [Decidable.not_not.mp h, UInt32.add_zero]

theorem scanRecords_link (hodd : hd % 2 ≠ 0) (hno : s.no = fun _ => 0)
    (hmbr : entriesAt (s.hds hd).sectors 0 = [p])
    (hlink : p.IsLink) (hbound : (p.startLba + s.extLbaBase).toNat ≤ maxLba)
    (hne : p.startLba + s.extLbaBase ≠ 0)
    (hebr : entriesAt (s.hds hd).sectors (p.startLba + s.extLbaBase).toNat = [q]) (hpart : q.IsPart)
    : ScanRecords hd s [⟨.logic, p.startLba + s.extLbaBase + q.startLba, q.secCnt⟩] := by
  obtain ⟨t, ht⟩ : ∃ t : Disks, t = { s.named hd with extLbaBase := Walk.newBase s.extLbaBase p } :=
    ⟨_, rfl⟩
  have hnoT : t.no = fun _ => 0 := by rw [ht, ← hno]; rfl
  have hebrT : entriesAt (t.hds hd).sectors (p.startLba + s.extLbaBase).toNat = [q] := by
    rw [ht, ← hebr]
    exact congrArg (entriesAt · _) named_sectors
  have hinner : (partitionScan hd 1 (p.startLba + s.extLbaBase)).run t
      = .ok ((), added hd .logic (p.startLba + s.extLbaBase) q t) := by
    rw [partitionScan, calls_succ hbound, hebrT, entries_logic hpart hne,
      exec_bind (add_ok fun _ => show (t.no .logic).toNat < PartKind.logic.len by
        rw [hnoT]; decide), exec_get_bind, added_no,
      if_pos rfl, hnoT, if_neg (by decide)]
    rfl
  have hscan : (partitionScan hd 2 0).run (s.named hd)
      = .ok ((), added hd .logic (p.startLba + s.extLbaBase) q t) := by
    rw [partitionScan, calls_succ (Nat.zero_le _), named_sectors, show (0 : UInt32).toNat
      = 0 from rfl, hmbr, entries_link hlink]
    refine exec_bind (a := ()) ?_
    rw [link_run, show (s.named hd).extLbaBase = s.extLbaBase from rfl, target_eq, ← ht]
    exact hinner
  refine ⟨2, { added hd .logic (p.startLba + s.extLbaBase) q t with no := fun _ => 0 },
    [tag hd .logic t], ?_, ?_, ?_⟩
  . rw [ideInit.disk, exec_modify_bind, if_pos hodd]
    exact exec_bind hscan
  . show t.partitionList ++ _ = _
    rw [ht]
    rfl
  . have hpartT := @part_added hd .logic (p.startLba + s.extLbaBase) q t (tag hd .logic t)
    rw [if_pos rfl] at hpartT
    rw [List.map_singleton, Disks.record]
    show [PartRecord.mk .logic ((added hd .logic _ q t).part _).startLba
        ((added hd .logic _ q t).part _).secCnt] = _
    rw [hpartT]
    rfl

def linkDisk (start : UInt32) : Mem := diskOf [(0, [⟨5, start, 0⟩]), (1, [⟨0x83, 1, 1⟩])]

theorem linkDisk_link : PartitionTableEntry.IsLink ⟨5, start, 0⟩ := rfl

theorem linkDisk_mbr : entriesAt (linkDisk start) 0 = [⟨5, start, 0⟩] := entriesAt_diskOf

theorem linkDisk_empty {lba : Nat} (h0 : lba ≠ 0) (h1 : lba ≠ 1)
    : entriesAt (linkDisk start) lba = [] := by
  rw [linkDisk, entriesAt_diskOf]
  have hlookup : List.lookup lba [(0, [(⟨5, start, 0⟩ : PartitionTableEntry)]), (1, [⟨0x83, 1, 1⟩])]
      = none := by
    rw [Assoc.lookup_cons, if_neg h0, Assoc.lookup_cons, if_neg h1, List.lookup_nil]
  rw [hlookup]
  rfl

theorem linkDisk_circle (hdisk : (s.hds hd).sectors = linkDisk start)
    (hzero : start + s.extLbaBase = 0) {r : Unit × Disks}
    : (partitionScan hd n 0).run s ≠ .ok r := by
  induction n generalizing s r with
  | zero => exact throw_run
  | succ n ih =>
    intro h
    have hbase : Walk.newBase s.extLbaBase ⟨5, start, 0⟩ = s.extLbaBase := by
      rw [Walk.newBase]
      split
      . rfl
      . next h0 =>
        rw [Decidable.not_not.mp h0, UInt32.add_zero] at hzero
        rw [Decidable.not_not.mp h0]
        exact hzero
    rw [partitionScan, calls_succ (Nat.zero_le _), hdisk, show (0 : UInt32).toNat = 0 from rfl,
      linkDisk_mbr, entries_link linkDisk_link, bind_run] at h
    obtain ⟨_, t, hlink, -⟩ := h
    rw [link_run, target_eq, hbase, hzero] at hlink
    exact ih hdisk hzero hlink

theorem linkDisk_records (hodd : hd % 2 ≠ 0) (hdisk : (s.hds hd).sectors = linkDisk start)
    (hne : start + s.extLbaBase ≠ 1) (h : ScanRecords hd s l) : l = [] := by
  obtain ⟨fuel, t, tags, hrun, hlist, hmap⟩ := h
  obtain ⟨u, ht, hscan⟩ := disk_run hrun
  dsimp only at ht
  rw [if_pos hodd] at hscan
  have hdisk' : ((s.named hd).hds hd).sectors = linkDisk start := named_sectors.trans hdisk
  have hnothing : u.partitionList = s.partitionList := by
    by_cases hzero : start + s.extLbaBase = 0
    . exact absurd hscan (linkDisk_circle hdisk' hzero)
    . cases fuel with
      | zero => exact absurd hscan throw_run
      | succ n =>
        rw [partitionScan, calls_succ (Nat.zero_le _), hdisk', show (0 : UInt32).toNat = 0 from rfl,
          linkDisk_mbr, entries_link linkDisk_link, bind_run] at hscan
        obtain ⟨_, v, hlink, hrest⟩ := hscan
        rw [entries, pure_run] at hrest
        rw [link_run, target_eq, show (s.named hd).extLbaBase = s.extLbaBase from rfl] at hlink
        dsimp only at hlink
        cases n with
        | zero => exact absurd hlink throw_run
        | succ n =>
          rw [calls_succ (calls_le_maxLba hlink), hdisk', linkDisk_empty, entries,
            pure_run] at hlink
          . rw [show u = v from congrArg Prod.snd hrest, show v = _ from congrArg Prod.snd hlink]
            rfl
          . exact fun h0 => hzero (UInt32.toNat_inj.mp h0)
          . exact fun h1 => hne (UInt32.toNat_inj.mp h1)
  rw [ht] at hlist
  rw [← hmap, show tags = [] from List.append_right_eq_self.mp (hlist.symm.trans hnothing)]
  rfl

/--
Two runs find the same partitions on every disk that comes next if and only if the disks before it
have their extended partition, the first one of them, at the same address.
-/
theorem records_independent_iff (hodd : hd % 2 ≠ 0) (hpre : hd ∉ pre) (hreach : Reached disks pre)
    (hreach' : Reached disks' pre)
    : (∀ d l, Records (update disks hd d) pre hd l ↔ Records (update disks' hd d) pre hd l)
        ↔
      extBaseOf disks pre = extBaseOf disks' pre := by
  constructor
  . intro h
    by_contra hne
    -- the link leads to the partition for the first address, and not for the second
    obtain ⟨start, hstart⟩ : ∃ start, start = 1 - extBaseOf disks pre := ⟨_, rfl⟩
    have htarget : start + extBaseOf disks pre = 1 := by rw [hstart, UInt32.sub_add_cancel]
    obtain ⟨fuel, s, hrun⟩ := @Reached.update hd pre disks (linkDisk start) hreach hpre
    obtain ⟨hdisk, hbase, hno⟩ := reached_state hrun hpre
    have hrecords : Records (update disks hd (linkDisk start)) pre hd [⟨.logic, 2, 1⟩] := by
      refine ⟨fuel, s, hrun, ?_⟩
      have := @scanRecords_link hd s ⟨5, start, 0⟩ ⟨0x83, 1, 1⟩ hodd hno
        (by rw [hdisk]; exact linkDisk_mbr) rfl
      rw [hbase, show (⟨5, start, 0⟩ : PartitionTableEntry).startLba = start from rfl, htarget,
        hdisk] at this
      exact this (by decide) (by decide) entriesAt_diskOf (by decide)
    obtain ⟨fuel', s', hrun', hrecords'⟩ := (h _ _).mp hrecords
    obtain ⟨hdisk', hbase', -⟩ := reached_state hrun' hpre
    have hother : start + s'.extLbaBase ≠ 1 := by
      rw [hbase', ← htarget]
      exact fun heq => hne ((UInt32.add_right_inj _).mp heq).symm
    exact absurd (linkDisk_records hodd (by rw [hdisk']) hother hrecords') (by simp)
  . intro hbase d l
    constructor
    . exact fun h => h.of_base hpre hreach' hbase
    . exact fun h => h.of_base hpre hreach hbase.symm

def firstDisks (mbr : List PartitionTableEntry)
    : Nat → Mem := fun k => if k = 1 then diskOf [(0, mbr)] else fun _ => 0

theorem records_independent_firstDisks
    : (∀ d l, Records (update (firstDisks [⟨5, 6, 9⟩]) 3 d) [0, 1, 2] 3 l
        ↔ Records (update (firstDisks []) 3 d) [0, 1, 2] 3 l)
        ↔
      extBaseOf (firstDisks [⟨5, 6, 9⟩]) [0, 1, 2] = extBaseOf (firstDisks []) [0, 1, 2] :=
  records_independent_iff (by decide) (by decide) ⟨2, _, rfl⟩ ⟨2, _, rfl⟩

def twoDisk : Mem := diskOf [(0, [⟨5, 1, 9⟩]), (1, [⟨0x83, 1, 1⟩]), (7, [⟨0x83, 1, 2⟩])]

theorem twoDisk_records {mbr : List PartitionTableEntry} {base : UInt32} {q : PartitionTableEntry}
    (hreach : Reached (firstDisks mbr) [0, 1, 2])
    (hext : extBaseOf (firstDisks mbr) [0, 1, 2] = base)
    (hbound : (1 + base).toNat ≤ maxLba) (hne : 1 + base ≠ 0)
    (hebr : entriesAt twoDisk (1 + base).toNat = [q]) (hpart : q.IsPart)
    : Records (update (firstDisks mbr) 3 twoDisk) [0, 1,
        2] 3 [⟨.logic, 1 + base + q.startLba, q.secCnt⟩] := by
  have hmbr : entriesAt twoDisk 0 = [⟨5, 1, 9⟩] := entriesAt_diskOf
  obtain ⟨fuel, s, hrun⟩ := @Reached.update 3 [0, 1, 2] (firstDisks mbr) twoDisk hreach (by decide)
  obtain ⟨hdisk, hbase, hno⟩ := reached_state hrun (by decide)
  have hrecords := @scanRecords_link 3 s ⟨5, 1, 9⟩ q (by decide) hno (by rw [hdisk]; exact hmbr)
    (show _ = _ from rfl)
  rw [hdisk, hbase, hext] at hrecords
  exact ⟨fuel, s, hrun, hrecords hbound hne hebr hpart⟩

/-- The extended partition of the second disk is the base for the links of the fourth. -/
theorem not_records_independent_twoDisk
    : ¬ ∀ l, Records (update (firstDisks [⟨5, 6, 9⟩]) 3 twoDisk) [0, 1, 2] 3 l
        ↔ Records (update (firstDisks []) 3 twoDisk) [0, 1, 2] 3 l := by
  intro h
  have h6 : Records (update (firstDisks [⟨5, 6, 9⟩]) 3 twoDisk) [0, 1, 2] 3 [⟨.logic, 8, 2⟩] :=
    @twoDisk_records _ 6 ⟨0x83, 1, 2⟩ ⟨2, _, rfl⟩ (by decide) (by decide)
      (by decide) entriesAt_diskOf (by decide)
  have h0 : Records (update (firstDisks []) 3 twoDisk) [0, 1, 2] 3 [⟨.logic, 2, 1⟩] :=
    @twoDisk_records _ 0 ⟨0x83, 1, 1⟩ ⟨2, _, rfl⟩ (by decide) (by decide)
      (by decide) entriesAt_diskOf (by decide)
  have heq := ((h _).mp h6).unique h0
  exact absurd heq (by decide)

end Records

end RogOS
