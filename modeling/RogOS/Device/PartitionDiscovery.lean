import RogOS.Device.Lemmas.Partition

/-!
Which partitions `partition_scan` finds on a disk whose tables are well formed.
-/

namespace RogOS

open Cmd

variable {hd n base limit ebr : Nat} {kind : PartKind} {disk : Mem} {x p : PartitionTableEntry}
  {ps qs : List PartitionTableEntry}
  {l logical : List PartFound} {s : Disks} {scan : UInt32 → DisksM Unit} {strict : Bool}

section Layout

/--
The tables of the logical partitions from sector `ebr` on, with these partitions: a table holds the
entry of one partition, followed by the link to the next table if there is one. Links are relative
to the extended partition at `base`; no table is behind the sector `limit`.
-/
inductive EbrChain (disk : Mem) (base limit : Nat) : (ebr : Nat) → List PartFound → Prop
  | last {ebr : Nat} {p : PartitionTableEntry} (bound : ebr ≤ limit) (part : p.IsPart)
      (table : entriesAt disk ebr = [p])
    : EbrChain disk base limit ebr [⟨.logic, UInt32.ofNat ebr, p⟩]
  | link {ebr : Nat} {p x : PartitionTableEntry} {l : List PartFound} (bound : ebr ≤ limit)
      (part : p.IsPart)
      (link : x.IsLink) (table : entriesAt disk ebr = [p, x])
      (rest : EbrChain disk base limit (base + x.startLba.toNat) l)
    : EbrChain disk base limit ebr (⟨.logic, UInt32.ofNat ebr, p⟩ :: l)

structure WellFormedDisk (disk : Mem) (limit : Nat) (logical : List PartFound) : Prop where
  primes : (entriesAt disk 0).countP (·.IsPart) ≤ 3
  extended : (entriesAt disk 0).countP (·.IsLink) ≤ 1
  chain : ∀ x ∈ entriesAt disk 0, x.IsLink
    → EbrChain disk x.startLba.toNat limit x.startLba.toNat logical
  eight : logical.length ≤ 8

def partsOf (disk : Mem) (logical : List PartFound) : List PartFound :=
  (entriesAt disk 0).flatMap fun p => if p.IsLink then logical else [⟨.prime, 0, p⟩]

def Discovers (hd : Nat) (s : Disks) (l : List PartFound) : Prop :=
  ∃ fuel s', (partitionScan hd fuel 0).run s = .ok ((), s')
    ∧ s.Entered hd (l.map PartFound.record) s'

theorem EbrChain.all_logic (h : EbrChain disk base limit ebr l) : ∀ f ∈ l, f.kind = .logic := by
  induction h with
  | last bound part table =>
    intro f hf
    rw [List.mem_singleton.mp hf]
  | link bound part link table rest ih =>
    intro f hf
    cases List.mem_cons.mp hf with
    | inl hf => rw [hf]
    | inr hf => exact ih f hf

theorem EbrChain.length_pos (h : EbrChain disk base limit ebr l) : 0 < l.length := by
  cases h <;> exact Nat.succ_pos _

theorem EbrChain.start_ne (h : EbrChain disk base limit ebr l) (hbase : base = 0) (hebr : ebr = 0)
    (hx : x ∈ entriesAt disk 0) (hlink : x.IsLink) : x.startLba.toNat ≠ 0 := by
  have hpart : ∀ p : PartitionTableEntry, p.IsPart → x ≠ p := by
    rintro p hp rfl
    exact hp.2 hlink
  induction h with
  | @last ebr p bound part table =>
    rw [← hebr, table, List.mem_singleton] at hx
    exact absurd hx (hpart p part)
  | @link ebr p y l bound part link table rest ih =>
    intro hzero
    have hmem := hx
    rw [← hebr, table, List.mem_cons, List.mem_singleton] at hmem
    have hy := hmem.resolve_left (hpart p part)
    exact ih (by rw [← hy, hzero, hbase]) hzero

end Layout

section Runs

open partitionScan

theorem entries_primes (hps : ∀ p ∈ ps, p.IsPart) (hroom : (s.no .prime).toNat + ps.length ≤ 3)
    : (entries strict scan hd 0 (ps ++ qs)).run s = (entries strict scan hd 0 qs).run
        (s.addAll hd (ps.map (⟨.prime, 0, ·⟩))) := by
  induction ps generalizing s with
  | nil => rfl
  | cons p ps ih =>
    rw [List.length_cons] at hroom
    have hno : ((added hd .prime 0 p s).no .prime).toNat = (s.no .prime).toNat + 1 := by
      rw [added_no, if_pos rfl, UInt8.toNat_add, UInt8.toNat_one]
      omega
    have hlt : (added hd .prime 0 p s).no .prime < 4 := by
      rw [UInt8.lt_iff_toNat_lt, hno]
      show _ < 4
      omega
    rw [List.cons_append, entries_prime (hps p List.mem_cons_self),
      exec_bind (add_ok fun _ => show (s.no .prime).toNat < 4 by omega), exec_get_bind,
      exec_assert_bind, if_pos hlt]
    exact ih (fun q hq => hps q (List.mem_cons_of_mem _ hq)) (by rw [hno]; omega)

theorem EbrChain.run (h : EbrChain disk base maxLba ebr l) (hebr : 0 < ebr)
    (hdisk : (s.hds hd).sectors = disk) (hbase : s.extLbaBase.toNat = base) (hpos : 0 < base)
    (hroom : (s.no .logic).toNat + l.length ≤ 8) (hn : l.length ≤ n)
    : (calls strict hd n (UInt32.ofNat ebr)).run s = .ok ((), s.addAll hd l) := by
  have hofNat : ∀ e, 0 < e → e ≤ maxLba → (UInt32.ofNat e).toNat = e ∧ UInt32.ofNat e ≠ 0 := by
    intro e h0 hle
    have hnat : (UInt32.ofNat e).toNat = e := by
      rw [UInt32.toNat_ofNat']
      unfold maxLba at hle
      omega
    refine ⟨hnat, ?_⟩
    rintro heq
    rw [heq] at hnat
    exact absurd hnat (by rw [UInt32.toNat_zero]; omega)
  induction h generalizing s n with
  | @last ebr p bound part table =>
    obtain ⟨hnat, hne⟩ := hofNat ebr hebr bound
    cases n with
    | zero => exact absurd hn (by simp)
    | succ n =>
      rw [List.length_singleton] at hroom
      rw [calls_succ (by rw [hnat]; exact bound), hnat, hdisk, table, entries_logic part hne,
        exec_bind (add_ok fun _ => show (s.no .logic).toNat < 8 by omega), exec_get_bind]
      split <;> rfl
  | @link ebr p x l bound part link table rest ih =>
    obtain ⟨hnat, hne⟩ := hofNat ebr hebr bound
    have hlen := rest.length_pos
    cases n with
    | zero => exact absurd hn (by simp)
    | succ n =>
      rw [List.length_cons] at hroom hn
      have hno : ((added hd .logic (UInt32.ofNat ebr) p s).no .logic).toNat
          = (s.no .logic).toNat + 1 := by
        rw [added_no, if_pos rfl, UInt8.toNat_add, UInt8.toNat_one]
        omega
      have hmore : ¬ 8 ≤ (added hd .logic (UInt32.ofNat ebr) p s).no .logic := by
        rw [UInt8.le_iff_toNat_le, hno]
        show ¬ 8 ≤ _
        omega
      have hext : (added hd .logic (UInt32.ofNat ebr) p s).extLbaBase = s.extLbaBase := rfl
      have hnext : x.startLba + s.extLbaBase = UInt32.ofNat (base + x.startLba.toNat) := by
        rw [UInt32.ofNat_add, UInt32.ofNat_toNat, ← hbase, UInt32.ofNat_toNat, UInt32.add_comm]
      have hne' : s.extLbaBase ≠ 0 := by
        rintro heq
        rw [heq, UInt32.toNat_zero] at hbase
        omega
      have hrun :=
        @ih n (added hd .logic (UInt32.ofNat ebr) p s) (by omega) (by rw [added_sectors, hdisk])
          hbase
        (by rw [hno]; omega) (by omega)
      rw [calls_succ (by rw [hnat]; exact bound), hnat, hdisk, table, entries_logic part hne,
        exec_bind (add_ok fun _ => show (s.no .logic).toNat < 8 by omega), exec_get_bind,
        if_neg hmore, entries_link link, partitionScan.link]
      rw [StateT.run_bind, exec_get_bind, hext, if_pos hne', hnext, hrun]
      rfl

theorem addAll_setBase {b : UInt32}
    : Disks.addAll hd { s with extLbaBase := b } l = { s.addAll hd l with extLbaBase := b } := by
  induction l using List.reverseRecOn with
  | nil => rfl
  | append_singleton l f ih =>
    rw [Disks.addAll_concat, Disks.addAll_concat, ih]
    rfl

def primesOf (ps : List PartitionTableEntry) : List PartFound := ps.map (⟨.prime, 0, ·⟩)

theorem countP_primesOf
    : (primesOf ps).countP (·.kind = kind) = if kind = .prime then ps.length else 0 := by
  split
  . next hkind =>
    rw [primesOf, List.countP_map, List.countP_eq_length.mpr]
    simp [hkind]
  . next hkind =>
    rw [primesOf, List.countP_map, List.countP_eq_zero]
    simpa using fun _ _ => Ne.symm hkind

theorem countP_logical (h : ∀ f ∈ l, f.kind = .logic) : l.countP (·.kind = .prime) = 0 := by
  rw [List.countP_eq_zero]
  intro f hf
  rw [h f hf]
  decide

theorem entries_mbr (hno : ∀ kind, s.no kind = 0) (hbase : s.extLbaBase = 0)
    (hps : ∀ p ∈ ps, p.IsPart) (hqs : ∀ p ∈ qs, p.IsPart) (hroom : ps.length + qs.length ≤ 3)
    (hlinked : x.IsLink) (hlogic : ∀ f ∈ logical, f.kind = .logic)
    (hscan : ∀ t : Disks, t.extLbaBase = x.startLba → (∀ k, (t.hds k).sectors = (s.hds k).sectors)
      → t.no .logic = 0 →
      (scan x.startLba).run t = .ok ((), t.addAll hd logical))
    : (entries strict scan hd 0 (ps ++ x :: qs)).run s
        =
      .ok ((), Disks.addAll hd { s with extLbaBase := x.startLba }
        (primesOf ps ++ logical ++ primesOf qs)) := by
  have hprime : (s.no .prime).toNat = 0 := by rw [hno]; rfl
  have hchain :=
    hscan (Disks.addAll hd { s with extLbaBase := x.startLba } (primesOf ps)) addAll_extLbaBase
    (fun k => addAll_sectors) (by
      rw [← UInt8.toNat_inj, addAll_no]
        <;> rw [countP_primesOf, if_neg (by decide), Nat.add_zero, hno]
      decide)
  have hlink : (link scan x).run (s.addAll hd (primesOf ps))
      = .ok ((), Disks.addAll hd { s with extLbaBase := x.startLba } (primesOf ps ++ logical)) := by
    rw [link, exec_get_bind, addAll_extLbaBase, hbase, if_neg (by simp),
      exec_modify_bind, ← addAll_setBase, hchain, Disks.addAll_append]
  have hdone : ((Disks.addAll hd { s with extLbaBase := x.startLba } (primesOf ps ++ logical)).no
      .prime).toNat = ps.length := by
    rw [addAll_no] <;> rw [List.countP_append, countP_primesOf, if_pos rfl, countP_logical hlogic,
      hprime]
    . omega
    . omega
  rw [entries_primes hps (by omega)]
  rw [← primesOf, entries_link hlinked, exec_bind hlink, ← List.append_nil qs,
    entries_primes hqs (by rw [hdone]; exact hroom), List.append_nil, ← primesOf,
    ← Disks.addAll_append]
  rfl

theorem isPart_or_isLink (hp : p ∈ entriesAt disk n) : p.IsPart ∨ p.IsLink := by
  rw [entriesAt, List.mem_filter] at hp
  by_cases hlink : p.IsLink
  . exact .inr hlink
  . exact .inl ⟨by simpa using hp.2, hlink⟩

theorem flatMap_primes (h : ∀ p ∈ ps, p.IsPart)
    : (ps.flatMap fun p => if p.IsLink then logical else [⟨.prime, 0, p⟩]) = primesOf ps := by
  induction ps with
  | nil => rfl
  | cons p ps ih =>
    have hp : ¬ p.IsLink := (h p List.mem_cons_self).2
    rw [List.flatMap_cons, if_neg hp, ih fun q hq => h q (List.mem_cons_of_mem _ hq)]
    rfl

theorem WellFormedDisk.split (h : WellFormedDisk disk limit logical)
    : (∀ p ∈ entriesAt disk 0, p.IsPart) ∨ ∃ ps x qs, entriesAt disk 0 = ps ++ x :: qs ∧ x.IsLink
        ∧ (∀ p ∈ ps, p.IsPart) ∧ ∀ p ∈ qs, p.IsPart := by
  by_cases hex : ∃ x ∈ entriesAt disk 0, x.IsLink
  . obtain ⟨x, hx, hlink⟩ := hex
    obtain ⟨ps, qs, hsplit⟩ := List.append_of_mem hx
    have hcount := h.extended
    rw [hsplit, List.countP_append, List.countP_cons_of_pos (by simpa using hlink)] at hcount
    have hps : ps.countP (·.IsLink) = 0 := by omega
    have hqs : qs.countP (·.IsLink) = 0 := by omega
    rw [List.countP_eq_zero] at hps hqs
    refine .inr ⟨ps, x, qs, hsplit, hlink, fun p hp => ?_, fun p hp => ?_⟩
    . have hmem : p ∈ entriesAt disk 0 := by
        rw [hsplit]
        exact List.mem_append_left _ hp
      exact (isPart_or_isLink hmem).resolve_right (by simpa using hps p hp)
    . have hmem : p ∈ entriesAt disk 0 := by
        rw [hsplit]
        exact List.mem_append_right _ (List.mem_cons_of_mem _ hp)
      exact (isPart_or_isLink hmem).resolve_right (by simpa using hqs p hp)
  . exact .inl fun p hp => (isPart_or_isLink hp).resolve_right fun hlink => hex ⟨p, hp, hlink⟩

/--
A well-formed disk is gone through: every partition is entered once with its address and its length,
in the order of the tables.
-/
theorem partitionScan_discovers (hbase : s.extLbaBase = 0) (hno : ∀ kind, s.no kind = 0)
    (h : WellFormedDisk (s.hds hd).sectors maxLba logical)
    : Discovers hd s (partsOf (s.hds hd).sectors logical) := by
  have hmbr : ∀ n, (partitionScan hd (n + 1) 0).run s
      = (entries true (partitionScan hd n) hd 0 (entriesAt (s.hds hd).sectors 0)).run s :=
    fun n => calls_succ (Nat.zero_le _)
  have hprimes := h.primes
  obtain hparts | ⟨ps, x, qs, hsplit, hlink, hps, hqs⟩ := h.split
  . rw [List.countP_eq_length.mpr (by simpa using hparts)] at hprimes
    have hrun := hmbr 0
    rw [← List.append_nil (entriesAt _ _),
      entries_primes hparts (by rw [hno]; simpa using hprimes), ← primesOf] at hrun
    refine ⟨1, _, hrun, ?_⟩
    rw [partsOf, flatMap_primes hparts]
    apply addAll_entered
    intro kind
    rw [hno, countP_primesOf]
    cases kind
    . show 0 + _ ≤ 4
      rw [if_pos rfl]
      omega
    . show 0 + _ ≤ 8
      rw [if_neg (by decide)]
      omega
  . have hx : x ∈ entriesAt (s.hds hd).sectors 0 := by
      rw [hsplit]
      exact List.mem_append_right _ List.mem_cons_self
    have hchain := h.chain x hx hlink
    have hpos : 0 < x.startLba.toNat :=
      Nat.pos_of_ne_zero fun h0 => hchain.start_ne h0 h0 hx hlink h0
    have hx' : ¬ x.IsPart := fun hpart => hpart.2 hlink
    rw [hsplit, List.countP_append, List.countP_cons_of_neg (by simpa using hx'),
      List.countP_eq_length.mpr (by simpa using hps),
      List.countP_eq_length.mpr (by simpa using hqs)] at hprimes
    have hlogic := hchain.all_logic
    have hrun := hmbr logical.length
    rw [hsplit, entries_mbr hno hbase hps hqs hprimes hlink hlogic ?_] at hrun
    . refine ⟨_, _, hrun, ?_⟩
      rw [partsOf, hsplit, List.flatMap_append, List.flatMap_cons, if_pos hlink, flatMap_primes hps,
        flatMap_primes hqs, ← List.append_assoc]
      refine ⟨(addAll_entered ?_).tags⟩
      intro kind
      rw [List.countP_append, List.countP_append, countP_primesOf, countP_primesOf]
      show (s.no kind).toNat + _ ≤ _
      rw [hno]
      cases kind
      . show 0 + _ ≤ 4
        rw [if_pos rfl, if_pos rfl, countP_logical hlogic]
        omega
      . have hle : logical.countP (·.kind = .logic) ≤ logical.length := List.countP_le_length
        have height := h.eight
        show 0 + _ ≤ 8
        rw [if_neg (by decide), if_neg (by decide)]
        omega
    . intro t hbase' hsectors hno'
      have hdisk := hsectors hd
      have hroom : (t.no .logic).toNat + logical.length ≤ 8 := by
        rw [hno']
        exact (Nat.zero_add _).le.trans h.eight
      have hrun : (partitionScan hd logical.length (UInt32.ofNat x.startLba.toNat)).run t
          = .ok ((), t.addAll hd logical) :=
        hchain.run hpos hdisk (by rw [hbase']) hpos hroom (Nat.le_refl _)
      rw [UInt32.ofNat_toNat] at hrun
      exact hrun

def partedDisk : Mem :=
  diskOf [(0, [⟨0x83, 63, 5000⟩, ⟨5, 6000, 9000⟩]), (6000, [⟨0x83, 63, 2000⟩, ⟨5, 3000, 3000⟩]),
    (9000, [⟨0x83, 63, 2900⟩])]

theorem partitionScan_discovers_partedDisk
    : Discovers 1 (.boot fun _ => partedDisk)
        (partsOf partedDisk [⟨.logic, 6000, ⟨0x83, 63, 2000⟩⟩,
          ⟨.logic, 9000, ⟨0x83, 63, 2900⟩⟩]) := by
  have hmbr : entriesAt partedDisk 0 = [⟨0x83, 63, 5000⟩, ⟨5, 6000, 9000⟩] := entriesAt_diskOf
  apply @partitionScan_discovers 1 _ (.boot fun _ => partedDisk) rfl (fun _ => rfl)
  constructor
  . show (entriesAt partedDisk 0).countP _ ≤ 3
    rw [hmbr]
    decide
  . show (entriesAt partedDisk 0).countP _ ≤ 1
    rw [hmbr]
    decide
  . intro x hx hlink
    have hx : x ∈ entriesAt partedDisk 0 := hx
    rw [hmbr, List.mem_cons, List.mem_singleton] at hx
    obtain rfl | rfl := hx
    . exact absurd hlink (by decide)
    . apply EbrChain.link (x := ⟨5, 3000, 3000⟩) (by decide) (by decide)
        (by decide) entriesAt_diskOf
      exact .last (by decide) (by decide) entriesAt_diskOf
  . decide

def farDisk : Mem := diskOf [(0, [⟨5, 163840, 100⟩]), (163840, [⟨0x83, 1, 99⟩])]

/-- A sector that the driver does not support stops the kernel. -/
theorem not_partitionScan_discovers_farDisk
    : WellFormedDisk farDisk (2 ^ 32 - 1) [⟨.logic, 163840, ⟨0x83, 1, 99⟩⟩]
        ∧ ¬ Discovers 1 (.boot fun _ =>
            farDisk) (partsOf farDisk [⟨.logic, 163840, ⟨0x83, 1, 99⟩⟩]) := by
  have hmbr : entriesAt farDisk 0 = [⟨5, 163840, 100⟩] := entriesAt_diskOf
  constructor
  . constructor
    . rw [hmbr]
      decide
    . rw [hmbr]
      decide
    . intro x hx hlink
      rw [hmbr, List.mem_singleton] at hx
      rw [hx]
      exact .last (by decide) (by decide) entriesAt_diskOf
    . decide
  . rintro ⟨fuel, s', hrun, -⟩
    cases fuel with
    | zero => exact absurd hrun throw_run
    | succ n =>
      have hmbr' : entriesAt ((Disks.boot fun _ => farDisk).hds 1).sectors (0 : UInt32).toNat
          = [⟨5, 163840, 100⟩] := hmbr
      rw [partitionScan, calls_succ (Nat.zero_le _), hmbr', entries_link (by decide),
        bind_run] at hrun
      obtain ⟨_, _, hlink, -⟩ := hrun
      exact absurd (calls_le_maxLba hlink) (by decide)

end Runs

end RogOS
