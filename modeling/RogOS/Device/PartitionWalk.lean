import RogOS.Lib.Halt
import RogOS.Device.Lemmas.Partition

/-!
On which disks `partition_scan` comes to an end, and on which it stays in its arrays. Both depend on
the order in which the tables of a disk are read, which is described without the counters and the
limits of the code.
-/

namespace RogOS

open Cmd Relation

variable {hd n : Nat} {extLba : UInt32} {disk : Mem} {p : PartitionTableEntry}
  {ps : List PartitionTableEntry} {s s' : Disks}

section Walk

abbrev Tables := List (UInt32 × List PartitionTableEntry)

structure Walk where
  base : UInt32
  tables : Tables

namespace Walk

def target (base : UInt32) (p : PartitionTableEntry)
    : UInt32 := if base ≠ 0 then p.startLba + base else p.startLba

def newBase (base : UInt32) (p : PartitionTableEntry)
    : UInt32 := if base ≠ 0 then base else p.startLba

def found (lba : UInt32) (p : PartitionTableEntry)
    : PartFound := ⟨if lba = 0 then .prime else .logic, lba, p⟩

inductive Step (disk : Mem) : Walk → Option PartFound → Walk → Prop
  | close {base lba : UInt32} {ts : Tables} : Step disk ⟨base, (lba, []) :: ts⟩ none ⟨base, ts⟩
  | skip {base lba : UInt32} {p : PartitionTableEntry} {ps : List PartitionTableEntry} {ts : Tables}
      (empty : p.fsType = 0)
    : Step disk ⟨base, (lba, p :: ps) :: ts⟩ none ⟨base, (lba, ps) :: ts⟩
  | meet {base lba : UInt32} {p : PartitionTableEntry} {ps : List PartitionTableEntry} {ts : Tables}
      (part : p.IsPart)
    : Step disk ⟨base, (lba, p :: ps) :: ts⟩ (some (found lba p)) ⟨base, (lba, ps) :: ts⟩
  | link {base lba : UInt32} {p : PartitionTableEntry} {ps : List PartitionTableEntry} {ts : Tables}
      (link : p.IsLink)
      (bound : (target base p).toNat ≤ maxLba)
    : Step disk ⟨base, (lba, p :: ps) :: ts⟩ none
        ⟨newBase base p, (target base p, tableAt disk (target base p).toNat) :: (lba, ps) :: ts⟩

inductive Lost : Walk → Prop
  | link {base lba : UInt32} {p : PartitionTableEntry} {ps : List PartitionTableEntry} {ts : Tables}
      (link : p.IsLink)
      (bound : maxLba < (target base p).toNat) : Lost ⟨base, (lba, p :: ps) :: ts⟩

inductive Reads (disk : Mem) : Walk → List PartFound → Walk → Prop
  | refl {w : Walk} : Reads disk w [] w
  | quiet {w w' w'' : Walk} {fs : List PartFound} (step : Step disk w none w')
      (rest : Reads disk w' fs w'')
    : Reads disk w fs w''
  | meet {w w' w'' : Walk} {f : PartFound} {fs : List PartFound} (step : Step disk w (some f) w')
      (rest : Reads disk w' fs w'') : Reads disk w (f :: fs) w''

def primes (fs : List PartFound) : Nat := fs.countP (·.kind = .prime)

def logics (fs : List PartFound) : Nat := fs.countP (·.kind = .logic)

def dropTable (w : Walk) : Walk := { w with tables := w.tables.tail }

inductive ReadsCut (disk : Mem) (w : Walk) : List PartFound → Walk → Prop
  | before {fs : List PartFound} {w' : Walk} (reads : Reads disk w fs w') (few : logics fs ≤ 7)
      : ReadsCut disk w fs w'
  | behind {fs gs : List PartFound} {f : PartFound} {w1 w2 w' : Walk} (reads : Reads disk w fs w1)
      (seven : logics fs = 7)
      (step : Step disk w1 (some f) w2) (eighth : f.kind = .logic)
      (rest : Reads disk w2.dropTable gs w')
    : ReadsCut disk w (fs ++ f :: gs) w'

def start (disk : Mem) (base : UInt32) : Walk := ⟨base, [(0, tableAt disk 0)]⟩

variable {w w' w'' : Walk} {f : PartFound} {fs gs : List PartFound} {o o' : Option PartFound}

theorem Step.unique (h : Step disk w o w') (h' : Step disk w o' w'') : o = o' ∧ w' = w'' := by
  cases h with
  | close =>
    cases h'
    exact ⟨rfl, rfl⟩
  | skip empty =>
    cases h' with
    | skip => exact ⟨rfl, rfl⟩
    | meet part => exact absurd empty part.1
    | link link =>
      rw [PartitionTableEntry.IsLink, empty] at link
      contradiction
  | meet part =>
    cases h' with
    | skip empty => exact absurd empty part.1
    | meet => exact ⟨rfl, rfl⟩
    | link link => exact absurd link part.2
  | link link =>
    cases h' with
    | skip empty =>
      rw [PartitionTableEntry.IsLink, empty] at link
      contradiction
    | meet part => exact absurd link part.2
    | link => exact ⟨rfl, rfl⟩

theorem Step.not_lost (h : Step disk w o w') : ¬ w.Lost := by
  intro hl
  cases hl with
  | link link bound =>
    cases h with
    | skip empty =>
      rw [PartitionTableEntry.IsLink, empty] at link
      contradiction
    | meet part => exact absurd link part.2
    | link _ bound' => exact absurd bound' (Nat.not_le.mpr bound)

theorem Reads.trans (h : Reads disk w fs w') (h' : Reads disk w' gs w'')
    : Reads disk w (fs ++ gs) w'' := by
  induction h with
  | refl => exact h'
  | quiet step _ ih => exact .quiet step (ih h')
  | meet step _ ih => exact .meet step (ih h')

theorem logics_append : logics (fs ++ gs) = logics fs + logics gs := List.countP_append

theorem primes_append : primes (fs ++ gs) = primes fs + primes gs := List.countP_append

theorem ReadsCut.quiet (h : ReadsCut disk w fs w') (step : Step disk w' none w'')
    : ReadsCut disk w fs w'' := by
  cases h with
  | before reads few =>
    have := reads.trans (.quiet step .refl)
    rw [List.append_nil] at this
    exact .before this few
  | behind reads seven step8 eighth rest =>
    have := rest.trans (.quiet step .refl)
    rw [List.append_nil] at this
    exact .behind reads seven step8 eighth this

theorem ReadsCut.meet (h : ReadsCut disk w fs w') (step : Step disk w' (some f) w'')
    (hf : f.kind = .prime ∨ logics fs ≠ 7)
    : ReadsCut disk w (fs ++ [f]) w'' := by
  cases h with
  | before reads few =>
    apply ReadsCut.before (reads.trans (.meet step .refl))
    rw [logics_append]
    cases hf with
    | inl hprime => simpa [logics, hprime] using few
    | inr hne =>
      have hone : logics [f] ≤ 1 := List.countP_le_length
      omega
  | behind reads seven step8 eighth rest =>
    rw [List.append_assoc, List.cons_append]
    exact .behind reads seven step8 eighth (rest.trans (.meet step .refl))

theorem ReadsCut.eighth (h : ReadsCut disk w fs w') (step : Step disk w' (some f) w'')
    (hf : f.kind = .logic)
    (hseven : logics fs = 7) : ReadsCut disk w (fs ++ [f]) w''.dropTable := by
  cases h with
  | before reads few => exact .behind reads hseven step hf .refl
  | @behind fs gs g w1 w2 _ reads seven step8 eighth rest =>
    rw [logics_append] at hseven
    have hone : logics (g :: gs) = logics gs + 1 := List.countP_cons_of_pos (by simpa using eighth)
    omega

end Walk

end Walk

section Machine

open partitionScan

structure ScanState where
  no : PartKind → UInt8
  walk : Walk

namespace ScanState

def counted (no : PartKind → UInt8) (kind : PartKind)
    : PartKind → UInt8 := Function.update no kind (no kind + 1)

/--
One step of `partition_scan`: at a logical partition that brings the counter to 8, the rest of its
table is left out.
-/
inductive Step (strict : Bool) (disk : Mem) : ScanState → ScanState → Prop
  | quiet {no : PartKind → UInt8} {w w' : Walk} (step : Walk.Step disk w none w')
      : Step strict disk ⟨no, w⟩ ⟨no, w'⟩
  | enter {no : PartKind → UInt8} {w w' : Walk} {f : PartFound}
      (step : Walk.Step disk w (some f) w')
      (fit : strict → (no f.kind).toNat < f.kind.len) (room : (no f.kind + 1).toNat < f.kind.len)
    : Step strict disk ⟨no, w⟩ ⟨counted no f.kind, w'⟩
  | cut {no : PartKind → UInt8} {w w' : Walk} {f : PartFound} (step : Walk.Step disk w (some f) w')
      (logic : f.kind = .logic)
      (fit : strict → (no .logic).toNat < 8) (full : 8 ≤ (no .logic + 1).toNat)
    : Step strict disk ⟨no, w⟩ ⟨counted no .logic, w'.dropTable⟩

inductive Fails (strict : Bool) (disk : Mem) : ScanState → Fault → Prop
  | lost {no : PartKind → UInt8} {w : Walk} (lost : w.Lost) : Fails strict disk ⟨no, w⟩ .panic
  | fourth {no : PartKind → UInt8} {w w' : Walk} {f : PartFound}
      (step : Walk.Step disk w (some f) w') (prime : f.kind = .prime)
      (fit : strict → (no .prime).toNat < 4) (full : 4 ≤ (no .prime + 1).toNat)
      : Fails strict disk ⟨no, w⟩ .panic
  | behind {no : PartKind → UInt8} {w w' : Walk} {f : PartFound}
      (step : Walk.Step disk w (some f) w') (isStrict : strict)
      (full : f.kind.len ≤ (no f.kind).toNat) : Fails strict disk ⟨no, w⟩ .overrun

end ScanState

open ScanState

variable {c c' : ScanState} {f f' : Fault} {ts : Tables} {d : Nat} {strict : Bool}

theorem ScanState.Step.rightUnique : Relator.RightUnique (Step strict disk) := by
  intro c c1 c2 h1 h2
  cases h1 with
  | quiet step =>
    cases h2 with
    | quiet step' => rw [(step.unique step').2]
    | enter step' => exact absurd (step.unique step').1 (by simp)
    | cut step' => exact absurd (step.unique step').1 (by simp)
  | enter step _ room =>
    cases h2 with
    | quiet step' => exact absurd (step.unique step').1 (by simp)
    | enter step' =>
      obtain ⟨h1, h2⟩ := step.unique step'
      cases h1
      rw [h2]
    | cut step' logic _ full =>
      cases (step.unique step').1
      rw [logic] at room
      exact absurd full (Nat.not_le.mpr room)
  | cut step logic _ full =>
    cases h2 with
    | quiet step' => exact absurd (step.unique step').1 (by simp)
    | enter step' _ room =>
      cases (step.unique step').1
      rw [logic] at room
      exact absurd full (Nat.not_le.mpr room)
    | cut step' =>
      obtain ⟨h1, h2⟩ := step.unique step'
      cases h1
      rw [h2]

theorem Walk.Step.tables_ne {w w' : Walk} {o : Option PartFound} (h : Walk.Step disk w o w')
    : w.tables ≠ [] := by
  cases h <;> exact List.cons_ne_nil _ _

theorem ScanState.Step.tables_ne (h : Step strict disk c c') : c.walk.tables ≠ [] := by
  cases h with
  | quiet step => exact step.tables_ne
  | enter step => exact step.tables_ne
  | cut step => exact step.tables_ne

theorem ScanState.final_nil (h : c.walk.tables = [])
    : Halt.Final (Step strict disk) c := fun _ hstep => hstep.tables_ne h

theorem ScanState.Fails.tables_ne (h : Fails strict disk c f) : c.walk.tables ≠ [] := by
  cases h with
  | lost lost =>
    cases lost
    exact List.cons_ne_nil _ _
  | fourth step => exact step.tables_ne
  | behind step => exact step.tables_ne

theorem ScanState.Fails.final (h : Fails strict disk c f) : Halt.Final (Step strict disk) c := by
  intro c' h'
  cases h with
  | lost lost =>
    cases h' with
    | quiet step => exact step.not_lost lost
    | enter step => exact step.not_lost lost
    | cut step => exact step.not_lost lost
  | fourth step prime _ full =>
    cases h' with
    | quiet step' => exact absurd (step.unique step').1 (by simp)
    | enter step' _ room =>
      cases (step.unique step').1
      rw [prime] at room
      exact absurd full (Nat.not_le.mpr room)
    | cut step' logic =>
      cases (step.unique step').1
      rw [logic] at prime
      contradiction
  | behind step isStrict full =>
    cases h' with
    | quiet step' => exact absurd (step.unique step').1 (by simp)
    | enter step' fit =>
      cases (step.unique step').1
      exact absurd (fit isStrict) (Nat.not_lt.mpr full)
    | cut step' logic fit =>
      cases (step.unique step').1
      rw [logic] at full
      exact absurd (fit isStrict) (Nat.not_lt.mpr full)

theorem ScanState.Fails.unique (h : Fails strict disk c f) (h' : Fails strict disk c f')
    : f = f' := by
  cases h with
  | lost lost =>
    cases h' with
    | lost => rfl
    | fourth => rfl
    | behind step => exact absurd lost step.not_lost
  | fourth step prime fit =>
    cases h' with
    | lost => rfl
    | fourth => rfl
    | behind step' isStrict full =>
      cases (step.unique step').1
      rw [prime] at full
      exact absurd (fit isStrict) (Nat.not_lt.mpr full)
  | behind step isStrict full =>
    cases h' with
    | lost lost => exact absurd lost step.not_lost
    | behind => rfl
    | fourth step' prime fit =>
      cases (step.unique step').1
      rw [prime] at full
      exact absurd (fit isStrict) (Nat.not_lt.mpr full)

def Disks.cursor (s : Disks) (ts : Tables) : ScanState := ⟨s.no, s.extLbaBase, ts⟩

inductive Steps (strict : Bool) (disk : Mem) (hd : Nat) (c : ScanState) (ts : Tables) (d : Nat)
    : Except Fault (Unit × Disks) → Prop
  | ok {u : Unit} {s' : Disks} (sectors : (s'.hds hd).sectors = disk)
      (reach : ReflTransGen (Step strict disk) c (s'.cursor ts))
    : Steps strict disk hd c ts d (.ok (u, s'))
  | fault {c' : ScanState} {f : Fault} (reach : ReflTransGen (Step strict disk) c c')
      (fails : Fails strict disk c' f)
    : Steps strict disk hd c ts d (.error f)
  -- There are as many tables open as the calls may be nested.
  | deep {c' : ScanState} (reach : ReflTransGen (Step strict disk) c c')
      (deep : d ≤ c'.walk.tables.length)
    : Steps strict disk hd c ts d (.error .hang)

theorem Steps.head {x : Except Fault (Unit × Disks)} (hreach : ReflTransGen (Step strict disk) c c')
    (h : Steps strict disk hd c' ts d x) : Steps strict disk hd c ts d x := by
  cases h with
  | ok sectors reach => exact .ok sectors (hreach.trans reach)
  | fault reach fails => exact .fault (hreach.trans reach) fails
  | deep reach deep => exact .deep (hreach.trans reach) deep

theorem Steps.bind {x : DisksM Unit} {k : Unit → DisksM Unit} {ts' : Tables}
    (hx : Steps strict disk hd c ts' d (x.run s))
    (hk : ∀ s', (s'.hds hd).sectors = disk
      → Steps strict disk hd (s'.cursor ts') ts d ((k ()).run s'))
    : Steps strict disk hd c ts d ((x >>= k).run s) := by
  rw [StateT.run_bind]
  generalize x.run s = r at hx
  cases hx with
  | ok sectors reach => exact .head reach (hk _ sectors)
  | fault reach fails => exact .fault reach fails
  | deep reach deep => exact .deep reach deep

theorem link_run {scan : UInt32 → DisksM Unit} : (link scan p).run s
    = (scan (Walk.target s.extLbaBase p)).run { s with
        extLbaBase := Walk.newBase s.extLbaBase p } := by
  rw [link, exec_get_bind, Walk.target, Walk.newBase]
  split <;> rfl

theorem calls_run (h : extLba.toNat ≤ maxLba)
    : (calls strict hd (n + 1) extLba).run s
        =
      (entries strict (calls strict hd n) hd extLba (tableAt (s.hds hd).sectors extLba.toNat)).run
        s := by
  rw [calls, exec_bind (ideRead_ok h)]
  rfl

theorem entries_part_steps {scan : UInt32 → DisksM Unit} {lba : UInt32} (hpart : p.IsPart)
    (hdisk : (s.hds hd).sectors = disk) (ih : ∀ s, (s.hds hd).sectors = disk
      → Steps strict disk hd (s.cursor ((lba, ps) :: ts)) ts d
          ((entries strict scan hd lba ps).run s))
    : Steps strict disk hd (s.cursor ((lba, p :: ps) :: ts)) ts d
        ((entries strict scan hd lba (p :: ps)).run s) := by
  have hmeet := @Walk.Step.meet disk s.extLbaBase lba p ps ts hpart
  by_cases hlba : lba = 0
  . subst hlba
    rw [entries_prime hpart]
    by_cases hfit : strict → (s.no .prime).toNat < 4
    . rw [exec_bind (add_ok hfit), exec_get_bind, exec_assert_bind, added_no, if_pos rfl]
      split
      . next hroom =>
        exact .head (.single (.enter hmeet hfit (UInt8.lt_iff_toNat_lt.mp hroom)))
          (ih _ (added_sectors.trans hdisk))
      . next hfull =>
        have hmax := UInt8.le_iff_toNat_le.mp (UInt8.not_lt.mp hfull)
        exact .fault .refl (.fourth hmeet rfl hfit hmax)
    . obtain ⟨hstrict, hfull⟩ := Classical.not_imp.mp hfit
      rw [StateT.run_bind,
        add_overrun hstrict (show PartKind.prime.len ≤ _ from Nat.le_of_not_lt hfull)]
      exact .fault .refl (.behind hmeet hstrict (Nat.le_of_not_lt hfull))
  . have hfound : Walk.found lba p = ⟨.logic, lba, p⟩ := by rw [Walk.found, if_neg hlba]
    rw [hfound] at hmeet
    rw [entries_logic hpart hlba]
    by_cases hfit : strict → (s.no .logic).toNat < 8
    . rw [exec_bind (add_ok hfit), exec_get_bind, added_no, if_pos rfl]
      split
      . next hfull =>
        exact .ok (added_sectors.trans hdisk)
          (.single (.cut hmeet rfl hfit (UInt8.le_iff_toNat_le.mp hfull)))
      . next hroom =>
        exact .head (.single (.enter hmeet hfit (UInt8.lt_iff_toNat_lt.mp (UInt8.not_le.mp hroom))))
          (ih _ (added_sectors.trans hdisk))
    . obtain ⟨hstrict, hfull⟩ := Classical.not_imp.mp hfit
      rw [StateT.run_bind,
        add_overrun hstrict (show PartKind.logic.len ≤ _ from Nat.le_of_not_lt hfull)]
      exact .fault .refl (.behind hmeet hstrict (Nat.le_of_not_lt hfull))

theorem entries_steps_of {scan : UInt32 → DisksM Unit} {lba : UInt32}
    (hdisk : (s.hds hd).sectors = disk) (hlinks : ∀ p ps s, p.IsLink → (s.hds hd).sectors = disk
      → Steps strict disk hd (s.cursor ((lba, p :: ps) :: ts)) ((lba, ps) :: ts) d
          ((link scan p).run s))
    : Steps strict disk hd (s.cursor ((lba, ps) :: ts)) ts d
        ((entries strict scan hd lba ps).run s) := by
  induction ps generalizing s with
  | nil => exact .ok hdisk (.single (.quiet .close))
  | cons p ps ih =>
    by_cases hlink : p.IsLink
    . rw [entries_link hlink]
      exact .bind (hlinks p ps s hlink hdisk) fun s' => ih
    . by_cases hempty : p.fsType = 0
      . rw [entries, if_neg (show ¬ p.fsType = 5 from hlink), if_neg (by simpa using hempty)]
        exact .head (.single (.quiet (.skip hempty))) (ih hdisk)
      . exact entries_part_steps ⟨hempty, hlink⟩ hdisk fun s => ih

theorem entries_steps {lba : UInt32} (hdisk : (s.hds hd).sectors = disk)
    : Steps strict disk hd (s.cursor ((lba, ps) :: ts)) ts (ts.length + n + 1)
        ((entries strict (calls strict hd n) hd lba ps).run s) := by
  induction n generalizing s ts lba ps with
  | zero =>
    apply entries_steps_of hdisk
    intro p ps s hlink _
    rw [link_run]
    exact .deep .refl (Nat.le_refl _)
  | succ n ih =>
    apply entries_steps_of hdisk
    intro p ps s hlink hdisk
    rw [link_run]
    by_cases hbound : (Walk.target s.extLbaBase p).toNat ≤ maxLba
    . rw [calls_run hbound]
      apply Steps.head (.single (.quiet (.link hlink hbound)))
      have hinner := @ih (tableAt disk (Walk.target s.extLbaBase p).toNat)
        { s with extLbaBase := Walk.newBase s.extLbaBase p } ((lba, ps) :: ts)
          (Walk.target s.extLbaBase p) hdisk
      rw [List.length_cons, Nat.add_right_comm ts.length 1 n] at hinner
      dsimp only
      rw [hdisk]
      exact hinner
    . have hrun : ∀ t : Disks, (calls strict hd (n + 1) (Walk.target s.extLbaBase p)).run t
          = .error .panic := by
        intro t
        rw [calls, Disks.ideRead, StateT.run_bind, exec_assert_bind, if_neg hbound]
        rfl
      rw [hrun]
      exact .fault .refl (.lost (.link hlink (Nat.lt_of_not_le hbound)))

def scanStart (hd : Nat) (s : Disks) : ScanState := ⟨s.no, .start (s.hds hd).sectors s.extLbaBase⟩

theorem calls_steps
    : Steps strict (s.hds hd).sectors hd (scanStart hd s) [] (n + 1)
        ((calls strict hd (n + 1) 0).run s) := by
  rw [calls_run (Nat.zero_le _)]
  have h := @entries_steps hd n _ (tableAt (s.hds hd).sectors (0 : UInt32).toNat) s [] strict 0 rfl
  rw [List.length_nil, Nat.zero_add] at h
  exact h

theorem calls_halts_iff
    : (∃ fuel, (calls strict hd fuel 0).run s ≠ .error .hang)
        ↔
      Halt.Halts (Step strict (s.hds hd).sectors) (scanStart hd s) := by
  constructor
  . rintro ⟨fuel, hne⟩
    cases fuel with
    | zero => exact absurd rfl hne
    | succ n =>
      have hsteps := @calls_steps hd n s strict
      generalize (calls strict hd (n + 1) 0).run s = r at hne hsteps
      cases hsteps with
      | ok _ reach => exact Halt.halts_of_end Step.rightUnique reach (final_nil rfl)
      | fault reach fails => exact Halt.halts_of_end Step.rightUnique reach fails.final
      | deep => exact absurd rfl hne
  . intro h
    obtain ⟨n, hn⟩ := h.bounded Step.rightUnique fun c => c.walk.tables.length
    refine ⟨n + 1, ?_⟩
    intro hhang
    have hsteps := @calls_steps hd n s strict
    rw [hhang] at hsteps
    cases hsteps with
    | fault reach fails => cases fails
    | deep reach deep =>
      have := hn _ reach
      omega

theorem calls_fault_iff (hf : f ≠ .hang)
    : (∃ fuel, (calls strict hd fuel 0).run s = .error f)
        ↔
      ∃ c, ReflTransGen (Step strict (s.hds hd).sectors) (scanStart hd s) c
        ∧ Fails strict (s.hds hd).sectors c f := by
  constructor
  . rintro ⟨fuel, hrun⟩
    cases fuel with
    | zero => exact absurd (Except.error.inj hrun) hf.symm
    | succ n =>
      have hsteps := @calls_steps hd n s strict
      rw [hrun] at hsteps
      cases hsteps with
      | fault reach fails => exact ⟨_, reach, fails⟩
      | deep => exact absurd rfl hf
  . rintro ⟨c, hc, hfails⟩
    obtain ⟨fuel, hne⟩ := calls_halts_iff.mpr (Halt.halts_of_end Step.rightUnique hc hfails.final)
    refine ⟨fuel, ?_⟩
    cases fuel with
    | zero => exact absurd rfl hne
    | succ n =>
      have hsteps := @calls_steps hd n s strict
      generalize (calls strict hd (n + 1) 0).run s = r at hne hsteps
      cases hsteps with
      | ok _ reach =>
        have hend := Halt.end_unique Step.rightUnique reach (final_nil rfl) hc hfails.final
        rw [hend] at hfails
        exact absurd rfl hfails.tables_ne
      | fault reach fails =>
        rw [Halt.end_unique Step.rightUnique reach fails.final hc hfails.final] at hfails
        rw [hfails.unique fails]
      | deep => exact absurd rfl hne

end Machine

section Simulation

open partitionScan Walk ScanState

variable {w w' w0 : Walk} {c c' : ScanState} {f : PartFound} {fs : List PartFound} {a l : Nat}
  {e : Fault}

structure ScanAt (w : Walk) (a l : Nat) (c : ScanState) : Prop where
  walk : c.walk = w
  prime : (c.no .prime).toNat = a
  logic : (c.no .logic).toNat = l

theorem primes_cons : primes (f :: fs) = primes [f] + primes fs := @primes_append [f] fs

theorem logics_cons : logics (f :: fs) = logics [f] + logics fs := @logics_append [f] fs

theorem primes_prime (h : f.kind = .prime)
    : primes [f] = 1 := List.countP_cons_of_pos (by simpa using h)

theorem primes_logic (h : f.kind = .logic) : primes [f] = 0 := List.countP_cons_of_neg (by simp [h])

theorem logics_prime (h : f.kind = .prime) : logics [f] = 0 := List.countP_cons_of_neg (by simp [h])

theorem logics_logic (h : f.kind = .logic)
    : logics [f] = 1 := List.countP_cons_of_pos (by simpa using h)

theorem ScanAt.quiet (h : ScanAt w a l c) (step : Walk.Step disk w none w')
    : ∃ c', Step true disk c c' ∧ ScanAt w' a l c' := by
  obtain ⟨no, walk⟩ := c
  obtain ⟨rfl, hprime, hlogic⟩ := h
  exact ⟨⟨no, w'⟩, .quiet step, rfl, hprime, hlogic⟩

theorem counted_apply {no : PartKind → UInt8} {kind kind' : PartKind}
    : counted no kind kind' = if kind' = kind then no kind + 1 else no kind' := by
  rw [counted, Function.update_apply]

theorem counted_toNat {no : PartKind → UInt8} {kind : PartKind} (h : (no kind).toNat < kind.len)
    : (no kind + 1).toNat = (no kind).toNat + 1 := by
  have hlen : kind.len ≤ 8 := by cases kind <;> decide
  rw [UInt8.toNat_add, UInt8.toNat_one]
  omega

theorem counted_scanAt (h : ScanAt w a l c) (hroom : (c.no f.kind).toNat < f.kind.len)
    : ScanAt w' (a + primes [f]) (l + logics [f]) ⟨counted c.no f.kind, w'⟩ := by
  refine ⟨rfl, ?_, ?_⟩
  . dsimp only
    rw [counted_apply]
    split
    . next heq => rw [counted_toNat hroom, ← heq, h.prime, primes_prime heq.symm]
    . next hne => rw [h.prime, primes_logic (by cases hkind : f.kind <;> simp_all), Nat.add_zero]
  . dsimp only
    rw [counted_apply]
    split
    . next heq => rw [counted_toNat hroom, ← heq, h.logic, logics_logic heq.symm]
    . next hne => rw [h.logic, logics_prime (by cases hkind : f.kind <;> simp_all), Nat.add_zero]

theorem ScanAt.room (h : ScanAt w a l c) (hprime : a + primes [f] ≤ 4) (hlogic : l + logics [f] ≤ 8)
    : (c.no f.kind).toNat < f.kind.len := by
  cases hkind : f.kind with
  | prime =>
    rw [primes_prime hkind] at hprime
    rw [h.prime]
    show a < 4
    omega
  | logic =>
    rw [logics_logic hkind] at hlogic
    rw [h.logic]
    show l < 8
    omega

theorem ScanAt.meet (h : ScanAt w a l c) (step : Walk.Step disk w (some f) w')
    (hprime : a + primes [f] ≤ 3) (hlogic : l + logics [f] ≤ 7 ∨ logics [f] = 0 ∧ l ≤ 8)
    : ∃ c', Step true disk c c' ∧ ScanAt w' (a + primes [f]) (l + logics [f]) c' := by
  have hroom : (c.no f.kind).toNat < f.kind.len := h.room (by omega) (by omega)
  have hat := @counted_scanAt w w' c f a l h hroom
  obtain ⟨no, walk⟩ := c
  obtain ⟨rfl, ha, hl⟩ := h
  dsimp only at *
  refine ⟨_, .enter step (fun _ => hroom) ?_, hat⟩
  rw [counted_toNat hroom]
  cases hkind : f.kind with
  | prime =>
    rw [primes_prime hkind] at hprime
    rw [ha]
    show a + 1 < 4
    omega
  | logic =>
    rw [logics_logic hkind] at hlogic
    rw [hl]
    show l + 1 < 8
    omega

theorem ScanAt.eighth (h : ScanAt w a 7 c) (step : Walk.Step disk w (some f) w')
    (hkind : f.kind = .logic)
    : ∃ c', Step true disk c c' ∧ ScanAt w'.dropTable a 8 c' := by
  have hroom : (c.no f.kind).toNat < f.kind.len := by
    rw [hkind, h.logic]
    decide
  have hat := @counted_scanAt w w'.dropTable c f a 7 h hroom
  rw [primes_logic hkind, logics_logic hkind, hkind] at hat
  rw [hkind] at hroom
  obtain ⟨no, walk⟩ := c
  obtain ⟨rfl, ha, hl⟩ := h
  dsimp only at *
  exact ⟨_, .cut step hkind (fun _ => hroom) (by rw [counted_toNat hroom, hl]), hat⟩

theorem ScanAt.ninth (h : ScanAt w a l c) (step : Walk.Step disk w (some f) w')
    (hkind : f.kind = .logic) (hfull : 8 ≤ l)
    : Fails true disk c .overrun := by
  obtain ⟨no, walk⟩ := c
  obtain ⟨rfl, -, hl⟩ := h
  apply Fails.behind step rfl
  rw [hkind]
  exact hfull.trans hl.ge

theorem ScanAt.fault (h : ScanAt w a l c) (step : Walk.Step disk w (some f) w') (hprime : a ≤ 3)
    (hlogic : l ≤ 8)
    (hover : 4 ≤ a + primes [f] ∨ 9 ≤ l + logics [f]) : ∃ e, e ≠ .hang ∧ Fails true disk c e := by
  cases hkind : f.kind with
  | prime =>
    rw [primes_prime hkind, logics_prime hkind] at hover
    obtain ⟨no, walk⟩ := c
    obtain ⟨rfl, ha, -⟩ := h
    have ha : (no .prime).toNat = a := ha
    have hroom : (no .prime).toNat < PartKind.prime.len := by
      show _ < 4
      omega
    refine ⟨_, by decide, .fourth step hkind (fun _ => hroom) ?_⟩
    rw [counted_toNat hroom]
    omega
  | logic =>
    rw [primes_logic hkind, logics_logic hkind] at hover
    exact ⟨_, by decide, h.ninth step hkind (by omega)⟩

theorem ScanAt.lost (h : ScanAt w a l c) (hlost : w.Lost) : Fails true disk c .panic := by
  obtain ⟨no, walk⟩ := c
  obtain ⟨rfl, -, -⟩ := h
  exact .lost hlost

theorem ScanAt.reads (h : ScanAt w a l c) (hreads : Reads disk w fs w') (hprime : a ≤ 3)
    (hlogic : l + logics fs ≤ 7 ∨ l = 8)
    : if a + primes fs ≤ 3 ∧ l + logics fs ≤ 8 then
        ∃ c', ReflTransGen (Step true disk) c c' ∧ ScanAt w' (a + primes fs) (l + logics fs) c'
      else
        ∃ c' e, ReflTransGen (Step true disk) c c' ∧ e ≠ .hang ∧ Fails true disk c' e := by
  induction hreads generalizing a l c with
  | refl =>
    rw [if_pos ⟨hprime, by simp only [logics, List.countP_nil] at hlogic ⊢; omega⟩]
    exact ⟨c, .refl, h⟩
  | quiet step _ ih =>
    obtain ⟨c1, hstep, hat⟩ := h.quiet step
    have hrest := ih hat hprime hlogic
    split
    . next hfit =>
      rw [if_pos hfit] at hrest
      obtain ⟨c2, hreach, hat⟩ := hrest
      exact ⟨c2, .head hstep hreach, hat⟩
    . next hfit =>
      rw [if_neg hfit] at hrest
      obtain ⟨c2, e, hreach, hfault⟩ := hrest
      exact ⟨c2, e, .head hstep hreach, hfault⟩
  | @meet w w1 w' f fs step _ ih =>
    rw [primes_cons, logics_cons] at *
    rw [← Nat.add_assoc, ← Nat.add_assoc]
    by_cases hone : a + primes [f] ≤ 3 ∧ l + logics [f] ≤ 8
    . obtain ⟨c1, hstep, hat⟩ := h.meet step hone.1 (by omega)
      have hrest := ih hat hone.1 (by omega)
      split
      . next hfit =>
        rw [if_pos hfit] at hrest
        obtain ⟨c2, hreach, hat⟩ := hrest
        exact ⟨c2, .head hstep hreach, hat⟩
      . next hfit =>
        rw [if_neg hfit] at hrest
        obtain ⟨c2, e, hreach, hfault⟩ := hrest
        exact ⟨c2, e, .head hstep hreach, hfault⟩
    . rw [if_neg (by omega)]
      obtain ⟨e, hfault⟩ := h.fault step hprime (by omega) (by omega)
      exact ⟨c, e, .refl, hfault⟩

theorem ScanAt.readsCut (h : ScanAt w 0 0 c) (hreads : ReadsCut disk w fs w')
    : if primes fs ≤ 3 ∧ logics fs ≤ 8 then
        ∃ c', ReflTransGen (Step true disk) c c' ∧ ScanAt w' (primes fs) (logics fs) c'
      else
        ∃ c' e, ReflTransGen (Step true disk) c c' ∧ e ≠ .hang ∧ Fails true disk c' e := by
  cases hreads with
  | before reads few =>
    have := h.reads reads (Nat.zero_le _) (.inl (by omega))
    rw [Nat.zero_add, Nat.zero_add] at this
    exact this
  | @behind fs gs f w1 w2 _ reads seven step8 eighth rest =>
    have hbefore := h.reads reads (Nat.zero_le _) (.inl (by omega))
    rw [Nat.zero_add, Nat.zero_add, seven] at hbefore
    rw [primes_append, logics_append, primes_cons, logics_cons, primes_logic eighth,
      logics_logic eighth, seven, Nat.zero_add, ← Nat.add_assoc]
    by_cases hfew : primes fs ≤ 3
    . rw [if_pos ⟨hfew, by decide⟩] at hbefore
      obtain ⟨c1, hreach1, hat1⟩ := hbefore
      obtain ⟨c2, hstep, hat2⟩ := hat1.eighth step8 eighth
      have hbehind := hat2.reads rest hfew (.inr rfl)
      have hreach2 := hreach1.tail hstep
      split
      . next hfit =>
        rw [if_pos hfit] at hbehind
        obtain ⟨c3, hreach, hat⟩ := hbehind
        exact ⟨c3, hreach2.trans hreach, hat⟩
      . next hfit =>
        rw [if_neg hfit] at hbehind
        obtain ⟨c3, e, hreach, hfault⟩ := hbehind
        exact ⟨c3, e, hreach2.trans hreach, hfault⟩
    . rw [if_neg (by omega)] at hbefore
      rw [if_neg (by omega)]
      exact hbefore

theorem ScanAt.of_reach (h : ScanAt w 0 0 c) (hreach : ReflTransGen (Step true disk) c c')
    : ∃ fs w', ReadsCut disk w fs w' ∧ ScanAt w' (primes fs) (logics fs) c' ∧ primes fs ≤ 3
        ∧ logics fs ≤ 8 := by
  induction hreach with
  | refl => exact ⟨[], w, .before .refl (Nat.zero_le _), h, Nat.zero_le _, Nat.zero_le _⟩
  | @tail c1 c2 _ hstep ih =>
    obtain ⟨fs, w1, hreads, hat, hprime, hlogic⟩ := ih
    cases hstep with
    | @quiet no w2 w3 step =>
      obtain ⟨rfl, ha, hl⟩ := hat
      exact ⟨fs, w3, hreads.quiet step, ⟨rfl, ha, hl⟩, hprime, hlogic⟩
    | @enter no w2 w3 f step fit room =>
      have hat2 := @counted_scanAt w1 w3 _ f _ _ hat (fit rfl)
      rw [← primes_append, ← logics_append] at hat2
      obtain ⟨rfl, ha, hl⟩ := hat
      rw [counted_toNat (fit rfl)] at room
      have hfit : (f.kind = .prime ∨ logics fs ≠ 7) ∧ primes (fs ++ [f]) ≤ 3 ∧ logics (fs ++ [f])
          ≤ 8 := by
        rw [primes_append, logics_append]
        cases hkind : f.kind with
        | prime =>
          rw [hkind, show (no .prime).toNat = _ from ha] at room
          have room : primes fs + 1 < 4 := room
          rw [primes_prime hkind, logics_prime hkind]
          exact ⟨.inl rfl, by omega, hlogic⟩
        | logic =>
          rw [hkind, show (no .logic).toNat = _ from hl] at room
          have room : logics fs + 1 < 8 := room
          rw [primes_logic hkind, logics_logic hkind]
          exact ⟨.inr (by omega), hprime, by omega⟩
      exact ⟨fs ++ [f], w3, hreads.meet step hfit.1, hat2, hfit.2⟩
    | @cut no w2 w3 f step logic fit full =>
      have hroom : (no f.kind).toNat < f.kind.len := by
        rw [logic]
        exact fit rfl
      have hat2 := @counted_scanAt w1 w3.dropTable _ f _ _ hat hroom
      rw [← primes_append, ← logics_append] at hat2
      obtain ⟨rfl, ha, hl⟩ := hat
      have hseven : logics fs = 7 := by
        have hl : (no .logic).toNat = _ := hl
        rw [counted_toNat (show _ < PartKind.logic.len from fit rfl), hl] at full
        have hlt := fit rfl
        omega
      rw [logic] at hat2
      refine ⟨fs ++ [f], w3.dropTable, hreads.eighth step logic hseven, hat2, ?_⟩
      rw [primes_append, logics_append, primes_logic logic, logics_logic logic]
      omega

theorem scanStart_at (hno : ∀ kind, s.no kind = 0)
    : ScanAt (Walk.start (s.hds hd).sectors s.extLbaBase) 0 0 (scanStart hd s) := by
  refine ⟨rfl, ?_, ?_⟩ <;> exact congrArg UInt8.toNat (hno _)

def ScanSafe (hd : Nat) (s : Disks) : Prop :=
  ∀ fuel, (partitionScan hd fuel 0).run s ≠ .error .overrun ∧ (partitionScan hd fuel 0).run s
    ≠ .error .panic

theorem ScanState.Fails.eq_or (h : Fails strict disk c e) : e = .panic ∨ e = .overrun := by
  cases h with
  | lost => exact .inl rfl
  | fourth => exact .inl rfl
  | behind => exact .inr rfl

theorem scanSafe_iff_steps
    : ScanSafe hd s
        ↔
      ∀ c e, ReflTransGen (Step true (s.hds hd).sectors) (scanStart hd s) c
        → ¬ Fails true (s.hds hd).sectors c e := by
  constructor
  . intro h c e hreach hfails
    cases hfails.eq_or with
    | inl he =>
      subst he
      obtain ⟨fuel, hrun⟩ := (calls_fault_iff (by decide)).mpr ⟨c, hreach, hfails⟩
      exact (h fuel).2 hrun
    | inr he =>
      subst he
      obtain ⟨fuel, hrun⟩ := (calls_fault_iff (by decide)).mpr ⟨c, hreach, hfails⟩
      exact (h fuel).1 hrun
  . intro h fuel
    constructor
    . intro hrun
      obtain ⟨c, hreach, hfails⟩ := (calls_fault_iff (by decide)).mp ⟨fuel, hrun⟩
      exact h c _ hreach hfails
    . intro hrun
      obtain ⟨c, hreach, hfails⟩ := (calls_fault_iff (by decide)).mp ⟨fuel, hrun⟩
      exact h c _ hreach hfails

theorem scanSafe_of_isOk (h : ((partitionScan hd (n + 1) 0).run s).isOk) : ScanSafe hd s := by
  have hsteps : Steps true (s.hds hd).sectors hd (scanStart hd s) [] (n + 1)
      ((partitionScan hd (n + 1) 0).run s) := calls_steps
  rw [scanSafe_iff_steps]
  intro c e hreach hfails
  generalize (partitionScan hd (n + 1) 0).run s = r at h hsteps
  cases hsteps with
  | ok _ hend =>
    have hc := Halt.end_unique Step.rightUnique hend (final_nil rfl) hreach hfails.final
    rw [hc] at hfails
    exact hfails.tables_ne rfl
  | fault => cases h
  | deep => cases h

/--
The arrays suffice and the assertions hold if and only if the tables have at most three primary and
eight logical partitions, and no link leads behind `max_lba`.
-/
theorem partitionScan_safe_iff (hno : ∀ kind, s.no kind = 0)
    : ScanSafe hd s
        ↔
      ∀ fs w, ReadsCut (s.hds hd).sectors (Walk.start (s.hds hd).sectors s.extLbaBase) fs w →
        ¬ w.Lost ∧ primes fs ≤ 3 ∧ logics fs ≤ 8 := by
  have hstart := @scanStart_at hd s hno
  rw [scanSafe_iff_steps]
  constructor
  . intro h fs w hreads
    have hscan := hstart.readsCut hreads
    split at hscan
    . next hfit =>
      obtain ⟨c, hreach, hat⟩ := hscan
      exact ⟨fun hlost => h c _ hreach (hat.lost hlost), hfit⟩
    . obtain ⟨c, e, hreach, -, hfails⟩ := hscan
      exact absurd hfails (h c e hreach)
  . intro h c e hreach hfails
    obtain ⟨fs, w, hreads, hat, hprime, hlogic⟩ := hstart.of_reach hreach
    cases hfails with
    | lost lost =>
      obtain ⟨rfl, -, -⟩ := hat
      exact (h fs _ hreads).1 lost
    | @fourth no _ _ _ step prime fit full =>
      obtain ⟨rfl, ha, -⟩ := hat
      have hmore := (h _ _ (hreads.meet step (.inl prime))).2.1
      have ha : (no .prime).toNat = primes fs := ha
      rw [counted_toNat (show _ < PartKind.prime.len from fit rfl), ha] at full
      rw [primes_append, primes_prime prime] at hmore
      omega
    | @behind no _ _ f step _ full =>
      obtain ⟨rfl, ha, hl⟩ := hat
      cases hkind : f.kind with
      | prime =>
        rw [hkind, show (no .prime).toNat = _ from ha] at full
        exact absurd full (Nat.not_le.mpr (Nat.lt_succ_of_le hprime))
      | logic =>
        rw [hkind, show (no .logic).toNat = _ from hl] at full
        have full : 8 ≤ logics fs := full
        have hmore := (h _ _ (hreads.meet step (.inr (by omega)))).2.2
        rw [logics_append, logics_logic hkind] at hmore
        omega

def fullDisk : Mem :=
  diskOf [(0, [⟨0x83, 63, 500⟩, ⟨0x83, 600, 300⟩, ⟨5, 1000, 9000⟩, ⟨0x83, 10000, 500⟩]),
    (1000, [⟨0x83, 1, 10⟩, ⟨0x83, 11, 10⟩, ⟨0x83, 21, 10⟩, ⟨5, 1000, 1000⟩]),
    (2000, [⟨0x83, 1, 10⟩, ⟨5, 2000, 1000⟩]),
    (3000, [⟨0x83, 1, 10⟩, ⟨0x83, 11, 10⟩, ⟨0x83, 21, 10⟩, ⟨0x83, 31, 10⟩])]

theorem partitionScan_safe_fullDisk
    : ScanSafe 1 (.boot fun _ => fullDisk)
        ∧ ∀ fs w, ReadsCut fullDisk (Walk.start fullDisk 0) fs w → ¬ w.Lost ∧ primes fs ≤ 3
            ∧ logics fs ≤ 8 := by
  have hsafe : ScanSafe 1 (.boot fun _ => fullDisk) := @scanSafe_of_isOk 1 3 _ (by decide +kernel)
  exact ⟨hsafe, (partitionScan_safe_iff fun _ => rfl).mp hsafe⟩

def fourDisk
    : Mem := diskOf
        [(0, [⟨0x83, 63, 5000⟩, ⟨0x83, 6000, 5000⟩, ⟨0x83, 12000, 5000⟩, ⟨0x83, 18000, 5000⟩])]

def nineDisk : Mem :=
  diskOf [(0, [⟨5, 1000, 9000⟩]),
    (1000, [⟨0x83, 1, 10⟩, ⟨0x83, 11, 10⟩, ⟨0x83, 21, 10⟩, ⟨5, 1000, 1000⟩]),
    (2000, [⟨0x83, 1, 10⟩, ⟨0x83, 11, 10⟩, ⟨0x83, 21, 10⟩, ⟨5, 2000, 1000⟩]),
    (3000, [⟨0x83, 1, 10⟩, ⟨5, 3000, 1000⟩, ⟨0x83, 11, 10⟩]),
    (4000, [⟨0x83, 1, 10⟩])]

theorem Walk.Reads.follow {base lba : UInt32} {table : List PartitionTableEntry} (hlink : p.IsLink)
    (hbound : (target base p).toNat ≤ maxLba) (htable : tableAt disk (target base p).toNat = table)
    (h : Reads disk ⟨newBase base p, (target base p, table) :: (lba, ps) :: ts⟩ fs w)
    : Reads disk ⟨base, (lba, p :: ps) :: ts⟩ fs w := by
  rw [← htable] at h
  exact .quiet (.link hlink hbound) h

def nineWalk : Walk where
  base := 1000
  tables :=
    [(4000, [⟨0x83, 1, 10⟩, .empty, .empty, .empty]), (3000, [⟨0x83, 11, 10⟩, .empty]), (2000, []),
      (1000, []),
      (0, [.empty, .empty, .empty])]

theorem nineDisk_reads
    : ∃ fs, Reads nineDisk (Walk.start nineDisk 0) fs nineWalk ∧ primes fs = 0 ∧ logics fs = 7 := by
  have h0 : tableAt nineDisk 0 = [⟨5, 1000, 9000⟩, .empty, .empty, .empty] := tableAt_diskOf
  refine ⟨[found 1000 ⟨0x83, 1, 10⟩, found 1000 ⟨0x83, 11, 10⟩, found 1000 ⟨0x83, 21, 10⟩,
    found 2000 ⟨0x83, 1, 10⟩,
    found 2000 ⟨0x83, 11, 10⟩, found 2000 ⟨0x83, 21, 10⟩, found 3000 ⟨0x83, 1, 10⟩], ?_, ?_⟩
  . rw [Walk.start, h0]
    apply Reads.follow (by decide) (by decide) tableAt_diskOf
    apply Reads.meet (.meet (by decide))
    apply Reads.meet (.meet (by decide))
    apply Reads.meet (.meet (by decide))
    apply Reads.follow (by decide) (by decide) tableAt_diskOf
    apply Reads.meet (.meet (by decide))
    apply Reads.meet (.meet (by decide))
    apply Reads.meet (.meet (by decide))
    apply Reads.follow (by decide) (by decide) tableAt_diskOf
    apply Reads.meet (.meet (by decide))
    apply Reads.follow (by decide) (by decide) tableAt_diskOf
    exact .refl
  . decide

/--
Four primary partitions fail an assertion, and a ninth logical one is written behind its array.
-/
theorem not_scanSafe_fourDisk
    : ¬ ScanSafe 1 (.boot fun _ => fourDisk) ∧ ∃ fuel, (partitionScan 1 fuel 0).run (.boot fun _ =>
        nineDisk) = .error .overrun := by
  constructor
  . intro h
    exact (h 1).2 rfl
  . have hstart : ScanAt (Walk.start nineDisk 0) 0 0 (scanStart 1 (.boot fun _ => nineDisk)) :=
      @scanStart_at 1 (.boot fun _ => nineDisk) fun _ => rfl
    obtain ⟨fs, hreads, hprime, hseven⟩ := nineDisk_reads
    have hmeet : Step nineDisk nineWalk (some (found 4000 ⟨0x83, 1, 10⟩)) _ := .meet (by decide)
    have hscan := hstart.readsCut (.behind hreads hseven hmeet rfl .refl)
    rw [primes_append, logics_append, hprime, hseven, if_pos (by decide)] at hscan
    obtain ⟨c, hreach, hat⟩ := hscan
    apply (calls_fault_iff (by decide)).mpr
    refine ⟨c, hreach, ?_⟩
    have hninth : Step nineDisk ⟨1000, (3000, [⟨0x83, 11, 10⟩, .empty]) :: nineWalk.tables.drop 2⟩
        (some (found 3000 ⟨0x83, 11, 10⟩)) _ := .meet (by decide)
    exact hat.ninth hninth rfl (by decide)

end Simulation

end RogOS
