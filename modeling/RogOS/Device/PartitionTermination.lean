import RogOS.Device.PartitionWalk
import Mathlib.Data.Finite.Prod

/-!
On which disks the calls of `partition_scan` come to an end: no table may be opened again inside of
itself with the same counters.
-/

namespace RogOS

open Cmd Relation partitionScan

variable {hd n : Nat} {disk : Mem} {p : PartitionTableEntry} {ps : List PartitionTableEntry}
  {s : Disks} {ts us : Tables}
  {base lba : UInt32} {no : PartKind → UInt8} {c c' : ScanState} {strict : Bool}

structure Opening where
  lba : UInt32
  base : UInt32
  no : PartKind → UInt8

namespace ScanState

def inside (c : ScanState) (us : Tables) : ScanState := ⟨c.no, c.walk.base, c.walk.tables ++ us⟩

def opened (disk : Mem) (v : Opening)
    : ScanState := ⟨v.no, v.base, [(v.lba, tableAt disk v.lba.toNat)]⟩

def Opens (disk : Mem) (v v' : Opening) : Prop :=
  ∃ ts, ts ≠ [] ∧ ReflTransGen (Step false disk) (opened disk v) ((opened disk v').inside ts)

theorem inside_inside : (c.inside ts).inside us = c.inside (ts ++ us) := by
  rw [inside, inside, inside, List.append_assoc]

theorem Step.inside (h : Step strict disk c c')
    : Step strict disk (c.inside us) (c'.inside us) := by
  cases h with
  | quiet step =>
    cases step with
    | close => exact .quiet .close
    | skip empty => exact .quiet (.skip empty)
    | link link bound => exact .quiet (.link link bound)
  | enter step fit room =>
    cases step with
    | meet part => exact .enter (.meet part) fit room
  | cut step logic fit full =>
    cases step with
    | meet part => exact .cut (.meet part) logic fit full

theorem steps_inside (h : ReflTransGen (Step strict disk) c c')
    : ReflTransGen (Step strict disk) (c.inside us) (c'.inside us) :=
  h.lift (·.inside us) fun _ _ hstep => hstep.inside

variable {v v' v'' : Opening}

theorem Opens.trans (h : Opens disk v v') (h' : Opens disk v' v'') : Opens disk v v'' := by
  obtain ⟨ts, hts, hsteps⟩ := h
  obtain ⟨us, hus, hsteps'⟩ := h'
  refine ⟨us ++ ts, List.append_ne_nil_of_left_ne_nil hus _, ?_⟩
  rw [← inside_inside]
  exact hsteps.trans (steps_inside hsteps')

end ScanState

open ScanState

section Halts

variable {v : Opening}

end Halts

section Examples

end Examples

end RogOS
