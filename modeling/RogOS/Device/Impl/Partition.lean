import RogOS.Fs.Basic

/-!
`ide.c`: finding the partitions of the disks. The information that a disk gives about itself is only
printed and left out, and so are the ports, the locks and the semaphores of the channels.
-/

namespace RogOS

structure PartitionTableEntry where
  fsType : UInt8
  startLba : UInt32
  secCnt : UInt32
  deriving DecidableEq, Repr

def PartitionTableEntry.at (bs : Mem) (idx : Nat) : PartitionTableEntry where
  fsType := bs (446 + idx * 16 + 4)
  startLba := bs.word (446 + idx * 16 + 8)
  secCnt := bs.word (446 + idx * 16 + 12)

def partitionTable (bs : Mem)
    : List PartitionTableEntry := (List.range 4).map (PartitionTableEntry.at bs)

inductive PartKind where
  -- `prime_parts`
  | prime
  -- `logic_parts`
  | logic
  deriving DecidableEq, Repr

def PartKind.len : PartKind → Nat
  | .prime => 4
  | .logic => 8

def PartKind.firstNo : PartKind → Nat
  | .prime => 1
  | .logic => 5

structure HdPart where
  startLba : UInt32
  secCnt : UInt32
  myDisk : Option Nat
  name : List UInt8
  deriving DecidableEq, Repr

def HdPart.zero : HdPart := ⟨0, 0, none, []⟩

structure Hd where
  sectors : Mem
  name : List UInt8
  parts : PartKind → Nat → HdPart

structure PartTag where
  hd : Nat
  kind : PartKind
  idx : Nat
  deriving DecidableEq, Repr

/--
The disks and the globals of `ide.c`. Disk `dev_no` of channel `channel_no` has the number `2 *
channel_no + dev_no`.
-/
structure Disks where
  hds : Nat → Hd
  extLbaBase : UInt32
  -- `p_no` and `l_no`
  no : PartKind → UInt8
  partitionList : List PartTag

abbrev DisksM := Cmd Fault Disks

def Disks.boot (disks : Nat → Mem)
    : Disks := ⟨fun hd => ⟨disks hd, [], fun _ _ => .zero⟩, 0, fun _ => 0, []⟩

def decimal (n : Nat) : List UInt8 := (Nat.toDigits 10 n).map fun c => UInt8.ofNat c.toNat

def Disks.ideRead (hd : Nat) (lba : UInt32) : DisksM Mem := do
  Cmd.assert .panic (lba.toNat ≤ maxLba)
  let s ← get
  pure (((s.hds hd).sectors.shift (lba.toNat * 512)).clip 512)

def Disks.setPart (s : Disks) (tag : PartTag) (part : HdPart) : Disks :=
  { s with
    hds := Function.update s.hds tag.hd
      { s.hds tag.hd with
        parts := Function.update (s.hds tag.hd).parts tag.kind
          (Function.update ((s.hds tag.hd).parts tag.kind) tag.idx part) } }

namespace partitionScan

def tag (hd : Nat) (kind : PartKind) (s : Disks) : PartTag := ⟨hd, kind, (s.no kind).toNat⟩

def part (hd : Nat) (kind : PartKind) (extLba : UInt32) (p : PartitionTableEntry) (s : Disks)
    : HdPart where
  startLba := extLba + p.startLba
  secCnt := p.secCnt
  myDisk := some hd
  name := (s.hds hd).name ++ decimal ((s.no kind).toNat + kind.firstNo)

def added (hd : Nat) (kind : PartKind) (extLba : UInt32) (p : PartitionTableEntry) (s : Disks)
    : Disks :=
  { s.setPart (tag hd kind s) (part hd kind extLba p s) with
    partitionList := s.partitionList ++ [tag hd kind s]
    no := Function.update s.no kind (s.no kind + 1) }

/--
The source does not look at the index. With `strict` the model stops at a write behind the array;
without it, what is there is taken for memory that `partition_scan` does not use.
-/
def add (strict : Bool) (hd : Nat) (kind : PartKind) (extLba : UInt32) (p : PartitionTableEntry)
    : DisksM Unit := do
  let s ← get
  Cmd.assert .overrun (strict → (s.no kind).toNat < kind.len)
  modify (added hd kind extLba p)

def link (scan : UInt32 → DisksM Unit) (p : PartitionTableEntry) : DisksM Unit := do
  let s ← get
  if s.extLbaBase ≠ 0 then
    scan (p.startLba + s.extLbaBase)
  else
    modify fun s => { s with extLbaBase := p.startLba }
    scan p.startLba

def entries (strict : Bool) (scan : UInt32 → DisksM Unit) (hd : Nat) (extLba : UInt32)
    : List PartitionTableEntry → DisksM Unit
  | [] => pure ()
  | p :: ps =>
    if p.fsType = 5 then do
      link scan p
      entries strict scan hd extLba ps
    else if p.fsType ≠ 0 then
      if extLba = 0 then do
        add strict hd .prime extLba p
        let s ← get
        Cmd.assert .panic (s.no .prime < 4)
        entries strict scan hd extLba ps
      else do
        add strict hd .logic extLba p
        let s ← get
        if 8 ≤ s.no .logic then
          pure ()
        else
          entries strict scan hd extLba ps
    else
      entries strict scan hd extLba ps

def calls (strict : Bool) (hd : Nat) : (fuel : Nat) → (extLba : UInt32) → DisksM Unit
  | 0, _ => throw .hang
  | fuel + 1, extLba => do
    let bs ← Disks.ideRead hd extLba
    entries strict (calls strict hd fuel) hd extLba (partitionTable bs)

end partitionScan

def partitionScan (hd : Nat)
    : (fuel : Nat) → (extLba : UInt32) → DisksM Unit := partitionScan.calls true hd

namespace ideInit

def disk (fuel : Nat) (hd : Nat) : DisksM Unit := do
  modify fun s =>
    { s with hds := Function.update s.hds hd { s.hds hd with
      name := [115, 100, UInt8.ofNat (97 + hd)] } }
  if hd % 2 ≠ 0 then
    partitionScan hd fuel 0
  modify fun s => { s with no := fun _ => 0 }

def disks (fuel : Nat) : List Nat → DisksM Unit
  | [] => pure ()
  | hd :: hds => do
    disk fuel hd
    disks fuel hds

def channels (fuel : Nat) : (n channelNo : Nat) → DisksM Unit
  | 0, _ => pure ()
  | n + 1, channelNo => do
    -- `channels` has two elements
    Cmd.assert .overrun (channelNo < 2)
    disks fuel [2 * channelNo, 2 * channelNo + 1]
    channels fuel n (channelNo + 1)

end ideInit

def ideInit (fuel : Nat) (hdCnt : UInt8) : DisksM Unit := do
  Cmd.assert .panic (0 < hdCnt)
  modify fun s => { s with partitionList := [] }
  ideInit.channels fuel ((hdCnt.toNat + 1) / 2) 0

end RogOS
