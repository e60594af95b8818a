import RogOS.Device.Impl.Partition
import RogOS.Fs.Impl.Format
import RogOS.Lib.Cmd

/-!
The loop of `filesys_init` that looks for the file systems on the disks, and formats the partitions
that have none.
-/

namespace RogOS

structure FormatSearch where
  hds : Nat → Hd
  formatted : List PartTag

abbrev FormatSearchM := Cmd Fault FormatSearch

namespace FormatSearch

def part (s : FormatSearch) (t : PartTag) : HdPart := (s.hds t.hd).parts t.kind t.idx

def vol (hd : Nat) (s : FormatSearch) : Vol := ⟨(s.hds hd).sectors, Mem.zero, Mem.zero⟩

def setVol (hd : Nat) (s : FormatSearch) (v : Vol) : FormatSearch :=
  { s with hds := Function.update s.hds hd { s.hds hd with sectors := v.disk } }

def onHd {α : Type} (hd : Nat) (x : VolM α) : FormatSearchM α := Cmd.zoom (vol hd) (setVol hd) x

def format (p : HdPart) : FormatSearchM Unit :=
  match p.myDisk with
  | none => throw .badPtr
  | some hd => onHd hd (partitionFormat p.startLba p.secCnt)

def visit (t : PartTag) : FormatSearchM Unit := do
  let s ← get
  if (s.part t).secCnt ≠ 0 then do
    let sbBuf ← onHd t.hd (ideRead ((s.part t).startLba + 1) 1)
    if (decodeSuperBlock sbBuf).magic = 0x19590318 then
      pure ()
    else do
      modify fun s => { s with formatted := s.formatted ++ [t] }
      format (s.part t)

def parts (hd : Nat)
    : (n : Nat) → (partIdx : UInt8) → (kind : PartKind) → (idx : Nat) → FormatSearchM UInt8
  | 0, partIdx, _, _ => pure partIdx
  | n + 1, partIdx, kind, idx =>
    if partIdx = 4 then do
      visit ⟨hd, .logic, 0⟩
      parts hd n (partIdx + 1) .logic 1
    else do
      visit ⟨hd, kind, idx⟩
      parts hd n (partIdx + 1) kind (idx + 1)

def disks (channelNo : Nat) : (devNos : List Nat) → (partIdx : UInt8) → FormatSearchM UInt8
  | [], partIdx => pure partIdx
  | devNo :: devNos, partIdx =>
    if devNo = 0 then
      disks channelNo devNos partIdx
    else do
      let partIdx ← parts (2 * channelNo + devNo) (12 - partIdx.toNat) partIdx .prime 0
      disks channelNo devNos partIdx

def channels : (n channelNo : Nat) → (partIdx : UInt8) → FormatSearchM Unit
  | 0, _, _ => pure ()
  | n + 1, channelNo, partIdx => do
    Cmd.assert .overrun (channelNo < 2)
    let partIdx ← disks channelNo [0, 1] partIdx
    channels n (channelNo + 1) partIdx

def search (channelCnt : UInt8) : FormatSearchM Unit := channels channelCnt.toNat 0 0

end FormatSearch

end RogOS
