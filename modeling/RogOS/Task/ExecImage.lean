import RogOS.Task.Lemmas.Exec

/-!
The image that `load` leaves in the memory of the process.
-/

namespace RogOS

variable {part : Partition} {task : Nat} {kbd : Mem} {junk : UInt32} {data : List UInt8} {s : Fs}
  {p p' : Proc}

section Image

def progHeaderOffset (data : List UInt8) (i : Nat) : Nat :=
  (elfHeader data).ePhoff.toNat + i * (elfHeader data).ePhentsize.toNat

def progHeader (data : List UInt8) (i : Nat)
    : Elf32Phdr := ⟨fun k => data.getD (progHeaderOffset data i + k) 0⟩

namespace Elf32Phdr

variable (h : Elf32Phdr)

def InFile (a : Nat) : Prop := h.pVaddr.toNat ≤ a ∧ a < h.pVaddr.toNat + h.pFilesz.toNat

def InBss (a : Nat)
    : Prop := h.pVaddr.toNat + h.pFilesz.toNat ≤ a ∧ a < h.pVaddr.toNat + h.pMemsz.toNat

end Elf32Phdr

def Proc.Holds (data : List UInt8) (p : Proc) : List Elf32Phdr → Prop
  | [] => True
  | h :: later =>
    (∀ a, (∀ g ∈ later, ¬ g.InFile a ∧ ¬ g.InBss a) →
      (h.InFile a → p.mapped (a / 4096) = true ∧ data[h.pOffset.toNat + (a - h.pVaddr.toNat)]?
        = some (p.mem a))
        ∧ (h.InBss a → p.mapped (a / 4096) = true ∧ p.mem a = 0))
      ∧ p.Holds data later

def Elf32Phdr.Fits (data : List UInt8) (h : Elf32Phdr) : Prop :=
  h.pMemsz ≤ h.pFilesz ∧ (h.pFilesz = 0 ∨ h.pOffset.toNat + h.pFilesz.toNat ≤ data.length)

end Image

section Load

def Elf32Phdr.copy (data : List UInt8) (h : Elf32Phdr) : Copy where
  vaddr := h.pVaddr.toNat
  pages := (segmentLoad.occupyPages h.pFilesz h.pVaddr).toNat
  bytes := readBytes data h.pOffset.toNat h.pFilesz.toNat

end Load

section Fixed

end Fixed

end RogOS
