import RogOS.Fs.Descriptors
import RogOS.Fs.FileContent
import RogOS.Fs.Lemmas.FileReturns

/-!
What the calls that take a descriptor do with any descriptor, in any state of the file system.
-/

namespace RogOS

open Cmd

inductive FdCall where
  | close (fd : Int)
  | write (fd : Int) (buf : Mem) (count : UInt32)
  | read (kbd : Mem) (fd : Int) (buf : Mem) (count : UInt32)
  | lseek (fd : Int) (offset : Int32) (whence : Nat)

namespace FdCall

def exec (part : Partition) (task : Nat) : FdCall → FsM Int
  | close fd => sysClose task fd
  | write fd buf count => sysWrite part task fd buf count
  | read kbd fd buf count => do
    let r ← sysRead task kbd fd buf count
    pure r.1
  | lseek fd offset whence => sysLseek task fd offset whence

def fd : FdCall → Int
  | close fd => fd
  | write fd _ _ => fd
  | read _ fd _ _ => fd
  | lseek fd _ _ => fd

def Valid : FdCall → Prop
  | lseek _ _ whence => 0 < whence ∧ whence < 4
  | _ => True

end FdCall

theorem toNat_lt_of_inTable {fd : Int} (h : 0 ≤ fd ∧ fd < 8) : fd.toNat < 8 := by
  omega

def Fs.fileOf (s : Fs) (task : Nat) (fd : Int) : Option (Fin 32) :=
  if h : 0 ≤ fd ∧ fd < 8 then fileIdx? ((s.tasks task).fdTable ⟨fd.toNat, toNat_lt_of_inTable h⟩)
    else none

def Fs.Names (s : Fs) (task : Nat) (fd : Int) (P : Fin 32 → Inode → Prop) : Prop :=
  ∃ g ino, s.fileOf task fd = some g ∧ s.fileInode? g = some ino ∧ P g ino

def FdCall.Fits (part : Partition) (s : Fs) (task : Nat) : FdCall → Prop
  | close fd => fd ≤ 2 ∨ s.Names task fd fun _ _ => True
  | write fd _ count =>
    fd < 0 ∨ fd = 1 ∧ count.toNat ≤ 1024
      ∨ fd ≠ 1 ∧ (∃ g, s.fileOf task fd = some g ∧ writes (s.fileTable g).fdFlag = false)
      ∨ fd ≠ 1 ∧ s.Names task fd fun g ino =>
          writes (s.fileTable g).fdFlag = true ∧ WriteFits part s.vol ino count
  | read _ fd _ count =>
    fd ≤ 2 ∨ s.Names task fd fun g ino => ReadFits s.vol ino (s.fileTable g).fdPos count
  | lseek fd _ _ => fd < 0 ∨ s.Names task fd fun _ _ => True

variable {part : Partition} {s : Fs} {task : Nat} {g : Fin 32} {fd : Int} {buf : Mem}
  {count : UInt32}

section Open

theorem fdLocal2Global_run_iff {n : Nat} {r : Fin 32 × Fs}
    : (fdLocal2Global task n).run s = .ok r ↔ ∃ g, s.fileOf task n = some g ∧ r = (g, s) := by
  unfold fdLocal2Global Fs.fileOf fileIdx?
  rw [exec_get_bind]
  split
  . next hn =>
    have hn' : 0 ≤ (n : Int) ∧ (n : Int) < 8 := by omega
    rw [dif_pos hn']
    dsimp only [Int.toNat_natCast]
    split
    . next hg =>
      rw [pure_run]
      constructor
      . rintro rfl
        exact ⟨_, rfl, rfl⟩
      . rintro ⟨g, hsome, rfl⟩
        rw [Option.some.inj hsome]
    . next hg =>
      constructor
      . intro h
        exact absurd h throw_run
      . rintro ⟨g, hsome, -⟩
        contradiction
  . next hn =>
    have hn' : ¬ (0 ≤ (n : Int) ∧ (n : Int) < 8) := by omega
    rw [dif_neg hn']
    constructor
    . intro h
      exact absurd h throw_run
    . rintro ⟨g, hsome, -⟩
      contradiction

theorem Fs.fileInode?_eq_some {ino : Inode}
    : s.fileInode? g = some ino ↔ ∃ addr, (s.fileTable g).fdInode = some addr ∧ s.inode? addr
        = some ino := by
  unfold Fs.fileInode?
  exact Option.bind_eq_some_iff

end Open

section Calls

end Calls

section Validated

variable {c : FdCall}

end Validated

end RogOS
