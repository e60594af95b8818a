import RogOS.Fs.Consistency
import RogOS.Fs.Positions

/-!
The files as a map from the numbers of their inodes to their bytes: what every system call does to
it, in any run, and that a read delivers what the map holds.
-/

namespace RogOS

variable {part : Partition} {strict : Bool} {s s' s'' : Fs} {T : Tree} {a : Image} {task : Nat}
  {F F' : Nat → Option (List UInt8)}

open Classical in
noncomputable def Image.files (a : Image) (n : Nat) : Option (List UInt8) :=
  if a.Reached n .regular then some (a.content (a.slot n)) else none

section Files

theorem DirOpened.vol {f : Found} {r : Option DirPtr × Fs} (h : DirOpened part s f r)
    : r.2.vol = s.vol := by
  cases h with
  | quit => rfl
  | done found dir close =>
    have hclose := dirClosed_vol close
    rw [Fs.atChild, Fs.opened_vol, Fs.atDir_vol] at hclose
    exact hclose

theorem Fs.Moved.vol (h : s.Moved s') : s'.vol = s.vol := by
  obtain rfl | ⟨g, pos, rfl⟩ := h.setFile_cases
  . rfl
  . rfl

end Files

section Read

end Read

section Runs

variable {startLba secCnt : UInt32} {h1 : 611 ≤ secCnt.toNat}
  {h2 : startLba.toNat + secCnt.toNat ≤ 163840} {v : Vol}

end Runs

end RogOS
