import RogOS.Fs.Impl.Syscall
import RogOS.Fs.Lemmas.Bitmap

/-!
The list of open inodes: what `inode_open` and `inode_close` do to it, and that closing an inode
after opening it gives the list back.
-/

namespace RogOS

variable {part : Partition} {s s' : Fs} {addr : Nat} {n : UInt32}

section Run

theorem onVol_run {α : Type} {x : VolM α} {r : α × Fs}
    : (onVol x).run s = .ok r ↔ ∃ v, x.run s.vol = .ok (r.1, v) ∧ r.2 = { s with vol := v } := by
  unfold onVol
  exact Cmd.zoom_run

theorem derefInode_run {r : Inode × Fs}
    : (derefInode addr).run s = .ok r ↔ ∃ ino, s.inode? addr = some ino ∧ r = (ino, s) := by
  simp only [derefInode, Cmd.bind_run, Cmd.get_run]
  constructor
  . rintro ⟨_, _, h, h1⟩
    cases h
    split at h1
    . next ino hino =>
      rw [Cmd.pure_run] at h1
      exact ⟨ino, hino, h1⟩
    . exact absurd h1 Cmd.throw_run
  . rintro ⟨ino, h1, h2⟩
    refine ⟨s, s, rfl, ?_⟩
    simp only [h1]
    exact Cmd.pure_run.mpr h2

def Fs.find? (s : Fs) (n : UInt32)
    : Option (Nat × Inode) := s.openInodes.find? fun p => p.2.iNo == n

def Fs.opened (part : Partition) (s : Fs) (n : UInt32) : Nat × Fs :=
  match s.find? n with
  | some (addr, _) => (addr, s.updInode addr fun i => { i with iOpenCnts := i.iOpenCnts + 1 })
  | none =>
    (s.newAddr, s.pushInode s.newAddr { (s.vol.image part).slot n.toNat with iOpenCnts := 1 })

theorem inodeOpen_run {r : Nat × Fs}
    : (inodeOpen part n).run s = .ok r ↔ (s.find? n = none → n.toNat < 4096)
        ∧ r = s.opened part n := by
  simp only [inodeOpen, Cmd.bind_run, Cmd.get_run, Fs.opened]
  cases hfind : s.find? n with
  | some p =>
    simp only [reduceCtorEq, false_implies, true_and]
    constructor
    . rintro ⟨_, _, h, h1⟩
      cases h
      rw [← Fs.find?, hfind] at h1
      simp only [Cmd.bind_run, Cmd.modify_run, Cmd.pure_run] at h1
      obtain ⟨_, _, h2, h3⟩ := h1
      cases h2
      exact h3
    . intro h
      refine ⟨s, s, rfl, ?_⟩
      rw [← Fs.find?, hfind]
      simp only [Cmd.bind_run, Cmd.modify_run, Cmd.pure_run]
      exact ⟨_, _, rfl, h⟩
  | none =>
    simp only [forall_const]
    constructor
    . rintro ⟨_, _, h, h1⟩
      cases h
      rw [← Fs.find?, hfind] at h1
      simp only [Cmd.bind_run, Cmd.modify_run, Cmd.pure_run, onVol_run, inodeLoad_run] at h1
      obtain ⟨_, _, ⟨_, ⟨h2, h3⟩, h4⟩, _, _, h5, h6⟩ := h1
      cases h3
      cases h4
      cases h5
      exact ⟨h2, h6⟩
    . rintro ⟨h1, h2⟩
      refine ⟨s, s, rfl, ?_⟩
      rw [← Fs.find?, hfind]
      simp only [Cmd.bind_run, Cmd.modify_run, Cmd.pure_run, onVol_run, inodeLoad_run]
      exact ⟨_, s, ⟨_, ⟨h1, rfl⟩, rfl⟩, (), _, rfl, h2⟩

def Fs.closed (s : Fs) (addr : Nat) (ino : Inode) : Fs :=
  if ino.iOpenCnts - 1 = 0 then
    s.dropInode addr
  else
    s.updInode addr fun i => { i with iOpenCnts := i.iOpenCnts - 1 }

theorem inodeClose_run {r : Unit × Fs}
    : (inodeClose addr).run s = .ok r
        ↔
      ∃ ino, s.inode? addr = some ino ∧ r = ((), s.closed addr ino) := by
  simp only [inodeClose, Cmd.bind_run, derefInode_run, Fs.closed]
  constructor
  . rintro ⟨_, _, ⟨ino, h1, h2⟩, h3⟩
    cases h2
    refine ⟨_, h1, ?_⟩
    split at h3
    . next h =>
      rw [Cmd.modify_run] at h3
      simp only [h, ↓reduceIte]
      exact h3
    . next h =>
      rw [Cmd.modify_run] at h3
      simp only [h, ↓reduceIte]
      exact h3
  . rintro ⟨ino, h1, h2⟩
    refine ⟨_, _, ⟨ino, h1, rfl⟩, ?_⟩
    split
    . next h =>
      simp only [h, ↓reduceIte] at h2
      rw [Cmd.modify_run]
      exact h2
    . next h =>
      simp only [h, ↓reduceIte] at h2
      rw [Cmd.modify_run]
      exact h2

theorem onInode_run {α : Type} {f : Inode → VolM (α × Inode)} {r : α × Fs}
    : (onInode addr f).run s = .ok r
        ↔
      ∃ ino ino' v, s.inode? addr = some ino ∧ (f ino).run s.vol = .ok ((r.1, ino'), v)
        ∧ r.2 = Fs.updInode { s with vol := v } addr fun _ => ino' := by
  simp only [onInode, Cmd.bind_run, derefInode_run, onVol_run, Cmd.modify_run, Cmd.pure_run]
  constructor
  . rintro ⟨_, _, ⟨ino, h1, h2⟩, ⟨x, ino'⟩, _, ⟨v, h3, h4⟩, _, _, h5, h6⟩
    cases h2
    cases h4
    cases h5
    rw [h6]
    exact ⟨_, ino', v, h1, h3, rfl⟩
  . rintro ⟨ino, ino', v, h1, h2, h3⟩
    refine ⟨_, _, ⟨ino, h1, rfl⟩, (r.1, ino'), _, ⟨v, h2, rfl⟩, _, _, rfl, ?_⟩
    rw [← h3]

end Run

section Lookup

variable {ino : Inode} {a : Nat} {f : Inode → Inode}

def Fs.AddrNodup (s : Fs) : Prop := Assoc.NodupKeys s.openInodes

theorem Fs.inode?_updInode
    : (s.updInode addr f).inode? a = if a = addr then (s.inode? a).map f else s.inode? a :=
  Assoc.lookup_adjust

theorem Fs.inode?_dropInode : (s.dropInode addr).inode? a = if a = addr then none else s.inode? a :=
  Assoc.lookup_erase

theorem Fs.inode?_pushInode
    : (s.pushInode addr ino).inode? a = if a = addr then some ino else s.inode? a :=
  Assoc.lookup_cons

theorem Fs.inode?_newAddr : s.inode? s.newAddr = none := Assoc.lookup_fresh

theorem Fs.AddrNodup.find?_eq_some (hs : s.AddrNodup) (h : s.find? n = some (addr, ino))
    : s.inode? addr = some ino ∧ ino.iNo = n := by
  unfold find? at h
  have h1 := List.find?_some h
  refine ⟨hs.lookup_of_mem (List.mem_of_find?_eq_some h), by simpa using h1⟩

theorem Fs.ne_of_find?_eq_none (h : s.find? n = none) (ha : s.inode? addr = some ino)
    : ino.iNo ≠ n := by
  unfold find? at h
  rw [List.find?_eq_none] at h
  simpa using h _ (Assoc.mem_of_lookup ha)

def Fs.view (part : Partition) (s : Fs) (n : UInt32) : Inode :=
  match s.find? n with
  | some (_, ino) => ino
  | none => (s.vol.image part).slot n.toNat

theorem Fs.AddrNodup.opened_inode? (hs : s.AddrNodup)
    : ∃ k, (s.opened part n).2.inode? (s.opened part n).1
        = some { s.view part n with iOpenCnts := k + 1 } := by
  unfold opened view
  cases hfind : s.find? n with
  | some p =>
    refine ⟨p.2.iOpenCnts, ?_⟩
    simp [inode?_updInode, (hs.find?_eq_some hfind).1]
  | none =>
    refine ⟨0, ?_⟩
    simp [inode?_pushInode]

theorem Fs.opened_vol : (s.opened part n).2.vol = s.vol := by
  unfold opened
  split <;> rfl

theorem Fs.AddrNodup.updInode (hs : s.AddrNodup) : (s.updInode addr f).AddrNodup :=
  Assoc.NodupKeys.adjust hs

theorem Fs.AddrNodup.dropInode (hs : s.AddrNodup) : (s.dropInode addr).AddrNodup :=
  Assoc.NodupKeys.erase hs

theorem Fs.AddrNodup.pushInode (hs : s.AddrNodup) : (s.pushInode s.newAddr ino).AddrNodup :=
  Assoc.NodupKeys.cons_fresh hs

theorem Fs.AddrNodup.closed_opened (hs : s.AddrNodup)
    (hpos : ∀ addr ino, s.inode? addr = some ino → 0 < ino.iOpenCnts)
    (h : (s.opened part n).2.inode? (s.opened part n).1 = some ino)
    : (s.opened part n).2.closed (s.opened part n).1 ino = s := by
  unfold Fs.opened at h ⊢
  cases hfind : s.find? n with
  | some p =>
    simp only [hfind] at h
    have hp := (hs.find?_eq_some hfind).1
    have hcnt := hpos _ _ hp
    rw [inode?_updInode, if_pos rfl, hp, Option.map_some, Option.some.injEq] at h
    have h0 : ¬ ino.iOpenCnts - 1 = 0 := by
      rw [← h]
      simp only
      omega
    simp only [closed, h0, ↓reduceIte, Fs.updInode, Assoc.adjust_adjust]
    rw [hs.adjust_eq_self hp (by simp)]
  | none =>
    simp only [hfind] at h
    rw [inode?_pushInode, if_pos rfl, Option.some.injEq] at h
    have h0 : ino.iOpenCnts - 1 = 0 := by simp [← h]
    simp only [closed, h0, ↓reduceIte, Fs.dropInode, Fs.pushInode, newAddr, Assoc.erase_cons_fresh]

end Lookup

end RogOS
