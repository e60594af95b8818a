import RogOS.Fs.Lemmas.Format
import RogOS.Fs.Lemmas.Listing
import RogOS.Fs.PathResolution

/-!
What `search_file` reports for a path, in terms of the entries that the directories list.
-/

namespace RogOS

variable {part : Partition} {s : Fs} {D : UInt32 → Prop} {d : UInt32} {path : CStr}

def Fs.OpenedOn (part : Partition) (s : Fs) (d : UInt32) (dir : DirRef) (t : Fs) : Prop :=
  (∃ d' : Option UInt32, d'.getD 0 = d ∧ (dir, t) = s.atDir part d')
    ∧ ∃ p, t.inode? (t.dirInode dir) = some p ∧ p.iNo = d

/--
The result of `search_file` and the state it leaves, for a path whose proper prefixes are
directories: the number and the type of the entry that the last name has in the directory before it,
this directory being open.
-/
inductive Fs.Reports (part : Partition) (s : Fs) (path : List UInt8)
    : (UInt32 × PathSearchRecord) × Fs → Prop
  | root (isRoot : IsRootPath path) : Reports part s path ((0, ⟨[], .root, .directory⟩), s)
  | missing {pre : List (List UInt8)} {c : List UInt8} {d : UInt32} {dir : DirRef} {t : Fs}
      (notRoot : ¬ IsRootPath path) (split : components path = pre ++ [c])
      (leads : s.Leads part 0 pre d)
      (entry : ∀ e, ¬ s.Lists part d c e) (parent : s.OpenedOn part d dir t)
    : Reports part s path ((notFound, ⟨joinPath (components path), dir, .unknown⟩), t)
  | found {pre : List (List UInt8)} {c : List UInt8} {d : UInt32} {e : DirEntry} {type : FileType}
      {dir : DirRef}
      {t : Fs} (notRoot : ¬ IsRootPath path) (split : components path = pre ++ [c])
      (leads : s.Leads part 0 pre d)
      (entry : s.Lists part d c e) (isType : e.fType = type.code) (parent : s.OpenedOn part d dir t)
    : Reports part s path ((e.iNo, ⟨joinPath (components path), dir, type⟩), t)

theorem Fs.Listing.openedOn (hL : s.Listing part D) (hs : s.Searchable) {dir : Option UInt32}
    (hd : D (dir.getD 0))
    : s.OpenedOn part (dir.getD 0) (s.atDir part dir).1 (s.atDir part dir).2 := by
  refine ⟨⟨dir, rfl, rfl⟩, ?_⟩
  obtain ⟨k, hk⟩ := @Fs.Searchable.atDir_inode part s hs dir
  refine ⟨_, hk, ?_⟩
  rw [← hL.iNo _ hd, ← hL.graph.dirView_eq]

/--
`search_file` returns for every well formed path whose proper prefixes name directories, and reports
the object that the path names.
-/
theorem searchFile_reports (hs : s.Searchable) (hL : s.Listing part D) (hu : s.UniqueNames part D)
    (hp : WellFormed path.chars) (hpre : s.Leads part 0 (components path.chars).dropLast d)
    (junk : UInt32)
    : ∃ r, (searchFile part junk path.chars).run s = .ok r ∧ s.Reports part path.chars r := by
  refine ⟨_, hL.searchFile_run hs hp, ?_⟩
  by_cases hroot : IsRootPath path.chars
  . have hsearch : s.search part junk path.chars = ⟨0, none, [], .directory⟩ := by
      rw [Fs.search, if_pos hroot]
    rw [hsearch]
    exact .root hroot
  . have hsplit := List.dropLast_append_getLast (hp.named.resolve_left hroot)
    generalize (components path.chars).dropLast = pre at hpre hsplit
    generalize (components path.chars).getLast _ = c at hsplit
    have hproper : ∀ x ∈ pre ++ [c], IsName x := by
      rw [hsplit]
      exact fun x hx => isName_of_mem_components hp.nulFree hx
    have hproper' : ∀ x ∈ pre, IsName x := fun x hx => hproper x (List.mem_append_left _ hx)
    have hc : IsName c := hproper c (by simp)
    obtain ⟨dir, rfl, hsearch⟩ := @Fs.Listing.search _ _ _ junk _ _ _ _ hL hp hroot hsplit.symm
      (hpre.walks hL hu hL.root hproper')
    have hd := hL.leads hpre hL.root hproper'
    rw [hsearch, Fs.foundIn]
    cases hlook : s.look part (dir.getD 0) c with
    | none =>
      exact .missing hroot hsplit.symm hpre ((hL.look_eq_none hd hc).mp hlook) (hL.openedOn hs hd)
    | some e =>
      have hentry := hL.lists_of_look hd hc hlook
      dsimp only
      split
      . next hdir =>
        have hd' : D ((some (dir.getD 0)).getD 0) := hd
        exact .found hroot hsplit.symm hpre hentry hdir (hL.openedOn hs hd')
      . next hdir =>
        have hreg := (hL.type_of_lists hd hc hentry).resolve_right hdir
        exact .found hroot hsplit.symm hpre hentry hreg (hL.openedOn hs hd)

section Fixed

def dirFs : Fs := (sysMkdir smallPartition 0 pathA).after smallFs

def dirSlots (d : UInt32) : Slots :=
  if d = 0 then [([46], 0, .directory), ([46, 46], 0, .directory), ([97], 1, .directory)]
  else [([46], 1, .directory), ([46, 46], 0, .directory)]

theorem forall_mem_dirFs {P : UInt32 → Prop} (h0 : P 0) (h1 : P 1)
    : ∀ d ∈ ([0, 1] : List UInt32), P d := by
  simp [h0, h1]

theorem slotsOk_dirFs
    : ∀ d ∈ ([0, 1] : List UInt32), dirFs.SlotsOk smallPartition [0, 1] dirSlots d := by
  apply forall_mem_dirFs
  . exact Fs.slotsOk_of_reads 676 (by decide +kernel) (by decide) (by decide) (by decide)
      (by decide) (by decide)
  . exact Fs.slotsOk_of_reads 677 (by decide +kernel) (by decide) (by decide) (by decide)
      (by decide) (by decide)

theorem listing_dirFs : dirFs.Listing smallPartition (· ∈ ([0, 1] : List UInt32)) :=
  Fs.listing_of_slots (by decide) (by decide +kernel) slotsOk_dirFs

theorem searchable_dirFs : dirFs.Searchable :=
  Fs.searchable_of_all (by decide +kernel)

theorem lists_dirFs : dirFs.Lists smallPartition 0 [97] (DirEntry.new [97] 1 .directory) :=
  ⟨0, by decide, 2, by decide, (slotsOk_dirFs 0 (by decide)).dirent (by decide) rfl, by decide⟩

def nestedFs : Fs := (sysMkdir smallPartition 0 ⟨[47, 97, 47, 98], by decide⟩).after dirFs

def nestedSlots (d : UInt32) : Slots :=
  if d = 0 then [([46], 0, .directory), ([46, 46], 0, .directory), ([97], 1, .directory)]
  else if d = 1 then [([46], 1, .directory), ([46, 46], 0, .directory), ([98], 2, .directory)]
  else [([46], 2, .directory), ([46, 46], 1, .directory)]

theorem forall_mem_nestedFs {P : UInt32 → Prop} (h0 : P 0) (h1 : P 1) (h2 : P 2)
    : ∀ d ∈ ([0, 1, 2] : List UInt32), P d := by
  simp [h0, h1, h2]

theorem slotsOk_nestedFs
    : ∀ d ∈ ([0, 1, 2] : List UInt32), nestedFs.SlotsOk smallPartition [0, 1, 2] nestedSlots d := by
  apply forall_mem_nestedFs
  . exact Fs.slotsOk_of_reads 676 (by decide +kernel) (by decide) (by decide) (by decide)
      (by decide) (by decide)
  . exact Fs.slotsOk_of_reads 677 (by decide +kernel) (by decide) (by decide) (by decide)
      (by decide) (by decide)
  . exact Fs.slotsOk_of_reads 678 (by decide +kernel) (by decide) (by decide) (by decide)
      (by decide) (by decide)

theorem searchable_nestedFs : nestedFs.Searchable :=
  Fs.searchable_of_all (by decide +kernel)

theorem listing_nestedFs : nestedFs.Listing smallPartition (· ∈ ([0, 1, 2] : List UInt32)) :=
  Fs.listing_of_slots (by decide) (by decide +kernel) slotsOk_nestedFs

theorem dirTree_nestedFs : nestedFs.DirTree smallPartition (· ∈ ([0, 1, 2] : List UInt32)) :=
  Fs.dirTree_of_slots listing_nestedFs slotsOk_nestedFs
    (forall_mem_nestedFs (by decide) (by decide) (by decide)) rfl rfl

/-- The path `/a/b` goes through the directory `a` and is found. -/
theorem pathSound_pathAB
    : PathSound smallPartition nestedFs ⟨[47, 97, 47, 98], by decide⟩
        ∧ (nestedFs.search smallPartition 7 [47, 97, 47, 98]).no = 2 := by
  refine ⟨?_, by decide +kernel⟩
  apply (pathSound_iff searchable_nestedFs dirTree_nestedFs (.inr (by decide))).mpr
  refine ⟨.inr (by decide), ?_⟩
  intro pre c next post d e hnames hwalk hlook hreg
  exfalso
  rw [show components [47, 97, 47, 98] = [[97], [98]] by decide] at hnames
  cases pre with
  | nil =>
    rw [List.nil_append, List.cons.injEq] at hnames
    cases hwalk
    have hdir : nestedFs.look smallPartition 0 [97] = some (DirEntry.new [97] 1 .directory) :=
      Fs.look_of_slots (k := 2) listing_nestedFs slotsOk_nestedFs (by decide) (by decide) rfl
    rw [hnames.1, hlook, Option.some.injEq] at hdir
    rw [hdir, DirEntry.new_fType] at hreg
    exact absurd hreg (by decide)
  | cons x pre =>
    have hlen := congrArg List.length hnames
    simp only [List.length_append, List.length_cons, List.length_nil] at hlen
    omega

theorem searchFile_reports_pathAF
    : ∃ r, (searchFile smallPartition 7 pathAF.chars).run dirFs = .ok r
        ∧ dirFs.Reports smallPartition pathAF.chars r := by
  have hpre : dirFs.Leads smallPartition 0 (components pathAF.chars).dropLast 1 := by
    rw [show (components pathAF.chars).dropLast = [[97]] by decide]
    exact .cons lists_dirFs (by decide) .nil
  exact searchFile_reports searchable_dirFs listing_dirFs (Fs.uniqueNames_of_slots slotsOk_dirFs)
    (by decide) hpre 7

end Fixed

end RogOS
