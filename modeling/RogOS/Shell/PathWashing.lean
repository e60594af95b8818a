import RogOS.Fs.PathLookup
import RogOS.Lib.DirWalk
import RogOS.Shell.Impl.BuildinCmd

/-!
`wash_path` of the shell and `search_file` agree: the path without `.` and `..` names what the path
names.
-/

namespace RogOS

open DirWalk (Step cancel)

variable {part : Partition} {s : Fs} {D : UInt32 → Prop} {d n : UInt32} {path : CStr}
  {p c : List UInt8}
  {names st : List (List UInt8)} {steps : List (Step (List UInt8))}

def stepOf (c : List UInt8) : Step (List UInt8) :=
  if c = [46, 46] then .up else if c = [46] then .stay else .down c

def Segment (c : List UInt8) : Prop := c ≠ [] ∧ 47 ∉ c

section Wash

theorem washPath.addName_ok {σ : Type} {t : σ} (hst : ∀ x ∈ st, Segment x)
    (hlen : (joinPath st.reverse).length + (c.length + 1) < 512)
    : (addName (pathOf st) c).run t = .ok (pathOf (cancel st [stepOf c]), t) := by
  unfold addName stepOf
  split
  . next hup =>
    cases st with
    | nil => rfl
    | cons x st =>
      have hx := (hst x List.mem_cons_self).2
      rw [pathOf_cons, Str.strrchr_append hx]
      cases st with
      | nil => rfl
      | cons y st =>
        have hpos : (joinPath (y :: st).reverse).length ≠ 0 := by
          rw [List.reverse_cons, joinPath_concat, List.length_append, List.length_cons]
          omega
        obtain ⟨k, hk⟩ := Nat.exists_eq_succ_of_ne_zero hpos
        rw [hk]
        dsimp only
        rw [← Nat.succ_eq_add_one, ← hk, List.take_left]
        rfl
  . next hup =>
    split
    . next hname =>
      rw [show cancel st [Step.down c] = c :: st from rfl, pathOf_cons]
      cases st with
      | nil =>
        rw [if_neg (by decide)]
        apply strcat_ok
        simpa [pathOf, joinPath] using hlen
      | cons x st =>
        have hpath : pathOf (x :: st) = joinPath (x :: st).reverse := if_neg (List.cons_ne_nil _ _)
        have hne : joinPath (x :: st).reverse ≠ [47] := by
          intro h
          have hx := List.length_pos_of_ne_nil (hst x List.mem_cons_self).1
          have hl := congrArg List.length h
          rw [List.reverse_cons, joinPath_concat, List.length_append, List.length_cons,
            List.length_singleton] at hl
          omega
        rw [hpath, if_pos hne, Cmd.exec_bind (strcat_ok _), strcat_ok _, List.append_assoc,
          List.singleton_append]
        . rw [List.length_append, List.length_append, List.length_singleton]
          omega
        . rw [List.length_append, List.length_singleton]
          omega
    . next hname =>
      rw [not_not] at hname
      rw [if_pos hname]
      rfl

theorem stepOf_eq_down {x : List UInt8} (h : stepOf c = .down x) : c = x := by
  unfold stepOf at h
  split at h
  . contradiction
  . split at h
    . contradiction
    . cases h
      rfl

theorem mem_of_mem_cancel (h : c ∈ cancel st (names.map stepOf)) : c ∈ st ∨ c ∈ names := by
  cases DirWalk.mem_of_mem_cancel h with
  | inl h => exact .inl h
  | inr h =>
    obtain ⟨y, hy, hyc⟩ := List.mem_map.mp h
    rw [← stepOf_eq_down hyc]
    exact .inr hy

theorem segment_of_mem_cancel (hst : ∀ x ∈ st, Segment x) (hnames : ∀ x ∈ names, Segment x)
    : ∀ x ∈ cancel st (names.map stepOf), Segment x := by
  intro x hx
  cases mem_of_mem_cancel hx with
  | inl hx => exact hst x hx
  | inr hx => exact hnames x hx

theorem length_joinPath_cancel : (joinPath (cancel st [stepOf c]).reverse).length
    ≤ (joinPath st.reverse).length + (c.length + 1) := by
  have hdown : (joinPath (c :: st).reverse).length
      = (joinPath st.reverse).length + (c.length + 1) := by
    rw [List.reverse_cons, joinPath_concat, List.length_append, List.length_cons]
  have hup : (joinPath st.tail.reverse).length ≤ (joinPath st.reverse).length := by
    cases st with
    | nil => exact Nat.le_refl _
    | cons x st =>
      rw [List.tail_cons, List.reverse_cons, joinPath_concat, List.length_append]
      omega
  unfold stepOf
  split
  . exact Nat.le_trans hup (Nat.le_add_right _ _)
  . split
    . exact Nat.le_add_right _ _
    . exact Nat.le_of_eq hdown

theorem washPath.go_ok {σ : Type} {t : σ} {fuel : Nat} {name : List UInt8}
    {subPath : Option (List UInt8)} (hnames : remaining name subPath = names)
    (hseg : ∀ x ∈ names, Segment x) (hst : ∀ x ∈ st, Segment x)
    (hshort : ∀ x ∈ names, x.length < 16)
    (hlen : (joinPath st.reverse).length + (joinPath names).length < 512)
    (hfuel : names.length < fuel)
    : (go fuel name subPath (pathOf st)).run t
        = .ok (pathOf (cancel st (names.map stepOf)), t) := by
  induction fuel generalizing name subPath names st with
  | zero => omega
  | succ fuel ih =>
    rw [go]
    split
    . next hname =>
      rw [remaining, if_pos hname] at hnames
      rw [← hnames]
      rfl
    . next hname =>
      rw [remaining, if_neg hname] at hnames
      subst hnames
      rw [length_joinPath_cons] at hlen
      rw [List.length_cons] at hfuel
      have hseg' : ∀ x ∈ components (subPath.getD []), Segment x := fun x hx =>
        hseg x (List.mem_cons_of_mem _ hx)
      have hshort' : ∀ x ∈ components (subPath.getD []), x.length < 16 :=
        fun x hx => hshort x (List.mem_cons_of_mem _ hx)
      obtain ⟨⟨name', subPath'⟩, hparse⟩ := @parseName_ok σ t subPath fun x hx =>
        Nat.le_of_lt (hshort' x (List.mem_of_mem_head? hx))
      obtain ⟨hrem, -⟩ := parseName_run hparse
      have hst' := @segment_of_mem_cancel [name] st hst fun x hx => by
        rw [List.mem_singleton.mp hx]
        exact hseg name List.mem_cons_self
      have hwashed := @length_joinPath_cancel name st
      rw [Cmd.exec_assert_bind, if_pos (hshort name List.mem_cons_self),
        Cmd.exec_bind (washPath.addName_ok hst (by omega)), Cmd.exec_bind hparse]
      rw [show cancel st ((name :: components (subPath.getD [])).map stepOf)
        = cancel (cancel st [stepOf name]) ((components (subPath.getD [])).map stepOf) from
            @DirWalk.cancel_append _ st [stepOf name] _]
      exact ih hrem hseg' hst' hshort' (by omega) (by omega)

def washed (p : List UInt8) : List UInt8 := pathOf (cancel [] ((components p).map stepOf))

theorem washPath_ok {σ : Type} {t : σ} (habs : p.head? = some 47) (hlen : p.length < 512)
    (hshort : ∀ x ∈ components p, x.length < 16) : (washPath p).run t = .ok (washed p, t) := by
  have hjoin := length_joinPath_components habs
  have hcount := @length_joinPath (components p)
  have hseg : ∀ x ∈ components p, Segment x := fun x hx =>
    ⟨(mem_components hx).1, (mem_components hx).2.1⟩
  obtain ⟨⟨name, subPath⟩, hparse⟩ := @parseName_ok σ t (some p) fun x hx =>
    Nat.le_of_lt (hshort x (List.mem_of_mem_head? hx))
  obtain ⟨hrem, -⟩ := parseName_run hparse
  rw [Option.getD_some] at hrem
  rw [washPath, Cmd.exec_bind hparse]
  dsimp only
  split
  . next hname =>
    dsimp only at hrem
    rw [remaining, if_pos hname] at hrem
    rw [washed, ← hrem]
    rfl
  . apply @washPath.go_ok _ [] σ t _ _ _ hrem hseg (fun x hx => absurd hx List.not_mem_nil) hshort
    . rw [List.reverse_nil, joinPath, List.flatMap_nil, List.length_nil]
      omega
    . omega

theorem WellFormed.washPath_ok {σ : Type} {t : σ} (hp : WellFormed p)
    : (washPath p).run t = .ok (RogOS.washed p, t) :=
  RogOS.washPath_ok hp.absolute hp.length fun x hx => Nat.lt_succ_of_le (hp.short x hx)

theorem length_joinPath_cancel_map
    : (joinPath (cancel st (names.map stepOf)).reverse).length
        ≤ (joinPath st.reverse).length + (joinPath names).length := by
  induction names generalizing st with
  | nil => exact Nat.le_add_right _ _
  | cons c cs ih =>
    have hone := @length_joinPath_cancel c st
    have hrest := @ih (cancel st [stepOf c])
    rw [← DirWalk.cancel_append, List.singleton_append] at hrest
    rw [List.map_cons, length_joinPath_cons]
    omega

theorem components_washed
    : components (washed p) = (cancel [] ((components p).map stepOf)).reverse :=
  components_pathOf <| segment_of_mem_cancel (fun _ hx => absurd hx List.not_mem_nil)
    fun _ hx => ⟨(mem_components hx).1, (mem_components hx).2.1⟩

theorem WellFormed.washed (hp : WellFormed p) : WellFormed (washed p) := by
  have hcs := @components_washed p
  have hjoin := length_joinPath_components hp.absolute
  have hle := @length_joinPath_cancel_map (components p) []
  have hmem : ∀ x ∈ cancel [] ((components p).map stepOf), x ∈ components p := fun x hx =>
    (mem_of_mem_cancel hx).resolve_left List.not_mem_nil
  unfold RogOS.washed pathOf at *
  split
  . decide
  . next hne =>
    rw [if_neg hne] at hcs
    constructor
    . obtain ⟨x, xs, hx⟩ := List.exists_cons_of_ne_nil (List.reverse_ne_nil_iff.mpr hne)
      rw [hx, joinPath, List.flatMap_cons]
      rfl
    . have := hp.length
      rw [List.reverse_nil, show (joinPath []).length = 0 from rfl] at hle
      omega
    . right
      rw [hcs]
      exact List.reverse_ne_nil_iff.mpr hne
    . rw [hcs]
      exact fun x hx => hp.short x (hmem x (List.mem_reverse.mp hx))
    . intro h0
      obtain ⟨x, hx, h0⟩ := List.mem_flatMap.mp h0
      cases List.mem_cons.mp h0 with
      | inl h0 => contradiction
      | inr h0 =>
        have hx' := hmem x (List.mem_reverse.mp hx)
        exact hp.nulFree ((mem_components hx').2.2 0 h0)

end Wash

structure Fs.Dots (part : Partition) (s : Fs) (D : UInt32 → Prop) : Prop where
  self : ∀ d, D d → ∃ e, s.Lists part d [46] e ∧ e.fType = FileType.directory.code ∧ e.iNo = d
  dotdot : ∀ d, D d → ∃ e, s.Lists part d [46, 46] e ∧ e.fType = FileType.directory.code
  root : ∀ e, s.Lists part 0 [46, 46] e → e.iNo = 0
  parent : ∀ d c e e', D d → IsName c → c ≠ [46] → c ≠ [46, 46] → s.Lists part d c e →
    e.fType = FileType.directory.code → s.Lists part e.iNo [46, 46] e' → e'.iNo = d

theorem ne_dots_of_stepOf (h : stepOf c = .down c) : c ≠ [46] ∧ c ≠ [46, 46] := by
  constructor
  . rintro rfl
    contradiction
  . rintro rfl
    contradiction

theorem Fs.Dots.entry (hdots : s.Dots part D) (hd : D d) (h : stepOf c ≠ .down c)
    : ∃ e, s.Lists part d c e ∧ e.fType = FileType.directory.code := by
  unfold stepOf at h
  split at h
  . next hc =>
    rw [hc]
    exact hdots.dotdot d hd
  . split at h
    . next hc =>
      rw [hc]
      obtain ⟨e, h1, h2, -⟩ := hdots.self d hd
      exact ⟨e, h1, h2⟩
    . contradiction

section Tree

def Fs.Dots.tree (hdots : s.Dots part D) : DirWalk.Tree (List UInt8) UInt32 where
  root := 0
  Sub d c n := D d ∧ IsName c ∧ c ≠ [46] ∧ c ≠ [46, 46]
    ∧ ∃ e, s.Lists part d c e ∧ e.fType = FileType.directory.code ∧ e.iNo = n
  Parent d n := ∃ e, s.Lists part d [46, 46] e ∧ e.iNo = n
  parent_root d := by
    rintro ⟨e, he, rfl⟩
    exact hdots.root e he
  parent_sub d c n m := by
    rintro ⟨hd, hc, hstay, hup, e, he, hdir, rfl⟩ ⟨e', he', rfl⟩
    exact hdots.parent d c e e' hd hc hstay hup he hdir he'

theorem Fs.Leads.walk (h : s.Leads part d names n) (hL : s.Listing part D)
    (hu : s.UniqueNames part D) (hdots : s.Dots part D) (hd : D d) (hnames : ∀ c ∈ names, IsName c)
    : DirWalk.Walk (hdots.tree) d (names.map stepOf) n := by
  induction h with
  | nil => exact .nil
  | cons entry dir rest ih =>
    rename_i d n c cs e
    have hc := hnames c List.mem_cons_self
    have hrest := ih (hL.child _ _ _ hd hc entry dir) fun x hx =>
      hnames x (List.mem_cons_of_mem c hx)
    rw [List.map_cons]
    by_cases hup : c = [46, 46]
    . subst hup
      exact .up ⟨e, entry, rfl⟩ hrest
    . by_cases hstay : c = [46]
      . subst hstay
        obtain ⟨e', he', -, hno⟩ := hdots.self d hd
        rw [← hu.lists hd hc entry he', hno] at hrest
        exact .stay hrest
      . have hdown : stepOf c = .down c := by
          rw [stepOf, if_neg hup, if_neg hstay]
        rw [hdown]
        exact .down ⟨hd, hc, hstay, hup, e, entry, dir, rfl⟩ hrest

theorem leads_of_path {hdots : s.Dots part D} (h : DirWalk.Path (hdots.tree) st n)
    : s.Leads part 0 st.reverse n := by
  induction h with
  | root => exact .nil
  | push path sub ih =>
    obtain ⟨-, -, -, -, e, he, hdir, rfl⟩ := sub
    rw [List.reverse_cons]
    exact ih.snoc he hdir

theorem Fs.Leads.search (h : s.Leads part 0 (components p) n) (hL : s.Listing part D)
    (hu : s.UniqueNames part D) (hdots : s.Dots part D) (hp : WellFormed p) (junk : UInt32)
    : (s.search part junk p).no = n ∧ (s.search part junk p).fileType = .directory := by
  have hnames : ∀ x ∈ components p, IsName x := fun x hx => isName_of_mem_components hp.nulFree hx
  by_cases hroot : IsRootPath p
  . have hpath := (h.walk hL hu hdots hL.root hnames).cancel .root
    have hnil : cancel [] ((components p).map stepOf) = [] := by
      obtain rfl | rfl | rfl := hroot <;> decide
    rw [hnil] at hpath
    rw [Fs.search, if_pos hroot]
    cases hpath
    exact ⟨rfl, rfl⟩
  . have hsplit := List.dropLast_append_getLast (hp.named.resolve_left hroot)
    generalize (components p).dropLast = pre at hsplit
    generalize (components p).getLast _ = c at hsplit
    rw [← hsplit] at h hnames
    obtain ⟨m, e, hpre, he, hdir, hno⟩ := h.of_snoc
    have hproper : ∀ x ∈ pre, IsName x := fun x hx => hnames x (List.mem_append_left _ hx)
    obtain ⟨dir, rfl, hsearch⟩ := @Fs.Listing.search _ _ _ junk _ _ _ _ hL hp hroot hsplit.symm
      (hpre.walks hL hu hL.root hproper)
    have hlook := hL.look_of_lists hu (hL.leads hpre hL.root hproper) (hnames c (by simp)) he
    rw [hsearch, Fs.foundIn, hlook]
    dsimp only
    rw [if_pos hdir]
    exact ⟨hno, rfl⟩

end Tree

/--
`search_file` finds the same object, of the same type, for a path and for what `wash_path` makes of
it, and nothing for one if it finds nothing for the other.
-/
theorem searchFile_washPath (hs : s.Searchable) (hL : s.Listing part D) (hu : s.UniqueNames part D)
    (hdots : s.Dots part D) (hp : WellFormed path.chars) (hne : components path.chars ≠ [])
    (hpre : s.Leads part 0 (components path.chars).dropLast d) (junk junk' : UInt32)
    : ∃ q r r', (washPath path.chars).run () = .ok (q, ()) ∧ (searchFile part junk path.chars).run s
        = .ok r
        ∧ (searchFile part junk' q).run s = .ok r' ∧ r'.1.1 = r.1.1 ∧ r'.1.2.fileType
            = r.1.2.fileType := by
  refine ⟨_, _, _, hp.washPath_ok, hL.searchFile_run hs hp, hL.searchFile_run hs hp.washed, ?_⟩
  have hnames : ∀ x ∈ components path.chars, IsName x := fun x hx =>
    isName_of_mem_components hp.nulFree hx
  have hcs := @components_washed path.chars
  have hsplit := List.dropLast_append_getLast hne
  generalize (components path.chars).dropLast = pre at hpre hsplit
  generalize (components path.chars).getLast _ = c at hsplit
  rw [← hsplit] at hcs hnames
  have hproper : ∀ x ∈ pre, IsName x := fun x hx => hnames x (List.mem_append_left _ hx)
  have hd := hL.leads hpre hL.root hproper
  by_cases hdown : stepOf c = .down c
  . -- the last name is looked up in the same directory by both searches
    have hpath := (hpre.walk hL hu hdots hL.root hproper).cancel .root
    have hpre' := leads_of_path hpath
    rw [List.map_append, List.map_singleton, DirWalk.cancel_append, hdown] at hcs
    have hcs' : components (washed path.chars) = (cancel [] (pre.map stepOf)).reverse ++ [c] := by
      rw [hcs, ← List.reverse_cons]
      rfl
    have hproper' : ∀ x ∈ (cancel [] (pre.map stepOf)).reverse, IsName x := by
      intro x hx
      apply isName_of_mem_components hp.washed.nulFree
      rw [hcs']
      exact List.mem_append_left _ hx
    obtain ⟨hstay, hup⟩ := ne_dots_of_stepOf hdown
    have hroot := not_isRootPath hsplit.symm hstay hup
    have hroot' := not_isRootPath hcs' hstay hup
    obtain ⟨dir, h1, h2⟩ := @Fs.Listing.search _ _ _ junk _ _ _ _ hL hp hroot hsplit.symm
      (hpre.walks hL hu hL.root hproper)
    obtain ⟨dir', h1', h2'⟩ := @Fs.Listing.search _ _ _ junk' _ _ _ _ hL hp.washed hroot' hcs'
      (hpre'.walks hL hu hL.root hproper')
    dsimp only
    rw [h2, h2', Fs.foundIn, Fs.foundIn, h1, h1']
    cases s.look part d c with
    | none => exact ⟨rfl, rfl⟩
    | some e =>
      dsimp only
      split <;> exact ⟨rfl, rfl⟩
  . -- the path ends with `.` or `..`, and so with a directory
    obtain ⟨e, he, hdir⟩ := hdots.entry hd hdown
    have hall := hpre.snoc he hdir
    rw [hsplit] at hall
    have hpath := (hall.walk hL hu hdots hL.root (hsplit ▸ hnames)).cancel .root
    have hall' := leads_of_path hpath
    rw [← @components_washed path.chars] at hall'
    obtain ⟨h1, h2⟩ := hall.search hL hu hdots hp junk
    obtain ⟨h1', h2'⟩ := hall'.search hL hu hdots hp.washed junk'
    dsimp only
    rw [h1, h2, h1', h2']
    exact ⟨rfl, rfl⟩

section Fixed

theorem Fs.SlotsOk.lists {ds : List UInt32} {es : UInt32 → Slots} {e : DirEntry}
    (h : s.SlotsOk part ds es d) (hc : IsName c) (he : s.Lists part d c e)
    : ∃ x ∈ es d, x.1 = c ∧ e = DirEntry.new x.1 x.2.1 x.2.2 := by
  obtain ⟨i, hi, k, hk, hent, hname⟩ := he
  obtain ⟨-, x, hx, hxc, hxe⟩ := h.named hi hk hc hent hname
  exact ⟨x, List.mem_of_getElem? hx, hxc, hxe⟩

theorem dots_dirFs : dirFs.Dots smallPartition (· ∈ ([0, 1] : List UInt32)) where
  self d hd := ⟨DirEntry.new [46] d .directory, ⟨0, by decide, 0, by decide, by
    have hself : ∀ d ∈ ([0, 1] : List UInt32), (dirSlots d)[0]? = some ([46], d, .directory) :=
      forall_mem_dirFs rfl rfl
    exact ⟨(slotsOk_dirFs d hd).dirent (by omega) (hself d hd), rfl⟩⟩, rfl, rfl⟩
  dotdot d hd := ⟨DirEntry.new [46, 46] 0 .directory, ⟨0, by decide, 1, by decide, by
    have hup : ∀ d ∈ ([0, 1] : List UInt32),
        (dirSlots d)[1]? = some ([46, 46], 0, .directory) :=
      forall_mem_dirFs rfl rfl
    exact ⟨(slotsOk_dirFs d hd).dirent (by omega) (hup d hd), rfl⟩⟩, rfl⟩
  root e he := by
    obtain ⟨x, hx, hxc, rfl⟩ := (slotsOk_dirFs 0 (by decide)).lists ⟨by decide, by decide⟩ he
    have hno : ∀ x ∈ dirSlots 0, x.1 = [46, 46] → x.2.1 = 0 := by decide
    exact hno x hx hxc
  parent d c e e' hd hc hstay hup he hdir he' := by
    obtain ⟨x, hx, hxc, rfl⟩ := (slotsOk_dirFs d hd).lists hc he
    have hchild : ∀ d ∈ ([0, 1] : List UInt32), ∀ x ∈ dirSlots d, x.1 ≠ [46] → x.1 ≠ [46, 46]
        → d = 0 ∧ x.2.1 = 1 :=
      forall_mem_dirFs (by decide) (by decide)
    obtain ⟨rfl, hno⟩ := hchild d hd x hx (by rw [hxc]; exact hstay) (by rw [hxc]; exact hup)
    rw [DirEntry.new_iNo, hno] at he'
    obtain ⟨y, hy, hyc, rfl⟩ := (slotsOk_dirFs 1 (by decide)).lists ⟨by decide, by decide⟩ he'
    have hno' : ∀ y ∈ dirSlots 1, y.1 = [46, 46] → y.2.1 = 0 := by decide
    exact hno' y hy hyc

def pathAUpA : CStr := ⟨[47, 97, 47, 46, 46, 47, 97], by decide⟩

theorem searchFile_washPath_pathAUpA
    : ∃ q r r', (washPath pathAUpA.chars).run () = .ok (q, ())
        ∧ (searchFile smallPartition 7 pathAUpA.chars).run dirFs = .ok r
        ∧ (searchFile smallPartition 8 q).run dirFs = .ok r' ∧ r'.1.1 = r.1.1 ∧ r'.1.2.fileType
            = r.1.2.fileType := by
  have hpre : dirFs.Leads smallPartition 0 (components pathAUpA.chars).dropLast 0 := by
    rw [show (components pathAUpA.chars).dropLast = [[97], [46, 46]] by decide]
    have hup : dirFs.Lists smallPartition 1 [46, 46] (DirEntry.new [46, 46] 0 .directory) :=
      ⟨0, by decide, 1, by decide, (slotsOk_dirFs 1 (by decide)).dirent (by omega) rfl, rfl⟩
    exact .cons lists_dirFs (by decide) (.cons hup (by decide) .nil)
  exact searchFile_washPath searchable_dirFs listing_dirFs (Fs.uniqueNames_of_slots slotsOk_dirFs)
    dots_dirFs
    (by decide) (by decide) hpre 7 8

end Fixed

end RogOS
