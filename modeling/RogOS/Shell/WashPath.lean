import RogOS.Shell.Lemmas.CString
import RogOS.Shell.PathWashing

/-!
`wash_path` writes the path of the names that are left when each `..` has dropped the name before
it.
-/

namespace RogOS

open DirWalk (Step cancel)
open Mem (SameOutside)

variable {c p q : List UInt8} {st names : List (List UInt8)}

def stackName (st : List (List UInt8)) (c : List UInt8) : List (List UInt8) :=
  if c = [46, 46] then st.tail else if c = [46] then st else c :: st

def Canonical (q : List UInt8) : Prop :=
  q = [47] ∨ ∃ names ≠ [], q = joinPath names ∧ ∀ c ∈ names, Segment c ∧ c ≠ [46] ∧ c ≠ [46, 46]

section Stack

theorem cancel_stepOf : cancel st [stepOf c] = stackName st c := by
  unfold stepOf stackName
  split
  . rfl
  . split <;> rfl

theorem cancel_eq_foldl : cancel st (names.map stepOf) = names.foldl stackName st := by
  induction names generalizing st with
  | nil => rfl
  | cons c names ih =>
    rw [List.foldl_cons, ← ih, ← cancel_stepOf, ← DirWalk.cancel_append]
    rfl

theorem washed_eq : washed p = pathOf ((components p).foldl stackName []) := by
  rw [washed, cancel_eq_foldl]

theorem foldl_stackName_of_proper (h : ∀ c ∈ names, c ≠ [46] ∧ c ≠ [46, 46])
    : names.foldl stackName st = names.reverse ++ st := by
  induction names generalizing st with
  | nil => rfl
  | cons c names ih =>
    obtain ⟨h1, h2⟩ := h c List.mem_cons_self
    rw [List.foldl_cons, stackName, if_neg h2, if_neg h1, ih fun c hc =>
      h c (List.mem_cons_of_mem _ hc), List.reverse_cons, List.append_assoc, List.singleton_append]

theorem proper_of_mem_foldl (hst : ∀ c ∈ st, c ≠ [46] ∧ c ≠ [46, 46])
    (hc : c ∈ names.foldl stackName st)
    : c ≠ [46] ∧ c ≠ [46, 46] := by
  rw [← cancel_eq_foldl] at hc
  cases DirWalk.mem_of_mem_cancel hc with
  | inl hc => exact hst c hc
  | inr hc =>
    obtain ⟨d, -, hd⟩ := List.mem_map.mp hc
    rw [← stepOf_eq_down hd]
    apply ne_dots_of_stepOf
    rw [hd, stepOf_eq_down hd]

theorem washed_proper (hc : c ∈ components (washed p)) : c ≠ [46] ∧ c ≠ [46, 46] := by
  rw [components_washed, cancel_eq_foldl, List.mem_reverse] at hc
  exact proper_of_mem_foldl (fun c hc => absurd hc List.not_mem_nil) hc

theorem canonical_washed : Canonical (washed p) := by
  rw [washed]
  by_cases hnil : cancel [] ((components p).map stepOf) = []
  . rw [hnil]
    exact .inl rfl
  . right
    refine ⟨components (washed p), ?_, ?_, ?_⟩
    . rw [components_washed]
      exact fun h => hnil (List.reverse_eq_nil_iff.mp h)
    . rw [components_washed, pathOf, if_neg hnil]
    . intro c hc
      obtain ⟨h1, h2, -⟩ := mem_components hc
      exact ⟨⟨h1, h2⟩, washed_proper hc⟩

theorem washed_washed : washed (washed p) = washed p := by
  rw [@washed_eq (washed p), foldl_stackName_of_proper fun c hc => washed_proper hc,
    List.append_nil, components_washed, List.reverse_reverse]
  rfl

theorem washed_head? : (washed p).head? = some 47 := by
  unfold washed pathOf
  split
  . rfl
  . next hne =>
    obtain ⟨x, xs, hx⟩ := List.exists_cons_of_ne_nil (List.reverse_ne_nil_iff.mpr hne)
    rw [hx]
    rfl

theorem zero_not_mem_joinPath (h : ∀ c ∈ names, 0 ∉ c) : 0 ∉ joinPath names := by
  intro h0
  obtain ⟨c, hc, h0⟩ := List.mem_flatMap.mp h0
  cases List.mem_cons.mp h0 with
  | inl h0 => contradiction
  | inr h0 => exact h c hc h0

theorem zero_not_mem_pathOf (h : ∀ c ∈ st, 0 ∉ c) : 0 ∉ pathOf st := by
  unfold pathOf
  split
  . decide
  . exact zero_not_mem_joinPath fun c hc => h c (List.mem_reverse.mp hc)

theorem length_pathOf_le {len : Nat} (h : (joinPath st.reverse).length ≤ len) (hlen : 1 ≤ len)
    : (pathOf st).length ≤ len := by
  unfold pathOf
  split
  . exact hlen
  . exact h

end Stack

namespace Ptr

structure Apart (newAbsPath name oldAbsPath len : Nat) : Prop where
  new_ne : newAbsPath ≠ 0
  name_ne : name ≠ 0
  new_name : newAbsPath + (len + 1) ≤ name ∨ name + maxFileNameLen ≤ newAbsPath
  new_old : newAbsPath + (len + 1) ≤ oldAbsPath ∨ oldAbsPath + (len + 1) ≤ newAbsPath
  name_old : name + maxFileNameLen ≤ oldAbsPath ∨ oldAbsPath + (len + 1) ≤ name
  lt : oldAbsPath + len < addressSpace

variable {m m' m'' : Mem} {newAbsPath name oldAbsPath len fuel : Nat}

def OnlyArrays (newAbsPath name len : Nat) (m m' : Mem) : Prop :=
  ∀ i, (i < newAbsPath ∨ newAbsPath + (len + 1) ≤ i) → (i < name ∨ name + maxFileNameLen ≤ i)
    → m' i = m i

theorem OnlyArrays.trans (h : OnlyArrays newAbsPath name len m m')
    (h' : OnlyArrays newAbsPath name len m' m'')
    : OnlyArrays newAbsPath name len m m'' := fun i h1 h2 => (h' i h1 h2).trans (h i h1 h2)

theorem onlyArrays_of_new (h : SameOutside m m' newAbsPath (newAbsPath + (len + 1)))
    : OnlyArrays newAbsPath name len m m' :=
  fun i h1 _ => h i h1

theorem onlyArrays_of_name (h : SameOutside m m' name (name + maxFileNameLen))
    : OnlyArrays newAbsPath name len m m' :=
  fun i _ h2 => h i h2

section AddName

theorem store_run {s t : List UInt8} (h : m.strEq newAbsPath (s ++ t) = true)
    (hlen : (s ++ t).length ≤ len)
    : ∃ m', (store (newAbsPath + s.length) 0).run m = .ok ((), m') ∧ m'.strEq newAbsPath s = true
        ∧ SameOutside m m' newAbsPath (newAbsPath + (len + 1)) := by
  rw [List.length_append] at hlen
  exact ⟨_, rfl, Mem.strEq_cut h, SameOutside.update.mono (Nat.le_add_right _ _) (by omega)⟩

theorem washPath.popName_run (ha : Apart newAbsPath name oldAbsPath len) (hst : ∀ x ∈ st, Segment x)
    (hst0 : ∀ x ∈ st, 0 ∉ x) (hnew : m.strEq newAbsPath (pathOf st) = true)
    (hlen : (pathOf st).length ≤ len)
    : ∃ m', (popName newAbsPath).run m = .ok ((), m') ∧ m'.strEq newAbsPath (pathOf st.tail) = true
        ∧ SameOutside m m' newAbsPath (newAbsPath + (len + 1)) := by
  have hlt := ha.lt
  unfold popName
  cases st with
  | nil =>
    have hslash :=
      @strrchr_run m newAbsPath [] [] ha.new_ne hnew List.not_mem_nil List.not_mem_nil
        List.not_mem_nil (by decide)
    rw [Cmd.exec_bind hslash]
    dsimp only
    rw [if_neg (by simp)]
    exact @store_run m newAbsPath len [47] [] hnew hlen
  | cons x st =>
    have h0 : ∀ c ∈ st.reverse, 0 ∉ c := fun c hc =>
      hst0 c (List.mem_cons_of_mem _ (List.mem_reverse.mp hc))
    rw [pathOf_cons] at hnew hlen
    have hslash := strrchr_run ha.new_ne hnew (zero_not_mem_joinPath h0) (hst0 x List.mem_cons_self)
      (hst x List.mem_cons_self).2 (by omega)
    rw [Cmd.exec_bind hslash]
    dsimp only
    cases st with
    | nil =>
      rw [if_neg (by simp [joinPath])]
      exact @store_run m newAbsPath len [47] x hnew hlen
    | cons y st =>
      have hpos : (joinPath (y :: st).reverse).length ≠ 0 := by
        rw [List.reverse_cons, joinPath_concat, List.length_append, List.length_cons]
        omega
      rw [if_pos (by omega), List.tail_cons, pathOf, if_neg (List.cons_ne_nil _ _)]
      exact store_run hnew hlen

theorem pathOf_eq_slash (hst : ∀ x ∈ st, Segment x) : pathOf st = [47] ↔ st = [] := by
  constructor
  . intro h
    have hcs := components_pathOf hst
    rw [h] at hcs
    exact List.reverse_eq_nil_iff.mp hcs.symm
  . rintro rfl
    rfl

theorem washPath.pushName_run (ha : Apart newAbsPath name oldAbsPath len)
    (hst : ∀ x ∈ st, Segment x) (hst0 : ∀ x ∈ st, 0 ∉ x)
    (hc0 : 0 ∉ c) (hnew : m.strEq newAbsPath (pathOf st) = true) (hname : m.strEq name c = true)
    (hshort : c.length < maxFileNameLen)
    (hlen : (joinPath st.reverse).length + (c.length + 1) ≤ len)
    : ∃ m', (pushName newAbsPath name).run m = .ok ((), m') ∧ m'.strEq newAbsPath (pathOf (c :: st))
        = true
        ∧ SameOutside m m' newAbsPath (newAbsPath + (len + 1)) := by
  have hlt := ha.lt
  have hapart : name + c.length < newAbsPath ∨ newAbsPath + (len + 1) ≤ name := by
    have := ha.new_name
    omega
  have hpath := zero_not_mem_pathOf hst0
  have hle := length_pathOf_le (show (joinPath st.reverse).length ≤ len by omega) (by omega)
  obtain ⟨r, hcmp, hr⟩ :=
    @strcmp_run m (pathOf st) [47] (.mem newAbsPath) (.lit [47]) ha.new_ne trivial hpath (by decide)
    (by rw [view_mem]; exact hnew) view_lit (by omega)
  unfold pushName
  rw [Cmd.exec_bind hcmp]
  dsimp only
  rw [pathOf_cons]
  have hslash : 0 ∉ ([47] : List UInt8) := by decide
  split
  . next hne =>
    have hpathOf : pathOf st = joinPath st.reverse := if_neg fun h =>
      hne (hr.mpr ((pathOf_eq_slash hst).mpr h))
    rw [hpathOf] at hnew hpath hle
    have hone : (joinPath st.reverse ++ [47]).length = (joinPath st.reverse).length + 1 :=
      List.length_append
    have hall : ((joinPath st.reverse ++ [47]) ++ c).length
        = (joinPath st.reverse).length + 1 + c.length := by
      rw [List.length_append, hone]
    obtain ⟨m1, hrun1, hstr1, hsame1⟩ :=
      @strcat_run m (newAbsPath + (len + 1)) newAbsPath (joinPath st.reverse) [47] (.lit [47])
      ha.new_ne trivial hnew (fun _ _ => view_lit) hpath hslash (by omega) (by omega)
    have h0 : 0 ∉ joinPath st.reverse ++ [47] := fun h => (List.mem_append.mp h).elim hpath hslash
    obtain ⟨m2, hrun2, hstr2, hsame2⟩ :=
      @strcat_run m1 (newAbsPath + (len + 1)) newAbsPath (joinPath st.reverse ++ [47]) c (.mem name)
      ha.new_ne ha.name_ne hstr1 (fun m' hm' => by
        rw [view_mem]
        exact hm'.strEq (hsame1.strEq hname hapart) (by omega)) h0 hc0 (by omega) (by omega)
    refine ⟨m2, ?_, ?_, hsame1.trans hsame2⟩
    . rw [Cmd.exec_bind hrun1]
      exact hrun2
    . rw [List.append_assoc, List.singleton_append] at hstr2
      exact hstr2
  . next heq =>
    have hnil := (pathOf_eq_slash hst).mp (hr.mp (not_not.mp heq))
    subst hnil
    have hall : ([47] ++ c).length = 1 + c.length := List.length_append
    obtain ⟨m', hrun, hstr, hsame⟩ :=
      @strcat_run m (newAbsPath + (len + 1)) newAbsPath [47] c (.mem name)
      ha.new_ne ha.name_ne hnew (fun m' hm' => by
        rw [view_mem]
        exact hm'.strEq hname (by rw [List.length_singleton]; omega)) hslash hc0 (by omega)
          (by omega)
    exact ⟨m', hrun, hstr, hsame⟩

theorem washPath.addName_run (ha : Apart newAbsPath name oldAbsPath len) (hst : ∀ x ∈ st, Segment x)
    (hst0 : ∀ x ∈ st, 0 ∉ x) (hc0 : 0 ∉ c) (hnew : m.strEq newAbsPath (pathOf st) = true)
    (hname : m.strEq name c = true) (hshort : c.length < maxFileNameLen)
    (hlen : (joinPath st.reverse).length + (c.length + 1) ≤ len)
    : ∃ m', (addName newAbsPath name).run m = .ok ((), m')
        ∧ m'.strEq newAbsPath (pathOf (stackName st c)) = true
        ∧ SameOutside m m' newAbsPath (newAbsPath + (len + 1)) := by
  have hname0 : ((StrPtr.mem name).view m).strEq 0 c = true := by
    rw [view_mem]
    exact hname
  obtain ⟨up, hup, hup0⟩ := @strcmp_run m [46, 46] c (.lit [46, 46]) (.mem name) trivial ha.name_ne
    (by decide) hc0 view_lit
    hname0 (by decide)
  obtain ⟨stay, hstay, hstay0⟩ := @strcmp_run m [46] c (.lit [46]) (.mem name) trivial ha.name_ne
    (by decide) hc0 view_lit
    hname0 (by decide)
  unfold addName stackName
  rw [Cmd.exec_bind hup]
  split
  . next h =>
    rw [if_pos (hup0.mp h).symm]
    exact popName_run ha hst hst0 hnew (length_pathOf_le (by omega) (by omega))
  . next h =>
    rw [if_neg fun hc => h (hup0.mpr hc.symm), Cmd.exec_bind hstay]
    split
    . next h' =>
      rw [if_neg fun hc => h' (hstay0.mpr hc.symm)]
      exact pushName_run ha hst hst0 hc0 hnew hname hshort hlen
    . next h' =>
      rw [if_pos (hstay0.mp (not_not.mp h')).symm]
      exact ⟨m, rfl, hnew, .refl⟩

end AddName

section Loop

variable {sub : Option (List UInt8)} {subPath : Option Nat}

structure Parsed (m : Mem) (name first last : Nat) (c : List UInt8) (subPath : Option Nat)
    (sub : Option (List UInt8)) : Prop where
  name : m.strEq name c = true
  rest : SubPath m first last subPath sub

theorem mem_of_remaining (h : remaining c sub = names) : c = [] ∨ c ∈ names := by
  unfold remaining at h
  split at h
  . next hnil => exact .inl hnil
  . rw [← h]
    exact .inr List.mem_cons_self

theorem washPath.parseRest_run (ha : Apart newAbsPath name oldAbsPath len)
    (hsub : SubPath m oldAbsPath (oldAbsPath + len) subPath sub)
    (hshort : ∀ x ∈ components (sub.getD []), x.length < maxFileNameLen)
    (hzero : ∀ i < maxFileNameLen, m (name + i) = 0)
    : ∃ subPath' m' c sub', (washPath.parseRest name subPath).run m = .ok (subPath', m')
        ∧ Parsed m' name oldAbsPath (oldAbsPath + len) c subPath' sub' ∧ remaining c sub'
            = components (sub.getD [])
        ∧ SameOutside m m' name (name + maxFileNameLen) := by
  cases subPath with
  | none =>
    cases sub with
    | some r => exact hsub.elim
    | none => exact ⟨none, m, [], none, rfl, ⟨Mem.strEq_nil.mpr (hzero 0 (by decide)), trivial⟩,
        rfl, .refl⟩
  | some q =>
    cases sub with
    | none => exact hsub.elim
    | some r =>
      rw [Option.getD_some] at hshort ⊢
      have hrem := @remaining_pathParse r
      have hsize : (RogOS.pathParse r).1.length < maxFileNameLen := by
        cases mem_of_remaining hrem with
        | inl hnil =>
          rw [hnil]
          decide
        | inr hmem => exact hshort _ hmem
      have hlt := ha.lt
      have hle := hsub.le
      have hlen := hsub.length
      have hname := ha.name_old
      obtain ⟨subPath', m', h1, h2, h3, h4⟩ :=
        @pathParse_run m maxFileNameLen q name r hsub.str hsub.nulFree (by omega) (by omega)
        hsize hzero
      rw [hlen] at h4
      -- what is left now ends where the path ends
      have hrest := h4.imp fun q' r' hr => ⟨Nat.le_trans hle hr.le, hr.length, hr.nulFree, hr.str⟩
      exact ⟨subPath', m', _, _, h1, ⟨h2, hrest⟩, hrem, h3⟩

theorem washPath.go_run (ha : Apart newAbsPath name oldAbsPath len)
    (hst : ∀ x ∈ st, Segment x ∧ 0 ∉ x) (hnames : remaining c sub = names)
    (hseg : ∀ x ∈ names, Segment x ∧ 0 ∉ x) (hshort : ∀ x ∈ names, x.length < maxFileNameLen)
    (hnew : m.strEq newAbsPath (pathOf st) = true)
    (hparsed : Parsed m name oldAbsPath (oldAbsPath + len) c subPath sub)
    (hlen : (joinPath st.reverse).length + (joinPath names).length ≤ len) (hpos : 1 ≤ len)
    (hfuel : names.length < fuel)
    : ∃ m', (go newAbsPath name fuel subPath).run m = .ok ((), m')
        ∧ m'.strEq newAbsPath (pathOf (names.foldl stackName st)) = true
            ∧ OnlyArrays newAbsPath name len m m' := by
  induction fuel generalizing m c sub subPath names st with
  | zero => omega
  | succ fuel ih =>
    rw [go, Cmd.exec_get_bind]
    cases c with
    | nil =>
      rw [remaining, if_pos rfl] at hnames
      subst hnames
      rw [if_neg (not_not.mpr (Mem.strEq_nil.mp hparsed.name))]
      exact ⟨m, rfl, hnew, fun i _ _ => rfl⟩
    | cons x c =>
      rw [remaining, if_neg (List.cons_ne_nil _ _)] at hnames
      subst hnames
      rw [length_joinPath_cons] at hlen
      rw [List.length_cons] at hfuel
      obtain ⟨hseg0, hseg⟩ := List.forall_mem_cons.mp hseg
      obtain ⟨hshort0, hshort⟩ := List.forall_mem_cons.mp hshort
      have hx : m name ≠ 0 := by
        rw [Ne, Mem.eq_zero_iff_of_strEq hparsed.name hseg0.2]
        exact List.cons_ne_nil _ _
      obtain ⟨m1, hrun1, hstr1, hsame1⟩ := addName_run ha (fun y hy => (hst y hy).1) (fun y hy =>
          (hst y hy).2) hseg0.2 hnew
        hparsed.name hshort0 (by omega)
      have hst1 : ∀ y ∈ stackName st (x :: c), Segment y ∧ 0 ∉ y := by
        intro y hy
        rw [← cancel_stepOf] at hy
        cases @mem_of_mem_cancel y [x :: c] st hy with
        | inl hy => exact hst y hy
        | inr hy =>
          rw [List.mem_singleton.mp hy]
          exact hseg0
      have hwashed := @length_joinPath_cancel (x :: c) st
      rw [cancel_stepOf] at hwashed
      have hle := length_pathOf_le (show (joinPath (stackName st (x :: c)).reverse).length ≤ len by
          omega) hpos
      obtain ⟨m2, hrun2, hsame2, hzero⟩ := @memset_run m1 name maxFileNameLen 0 ha.name_ne
      have happ := ha.new_name
      have hstr2 := hsame2.strEq hstr1 (by omega)
      -- the rest of the path is out of reach
      have hrest : SubPath m2 oldAbsPath (oldAbsPath + len) subPath sub :=
        hparsed.rest.imp fun q r hr => by
        have h1 := hr.le
        have h2 := hr.length
        have h3 := ha.new_old
        have h4 := ha.name_old
        exact ⟨h1, h2, hr.nulFree, hsame2.strEq (hsame1.strEq hr.str (by omega)) (by omega)⟩
      obtain ⟨subPath', m3, c', sub', hrun3, hparsed', hrem, hsame3⟩ :=
        washPath.parseRest_run ha hrest hshort hzero
      obtain ⟨m', hrun, hstr, honly⟩ :=
        ih hst1 hrem hseg hshort (hsame3.strEq hstr2 (by omega)) hparsed' (by omega) (by omega)
      refine ⟨m', ?_, hstr, ?_⟩
      . rw [if_pos hx, Cmd.exec_bind hrun1, Cmd.exec_bind hrun2, Cmd.exec_bind hrun3]
        exact hrun
      . apply (onlyArrays_of_new hsame1).trans
        exact ((onlyArrays_of_name hsame2).trans (onlyArrays_of_name hsame3)).trans honly

end Loop

theorem washPath_run (ha : Apart newAbsPath name oldAbsPath p.length) (habs : p.head? = some 47)
    (hp0 : 0 ∉ p) (hshort : ∀ x ∈ components p, x.length < maxFileNameLen)
    (hp : m.strEq oldAbsPath p = true)
    : ∃ m', (washPath newAbsPath name oldAbsPath).run m = .ok ((), m')
        ∧ m'.strEq newAbsPath (washed p) = true
        ∧ OnlyArrays newAbsPath name p.length m m' := by
  have hpos : 1 ≤ p.length := by
    cases p with
    | nil => contradiction
    | cons x p => exact Nat.succ_pos _
  have hjoin := length_joinPath_components habs
  have hcount := @length_joinPath (components p)
  have hlt := ha.lt
  have hnew := ha.new_name
  have happ := ha.name_old
  have hseg : ∀ x ∈ components p, Segment x ∧ 0 ∉ x := by
    intro x hx
    obtain ⟨h1, h2, h3⟩ := mem_components hx
    exact ⟨⟨h1, h2⟩, fun h0 => hp0 (h3 0 h0)⟩
  obtain ⟨m1, hrun1, hsame1, hzero⟩ := @memset_run m name maxFileNameLen 0 ha.name_ne
  have hrest : SubPath m1 oldAbsPath (oldAbsPath + p.length) (some oldAbsPath) (some p) :=
    ⟨Nat.le_refl _, rfl, hp0, hsame1.strEq hp (by omega)⟩
  obtain ⟨subPath, m2, c, sub, hrun2, hparsed, hrem, hsame2⟩ :=
    washPath.parseRest_run ha hrest hshort hzero
  rw [Option.getD_some] at hrem
  have hrun : (washPath newAbsPath name oldAbsPath).run m = (do
      let m ← get
      if m name = 0 then
        store newAbsPath 47
        store (newAbsPath + 1) 0
      else
        store newAbsPath 0
        strcat newAbsPath (.lit [47])
        washPath.go newAbsPath name addressSpace subPath : ShellM Unit).run m2 := by
    rw [washPath, Cmd.exec_bind hrun1]
    exact Cmd.exec_bind hrun2
  rw [hrun, Cmd.exec_get_bind, washed_eq]
  have hc : c.length < maxFileNameLen ∧ 0 ∉ c := by
    cases mem_of_remaining hrem with
    | inl hnil =>
      rw [hnil]
      decide
    | inr hmem => exact ⟨hshort c hmem, (hseg c hmem).2⟩
  have honly := (@onlyArrays_of_name _ _ newAbsPath _ p.length hsame1).trans
    (onlyArrays_of_name hsame2)
  split
  . next hz =>
    -- nothing but slashes
    have hnil := (Mem.eq_zero_iff_of_strEq hparsed.name hc.2).mp hz
    rw [remaining, if_pos hnil] at hrem
    rw [← hrem]
    refine ⟨Function.update (Function.update m2 newAbsPath 47) (newAbsPath + 1) 0, rfl, ?_,
      honly.trans (onlyArrays_of_new ?_)⟩
    . rw [List.foldl_nil, show pathOf [] = [47] from rfl, Mem.strEq_cons, Mem.strEq_nil]
      constructor
      . rw [Function.update_of_ne (by omega)]
        exact Function.update_self ..
      . exact Function.update_self ..
    . apply SameOutside.trans (SameOutside.update.mono (Nat.le_refl _) (by omega))
      exact SameOutside.update.mono (Nat.le_succ _) (by omega)
  . have hempty : SameOutside m2 (Function.update m2 newAbsPath 0) newAbsPath
        (newAbsPath + (p.length + 1)) :=
      SameOutside.update.mono (Nat.le_refl _) (by omega)
    have hstr0 : Mem.strEq (Function.update m2 newAbsPath 0) newAbsPath [] = true := by
      rw [Mem.strEq_nil]
      exact Function.update_self ..
    obtain ⟨m3, hrun3, hstr3, hsame3⟩ :=
      @strcat_run _ (newAbsPath + (p.length + 1)) newAbsPath [] [47] (.lit [47])
      ha.new_ne trivial hstr0 (fun _ _ => view_lit) List.not_mem_nil (by decide)
      (by rw [List.nil_append, List.length_singleton]; omega) (by decide)
    have hsame := hempty.trans hsame3
    have hold := ha.new_old
    have hparsed' : Parsed m3 name oldAbsPath (oldAbsPath + p.length) c subPath sub := by
      constructor
      . exact hsame.strEq hparsed.name (by omega)
      . apply hparsed.rest.imp
        intro q r hr
        have h1 := hr.le
        have h2 := hr.length
        exact ⟨h1, h2, hr.nulFree, hsame.strEq hr.str (by omega)⟩
    obtain ⟨m', hrun', hstr', honly'⟩ :=
      @washPath.go_run c [] (components p) m3 newAbsPath name oldAbsPath p.length addressSpace
      sub subPath ha (fun x hx => absurd hx List.not_mem_nil) hrem hseg hshort hstr3 hparsed'
      (by rw [List.reverse_nil, show (joinPath []).length = 0 from rfl]; omega) hpos (by omega)
    refine ⟨m', ?_, hstr', (honly.trans (onlyArrays_of_new hsame)).trans honly'⟩
    rw [store_bind, Cmd.exec_bind hrun3]
    exact hrun'

theorem washPath_refines {σ : Type} {t : σ} {r : List UInt8 × σ}
    (ha : Apart newAbsPath name oldAbsPath p.length)
    (habs : p.head? = some 47) (hp0 : 0 ∉ p) (hlen : p.length < 512)
    (hshort : ∀ x ∈ components p, x.length < maxFileNameLen)
    (hp : m.strEq oldAbsPath p = true) (h : (RogOS.washPath p).run t = .ok r)
    : ∃ m', (washPath newAbsPath name oldAbsPath).run m = .ok ((), m') ∧ m'.strEq newAbsPath r.1
        = true := by
  rw [washPath_ok habs hlen hshort] at h
  cases h
  obtain ⟨m', hrun, hstr, -⟩ := washPath_run ha habs hp0 hshort hp
  exact ⟨m', hrun, hstr⟩

/--
`wash_path` writes the names of the path as they are left on a stack from which `..` drops a name,
`/` for none of them. A path that it wrote is not changed when it is washed again.
-/
theorem washPath_normalises (ha : Apart newAbsPath name oldAbsPath p.length)
    (habs : p.head? = some 47) (hp0 : 0 ∉ p) (hshort : ∀ x ∈ components p, x.length ≤ 15)
    (hp : m.strEq oldAbsPath p = true)
    : ∃ q m', q = pathOf ((components p).foldl stackName [])
        ∧ (washPath newAbsPath name oldAbsPath).run m = .ok ((), m') ∧ m'.strEq newAbsPath q = true
        ∧ OnlyArrays newAbsPath name p.length m m' ∧ Canonical q
        ∧ ∀ m new name' old, Apart new name' old q.length → m.strEq old q = true →
            ∃ m', (washPath new name' old).run m = .ok ((), m') ∧ m'.strEq new q = true := by
  have hshort : ∀ x ∈ components p, x.length < maxFileNameLen := fun x hx =>
    Nat.lt_succ_of_le (hshort x hx)
  obtain ⟨m', hrun, hstr, honly⟩ := washPath_run ha habs hp0 hshort hp
  refine ⟨washed p, m', washed_eq, hrun, hstr, honly, canonical_washed, ?_⟩
  intro m2 new2 name2 old2 ha2 hp2
  have hmem : ∀ x ∈ components (washed p), x ∈ components p := by
    intro x hx
    rw [components_washed, List.mem_reverse] at hx
    exact (mem_of_mem_cancel hx).resolve_left List.not_mem_nil
  have hwashed0 : 0 ∉ washed p := by
    apply zero_not_mem_pathOf
    intro x hx h0
    have hx' := (mem_of_mem_cancel hx).resolve_left List.not_mem_nil
    exact hp0 ((mem_components hx').2.2 0 h0)
  obtain ⟨m2', hrun2, hstr2, -⟩ := washPath_run ha2 washed_head? hwashed0 (fun x hx =>
      hshort x (hmem x hx)) hp2
  rw [washed_washed] at hstr2
  exact ⟨m2', hrun2, hstr2⟩

def slashedPath : List UInt8 := [47, 97, 47, 47, 46, 47, 46, 46, 47, 46, 46, 47, 98, 47]

def slashedMem : Mem := fun i => if i < 100 then 7 else slashedPath.getD (i - 100) 0

theorem washPath_normalises_slashedPath
    : ∃ m', (washPath 200 300 100).run slashedMem = .ok ((), m') ∧ m'.strEq 200 [47, 98]
        = true := by
  have ha : Apart 200 300 100 slashedPath.length := by
    constructor <;> decide
  have hp : slashedMem.strEq 100 slashedPath = true := by decide
  obtain ⟨q, m', hq, hrun, hstr, -⟩ := washPath_normalises ha (by decide) (by decide) (by decide) hp
  refine ⟨m', hrun, ?_⟩
  rw [show q = [47, 98] by rw [hq]; decide] at hstr
  exact hstr

end Ptr

end RogOS
