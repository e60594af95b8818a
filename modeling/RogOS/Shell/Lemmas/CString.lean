import RogOS.Fs.Lemmas.Path
import RogOS.Lib.CStr
import RogOS.Shell.Impl.WashPath

/-!
What the functions of `string.c` and `path_parse` do to the strings of a memory.
-/

namespace RogOS

namespace Ptr

open Mem (SameOutside)

variable {m : Mem} {a b lo hi dst str i size fuel : Nat} {value : UInt8} {s t : List UInt8}
  {p : StrPtr}

section Memset

theorem store_bind {α : Type} {f : Unit → ShellM α}
    : (store a value >>= f).run m = (f ()).run (Function.update m a value) := rfl

theorem memset.go_run
    : ∃ m', (go value size dst).run m = .ok ((), m') ∧ SameOutside m m' dst (dst + size)
    ∧ ∀ i < size, m' (dst + i) = value := by
  induction size generalizing m dst with
  | zero => exact ⟨m, rfl, .refl, fun i hi => absurd hi (Nat.not_lt_zero i)⟩
  | succ size ih =>
    obtain ⟨m', h1, h2, h3⟩ := @ih (Function.update m dst value) (dst + 1)
    refine ⟨m', ?_, ?_, ?_⟩
    . rw [go, store_bind]
      exact h1
    . apply SameOutside.trans (SameOutside.update.mono (Nat.le_refl _) (by omega))
      exact h2.mono (Nat.le_succ _) (by omega)
    . intro i hi
      cases i with
      | zero =>
        rw [Nat.add_zero, h2 dst (by omega)]
        exact Function.update_self ..
      | succ i =>
        rw [show dst + (i + 1) = dst + 1 + i by omega]
        exact h3 i (by omega)

theorem memset_run (hdst : dst ≠ 0) : ∃ m', (memset dst value size).run m = .ok ((), m')
    ∧ SameOutside m m' dst (dst + size) ∧ ∀ i < size, m' (dst + i) = value := by
  rw [memset, Cmd.exec_assert_bind, if_pos hdst]
  exact memset.go_run

end Memset

section Strcmp

theorem charVal_inj {c d : UInt8} (h : charVal c = charVal d) : c = d := by
  apply UInt8.toBitVec_inj.mp
  exact BitVec.eq_of_toInt_eq h

theorem charVal_of_lt {c : UInt8} (hc : c.toNat < 128) : charVal c = c.toNat := by
  show c.toBitVec.toInt = c.toNat
  rw [BitVec.toInt_eq_toNat_of_lt]
  . rfl
  . show 2 * c.toNat < 256
    omega

theorem strcmp.go_run {q : StrPtr} (hs : 0 ∉ s) (ht : 0 ∉ t) (hp : (p.view m).strEq i s = true)
    (hq : (q.view m).strEq i t = true) (hfuel : s.length < fuel)
    : ∃ c, (go p q fuel i).run m = .ok (c, m) ∧ (c = 0 ↔ s = t) := by
  induction fuel generalizing i s t with
  | zero => omega
  | succ fuel ih =>
    rw [go, Cmd.exec_get_bind]
    split
    . next h =>
      -- both strings have one character more
      obtain ⟨hne, heq⟩ := h
      cases s with
      | nil => exact absurd (Mem.strEq_nil.mp hp) hne
      | cons c s =>
        cases t with
        | nil => exact absurd (heq.trans (Mem.strEq_nil.mp hq)) hne
        | cons d t =>
          rw [List.mem_cons, not_or] at hs ht
          obtain ⟨hc, hp⟩ := Mem.strEq_cons.mp hp
          obtain ⟨hd, hq⟩ := Mem.strEq_cons.mp hq
          obtain ⟨r, h1, h2⟩ := ih hs.2 ht.2 hp hq (by rw [List.length_cons] at hfuel; omega)
          refine ⟨r, h1, ?_⟩
          rw [h2, ← hc, ← hd, heq, List.cons.injEq]
          simp only [true_and]
    . next h =>
      refine ⟨_, rfl, ?_⟩
      have hsame : s = t ↔ p.view m i = q.view m i := by
        constructor
        . rintro rfl
          cases s with
          | nil => rw [Mem.strEq_nil.mp hp, Mem.strEq_nil.mp hq]
          | cons c s => rw [(Mem.strEq_cons.mp hp).1, (Mem.strEq_cons.mp hq).1]
        . intro heq
          have hz : p.view m i = 0 := by
            by_contra hne
            exact h ⟨hne, heq⟩
          cases s with
          | cons c s =>
            rw [(Mem.strEq_cons.mp hp).1] at hz
            exact absurd (List.mem_cons.mpr (.inl hz.symm)) hs
          | nil =>
            cases t with
            | nil => rfl
            | cons d t =>
              rw [heq, (Mem.strEq_cons.mp hq).1] at hz
              exact absurd (List.mem_cons.mpr (.inl hz.symm)) ht
      rw [hsame]
      constructor
      . intro h0
        apply charVal_inj
        split at h0
        . contradiction
        . split at h0
          . contradiction
          . omega
      . intro heq
        rw [heq, if_neg (lt_irrefl _), if_neg (lt_irrefl _)]

theorem strcmp_run {q : StrPtr} (hpn : p.NotNull) (hqn : q.NotNull) (hs : 0 ∉ s) (ht : 0 ∉ t)
    (hp : (p.view m).strEq 0 s = true) (hq : (q.view m).strEq 0 t = true)
    (hlen : s.length < addressSpace)
    : ∃ c, (strcmp p q).run m = .ok (c, m) ∧ (c = 0 ↔ s = t) := by
  rw [strcmp, Cmd.exec_assert_bind, if_pos ⟨hpn, hqn⟩]
  exact strcmp.go_run hs ht hp hq hlen

end Strcmp

section Strrchr

variable {last : Option Nat} {q : List UInt8}

theorem strrchr.go_of_not_mem (h : m.strEq str s = true) (hs : 0 ∉ s) (hch : 47 ∉ s)
    (hfuel : s.length < fuel)
    : (go 47 fuel str last).run m = .ok (last, m) := by
  induction fuel generalizing str s with
  | zero => omega
  | succ fuel ih =>
    rw [go, Cmd.exec_get_bind]
    cases s with
    | nil =>
      rw [if_neg (not_not.mpr (Mem.strEq_nil.mp h))]
      rfl
    | cons c s =>
      rw [List.mem_cons, not_or] at hs hch
      rw [List.length_cons] at hfuel
      obtain ⟨hc, h⟩ := Mem.strEq_cons.mp h
      rw [hc, if_pos (Ne.symm hs.1), if_neg]
      . exact ih h hs.2 hch.2 (by omega)
      . intro hval
        exact hch.1 (charVal_inj (hval.trans (charVal_of_lt (by decide)).symm)).symm

theorem strrchr.go_run (h : m.strEq str (q ++ 47 :: s) = true) (hq : 0 ∉ q) (hs : 0 ∉ s)
    (hch : 47 ∉ s) (hfuel : (q ++ 47 :: s).length < fuel)
    : (go 47 fuel str last).run m = .ok (some (str + q.length), m) := by
  induction q generalizing fuel str last with
  | nil =>
    obtain ⟨hc, h⟩ := Mem.strEq_cons.mp h
    cases fuel with
    | zero => omega
    | succ fuel =>
      rw [go, Cmd.exec_get_bind, hc, if_pos (by decide), if_pos (charVal_of_lt (by decide))]
      apply strrchr.go_of_not_mem h hs hch
      rw [List.nil_append, List.length_cons] at hfuel
      omega
  | cons c q ih =>
    rw [List.mem_cons, not_or] at hq
    rw [List.cons_append] at h
    obtain ⟨hc, h⟩ := Mem.strEq_cons.mp h
    cases fuel with
    | zero => omega
    | succ fuel =>
      rw [go, Cmd.exec_get_bind, hc, if_pos (Ne.symm hq.1), List.length_cons,
        show str + (q.length + 1) = str + 1 + q.length by omega]
      apply ih h hq.2
      rw [List.cons_append, List.length_cons] at hfuel
      omega

theorem strrchr_run (hstr : str ≠ 0) (h : m.strEq str (q ++ 47 :: s) = true) (hq : 0 ∉ q)
    (hs : 0 ∉ s) (hch : 47 ∉ s) (hlen : (q ++ 47 :: s).length < addressSpace)
    : (strrchr str 47).run m = .ok (some (str + q.length), m) := by
  rw [strrchr, Cmd.exec_assert_bind, if_pos hstr]
  exact strrchr.go_run h hq hs hch hlen

end Strrchr

section Strcat

theorem strcat.atEnd_run (h : m.strEq str s = true) (hs : 0 ∉ s) (hfuel : s.length < fuel)
    : (atEnd fuel str).run m = .ok (str + s.length, m) := by
  induction fuel generalizing str s with
  | zero => omega
  | succ fuel ih =>
    rw [atEnd, Cmd.exec_get_bind]
    cases s with
    | nil =>
      rw [if_neg (not_not.mpr (Mem.strEq_nil.mp h))]
      rfl
    | cons c s =>
      rw [List.mem_cons, not_or] at hs
      obtain ⟨hc, h⟩ := Mem.strEq_cons.mp h
      rw [hc, if_pos (Ne.symm hs.1), List.length_cons, show str + (s.length + 1)
        = str + 1 + s.length by omega]
      apply ih h hs.2
      rw [List.length_cons] at hfuel
      omega

theorem strcat.copy_run (hsrc : ∀ m', SameOutside m m' lo hi → (p.view m').strEq i t = true)
    (ht : 0 ∉ t) (hlo : lo ≤ str) (hhi : str + t.length < hi) (hfuel : t.length < fuel)
    : ∃ m', (copy p fuel str i).run m = .ok ((), m') ∧ m'.strEq str t = true
        ∧ SameOutside m m' str (str + t.length + 1) := by
  induction t generalizing m str i fuel with
  | nil =>
    cases fuel with
    | zero => omega
    | succ fuel =>
      have hz := Mem.strEq_nil.mp (hsrc m .refl)
      refine ⟨Function.update m str 0, ?_, ?_, ?_⟩
      . rw [copy, Cmd.exec_get_bind, store_bind, hz]
        rfl
      . rw [Mem.strEq_nil]
        exact Function.update_self ..
      . exact SameOutside.update
  | cons c t ih =>
    cases fuel with
    | zero => omega
    | succ fuel =>
      rw [List.mem_cons, not_or] at ht
      rw [List.length_cons] at hhi hfuel
      have hc := (Mem.strEq_cons.mp (hsrc m .refl)).1
      have hupdate : SameOutside m (Function.update m str c) lo hi :=
        SameOutside.update.mono hlo (by omega)
      obtain ⟨m', h1, h2, h3⟩ := @ih (Function.update m str c) (str + 1) (i + 1) fuel
        (fun m' hm' => (Mem.strEq_cons.mp (hsrc m' (hupdate.trans hm'))).2) ht.2 (by omega)
          (by omega) (by omega)
      refine ⟨m', ?_, ?_, ?_⟩
      . rw [copy, Cmd.exec_get_bind, store_bind, hc, if_pos (Ne.symm ht.1)]
        exact h1
      . rw [Mem.strEq_cons]
        refine ⟨?_, h2⟩
        rw [h3 str (by omega)]
        exact Function.update_self ..
      . rw [List.length_cons]
        apply SameOutside.trans (SameOutside.update.mono (Nat.le_refl _) (by omega))
        exact h3.mono (Nat.le_succ _) (by omega)

theorem strcat_run (hdst : dst ≠ 0) (hp : p.NotNull) (hs : m.strEq dst s = true)
    (hsrc : ∀ m', SameOutside m m' (dst + s.length) hi → (p.view m').strEq 0 t = true)
    (hs0 : 0 ∉ s) (ht0 : 0 ∉ t) (hhi : dst + (s ++ t).length < hi)
    (hlen : (s ++ t).length < addressSpace)
    : ∃ m', (strcat dst p).run m = .ok ((), m') ∧ m'.strEq dst (s ++ t) = true
        ∧ SameOutside m m' dst hi := by
  rw [List.length_append] at hhi hlen
  obtain ⟨m', h1, h2, h3⟩ :=
    @strcat.copy_run m (dst + s.length) hi (dst + s.length) 0 addressSpace t p hsrc ht0
    (Nat.le_refl _) (by omega) (by omega)
  refine ⟨m', ?_, ?_, h3.mono (Nat.le_add_right _ _) (by omega)⟩
  . rw [strcat, Cmd.exec_assert_bind, if_pos ⟨hdst, hp⟩,
      Cmd.exec_bind (strcat.atEnd_run hs hs0 (by omega))]
    exact h1
  . rw [Mem.strEq_append]
    refine ⟨?_, h2⟩
    intro i hi
    rw [h3 (dst + i) (by omega)]
    exact (Mem.strEq_iff.mp hs).1 i hi

theorem view_lit : (StrPtr.view m (.lit s)).strEq 0 s = true := Mem.strEq_getD

theorem view_mem : (StrPtr.view m (.mem a)).strEq 0 s = m.strEq a s := Mem.strEq_shift

end Strcat

section PathParse

variable {n q name : Nat} {c r w path : List UInt8}

theorem pathParse.skip_run (h : m.strEq q (List.replicate n 47 ++ t) = true)
    (ht : t.head? ≠ some 47) (hfuel : n < fuel)
    : (skip fuel q).run m = .ok (q + n, m) := by
  induction n generalizing q fuel with
  | zero =>
    cases fuel with
    | zero => omega
    | succ fuel =>
      rw [skip, Cmd.exec_get_bind, if_neg]
      . rfl
      . intro hq
        cases t with
        | nil =>
          have hz : m q = 0 := Mem.strEq_nil.mp h
          rw [hz] at hq
          contradiction
        | cons x t =>
          have hx : m q = x := (Mem.strEq_cons.mp h).1
          rw [hx] at hq
          exact ht (congrArg some hq)
  | succ n ih =>
    cases fuel with
    | zero => omega
    | succ fuel =>
      rw [List.replicate_succ, List.cons_append] at h
      obtain ⟨hq, h⟩ := Mem.strEq_cons.mp h
      rw [skip, Cmd.exec_get_bind, if_pos hq, show q + (n + 1) = q + 1 + n by omega]
      exact ih h (by omega)

theorem pathParse.copy_run (h : m.strEq q (w ++ t) = true) (hc : 0 ∉ w) (hslash : 47 ∉ w)
    (ht : t = [] ∨ t.head? = some 47) (hname : name + w.length ≤ q ∨ q + (w ++ t).length < name)
    (hfuel : w.length < fuel)
    : ∃ m', (copy fuel q name).run m = .ok (q + w.length, m')
        ∧ (∀ i (hi : i < w.length), m' (name + i) = w[i])
        ∧ SameOutside m m' name (name + w.length) := by
  induction w generalizing m q name fuel with
  | nil =>
    cases fuel with
    | zero => omega
    | succ fuel =>
      refine ⟨m, ?_, fun i hi => absurd hi (Nat.not_lt_zero i), .refl⟩
      rw [copy, Cmd.exec_get_bind, if_neg]
      . rfl
      . rintro ⟨h1, h2⟩
        cases t with
        | nil => exact h2 (Mem.strEq_nil.mp h)
        | cons x t =>
          have hx : m q = x := (Mem.strEq_cons.mp h).1
          obtain ht | ht := ht
          . contradiction
          . rw [hx] at h1
            exact h1 (Option.some.inj ht)
  | cons x w ih =>
    cases fuel with
    | zero => omega
    | succ fuel =>
      rw [List.mem_cons, not_or] at hc hslash
      rw [List.cons_append, List.length_cons, List.length_cons] at hname
      rw [List.length_cons] at hfuel
      rw [List.cons_append] at h
      obtain ⟨hx, h⟩ := Mem.strEq_cons.mp h
      have hrest : Mem.strEq (Function.update m name x) (q + 1) (w ++ t) = true :=
        SameOutside.update.strEq h (by omega)
      obtain ⟨m', h1, h2, h3⟩ :=
        @ih (Function.update m name x) fuel (q + 1) (name + 1) hrest hc.2 hslash.2
        (by omega) (by omega)
      refine ⟨m', ?_, ?_, ?_⟩
      . rw [copy, Cmd.exec_get_bind, hx, if_pos ⟨Ne.symm hslash.1, Ne.symm hc.1⟩, store_bind,
          List.length_cons, show q + (w.length + 1) = q + 1 + w.length by omega]
        exact h1
      . intro i hi
        cases i with
        | zero =>
          rw [Nat.add_zero, h3 name (by omega)]
          exact Function.update_self ..
        | succ i =>
          rw [show name + (i + 1) = name + 1 + i by omega]
          exact h2 i (Nat.lt_of_succ_lt_succ hi)
      . rw [List.length_cons]
        apply SameOutside.trans (SameOutside.update.mono (Nat.le_refl _) (by omega))
        exact h3.mono (Nat.le_succ _) (by omega)

structure RestAt (m : Mem) (first last q : Nat) (r : List UInt8) : Prop where
  le : first ≤ q
  length : q + r.length = last
  nulFree : 0 ∉ r
  str : m.strEq q r = true

def SubPath (m : Mem) (first last : Nat) : Option Nat → Option (List UInt8) → Prop
  | none, none => True
  | some q, some r => RestAt m first last q r
  | _, _ => False

theorem SubPath.imp {m' : Mem} {first last first' last' : Nat} {subPath : Option Nat}
    {sub : Option (List UInt8)} (h : SubPath m first last subPath sub)
    (f : ∀ q r, RestAt m first last q r → RestAt m' first' last' q r)
    : SubPath m' first' last' subPath sub := by
  cases subPath with
  | none =>
    cases sub with
    | none => trivial
    | some r => exact h.elim
  | some q =>
    cases sub with
    | none => exact h.elim
    | some r => exact f q r h

theorem pathParse_name_run (h : m.strEq q (List.replicate n 47 ++ (c ++ t)) = true) (hc : 0 ∉ c)
    (hslash : 47 ∉ c) (hne : c = [] → t = []) (ht : t = [] ∨ t.head? = some 47)
    (hname : name + size ≤ q ∨ q + (List.replicate n 47 ++ (c ++ t)).length < name)
    (hsize : c.length < size) (hzero : ∀ i < size, m (name + i) = 0)
    (hlen : (List.replicate n 47 ++ (c ++ t)).length < addressSpace)
    : ∃ m', (pathParse q name).run m = .ok (if t = [] then none else some (q + n + c.length), m')
        ∧ m'.strEq name c = true ∧ SameOutside m m' name (name + size) := by
  rw [List.length_append, List.length_replicate] at hname hlen
  have hlength : (c ++ t).length = c.length + t.length := List.length_append
  have hhead : (c ++ t).head? ≠ some 47 := by
    cases c with
    | nil =>
      rw [hne rfl]
      exact nofun
    | cons x c =>
      rw [List.mem_cons, not_or] at hslash
      intro hx
      exact hslash.1 (Option.some.inj hx).symm
  have hrest : m.strEq (q + n) (c ++ t) = true := by
    have hsplit := (Mem.strEq_append.mp h).2
    rw [List.length_replicate] at hsplit
    exact hsplit
  have hskip : (pathParse q name).run m = (do
      let last ← pathParse.copy addressSpace (q + n) name
      let m ← get
      pure (if m last = 0 then none else some last) : ShellM (Option Nat)).run m := by
    rw [pathParse, Cmd.exec_get_bind]
    dsimp only
    cases n with
    | zero =>
      rw [if_neg]
      . rfl
      . intro hq
        have hnone := @pathParse.skip_run m 1 (c ++ t) 0 q h hhead (by omega)
        rw [pathParse.skip, Cmd.exec_get_bind, if_pos hq] at hnone
        contradiction
    | succ n =>
      rw [List.replicate_succ, List.cons_append] at h
      obtain ⟨hq, h⟩ := Mem.strEq_cons.mp h
      rw [if_pos hq, Cmd.exec_bind (pathParse.skip_run h hhead (by omega)),
        show q + 1 + n = q + (n + 1) by omega]
  obtain ⟨m', h1, h2, h3⟩ := @pathParse.copy_run m addressSpace t (q + n) name c hrest hc hslash ht
    (by omega) (by omega)
  have hend : m' (q + n + c.length) = m (q + n + c.length) := by
    apply h3
    omega
  refine ⟨m', ?_, ?_, h3.mono (Nat.le_refl _) (by omega)⟩
  . rw [hskip, Cmd.exec_bind h1, Cmd.exec_get_bind, hend]
    have hlast := (Mem.strEq_append.mp hrest).2
    cases t with
    | nil =>
      rw [if_pos (Mem.strEq_nil.mp hlast), if_pos rfl]
      rfl
    | cons x t =>
      obtain ht | ht := ht
      . contradiction
      . have hx := (Mem.strEq_cons.mp hlast).1
        rw [hx, if_neg (List.cons_ne_nil _ _), if_neg]
        . rfl
        . rw [Option.some.inj ht]
          decide
  . rw [Mem.strEq_iff]
    refine ⟨h2, ?_⟩
    rw [h3 _ (by omega)]
    exact hzero _ hsize

theorem pathParse_run (h : m.strEq q path = true) (hpath : 0 ∉ path)
    (hlen : path.length < addressSpace) (hname : name + size ≤ q ∨ q + path.length < name)
    (hsize : (RogOS.pathParse path).1.length < size)
    (hzero : ∀ i < size, m (name + i) = 0)
    : ∃ sub m', (pathParse q name).run m = .ok (sub, m') ∧ m'.strEq name (RogOS.pathParse path).1
        = true
        ∧ SameOutside m m' name (name + size)
            ∧ SubPath m' q (q + path.length) sub (RogOS.pathParse path).2 := by
  obtain ⟨n, rfl⟩ | ⟨n, c, h1, h2, rfl | ⟨r, rfl⟩⟩ := path_cases path
  . rw [pathParse_slashes] at hsize ⊢
    obtain ⟨m', hrun, hstr, hsame⟩ :=
      @pathParse_name_run m size [] n q name [] (by rwa [List.append_nil, List.append_nil])
      List.not_mem_nil List.not_mem_nil (fun _ => rfl) (.inl rfl)
        (by rwa [List.append_nil, List.append_nil]) hsize hzero
      (by rwa [List.append_nil, List.append_nil])
    exact ⟨_, m', hrun, hstr, hsame, trivial⟩
  . rw [pathParse_last h2] at hsize ⊢
    have hc : 0 ∉ c := fun h0 => hpath (List.mem_append_right _ h0)
    obtain ⟨m', hrun, hstr, hsame⟩ :=
      @pathParse_name_run m size [] n q name c (by rwa [List.append_nil])
      hc h2 (fun h0 => absurd h0 h1) (.inl rfl) (by rwa [List.append_nil]) hsize hzero
        (by rwa [List.append_nil])
    exact ⟨_, m', hrun, hstr, hsame, trivial⟩
  . rw [pathParse_name h1 h2] at hsize ⊢
    have hc : 0 ∉ c := fun h0 => hpath (List.mem_append_right _ (List.mem_append_left _ h0))
    obtain ⟨m', hrun, hstr, hsame⟩ :=
      pathParse_name_run h hc h2 (fun h0 => absurd h0 h1) (.inr rfl) hname hsize hzero hlen
    refine ⟨_, m', hrun, hstr, hsame, ?_⟩
    have hrest := (Mem.strEq_append.mp (Mem.strEq_append.mp h).2).2
    rw [List.length_replicate] at hrest
    have hlength : (List.replicate n 47 ++ (c ++ 47 :: r)).length
        = n + (c.length + (r.length + 1)) := by
      rw [List.length_append, List.length_append, List.length_replicate, List.length_cons]
    rw [hlength] at hname
    constructor
    . omega
    . rw [hlength, List.length_cons]
      omega
    . exact fun h0 => hpath (List.mem_append_right _ (List.mem_append_right _ h0))
    . apply hsame.strEq hrest
      rw [List.length_cons]
      omega

end PathParse

end Ptr

end RogOS
