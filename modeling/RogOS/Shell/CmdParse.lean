import RogOS.Lib.CStr
import RogOS.Lib.Words
import RogOS.Shell.Impl.CmdParse

/-!
`cmd_parse` finds the words of a line. One word too many is not noticed, and two too many are stored
before they are.
-/

namespace RogOS

open CmdM Words
open Mem (SameOutside)

variable {m : Mem} {argv : Nat → Option Nat} {token : UInt8} {s t w : List UInt8}
  {a i n argc next fuel : Nat}
  {ws : List (Nat × List UInt8)} {x : Nat × List UInt8}

def putArgs
    : (argc : Nat) → (ws : List (Nat × List UInt8)) → (argv : Nat → Option Nat) → Nat → Option Nat
  | _, [], argv => argv
  | argc, x :: ws, argv => putArgs (argc + 1) ws (Function.update argv argc (some x.1))

section PutArgs

theorem putArgs_of_lt (h : i < argc) : putArgs argc ws argv i = argv i := by
  induction ws generalizing argc argv with
  | nil => rfl
  | cons x ws ih =>
    rw [putArgs, ih (by omega)]
    exact Function.update_of_ne (by omega) ..

theorem putArgs_of_le (h : argc + ws.length ≤ i) : putArgs argc ws argv i = argv i := by
  induction ws generalizing argc argv with
  | nil => rfl
  | cons x ws ih =>
    rw [List.length_cons] at h
    rw [putArgs, ih (by omega)]
    exact Function.update_of_ne (by omega) ..

theorem putArgs_get (h : i < ws.length) : putArgs argc ws argv (argc + i) = some ws[i].1 := by
  induction ws generalizing argc argv i with
  | nil => exact absurd h (Nat.not_lt_zero i)
  | cons x ws ih =>
    rw [putArgs]
    cases i with
    | zero =>
      rw [putArgs_of_lt (by omega)]
      exact Function.update_self ..
    | succ i =>
      rw [show argc + (i + 1) = argc + 1 + i by omega]
      exact ih (Nat.lt_of_succ_lt_succ h)

end PutArgs

namespace cmdParse

theorem clear_run {left : Nat} : ∃ argv', (clear left i).run ⟨m, argv⟩ = .ok ((), ⟨m, argv'⟩)
    ∧ (∀ k, i ≤ k → k < i + left → argv' k = none) ∧ ∀ k, k < i ∨ i + left ≤ k
        → argv' k = argv k := by
  induction left generalizing i argv with
  | zero => exact ⟨argv, rfl, fun k h1 h2 => absurd h1 (by omega), fun k _ => rfl⟩
  | succ left ih =>
    obtain ⟨argv', h1, h2, h3⟩ := @ih (Function.update argv i none) (i + 1)
    refine ⟨argv', h1, ?_, ?_⟩
    . intro k hk hk'
      by_cases hki : k = i
      . rw [hki, h3 i (by omega)]
        exact Function.update_self ..
      . exact h2 k (by omega) (by omega)
    . intro k hk
      rw [h3 k (by omega)]
      exact Function.update_of_ne (by omega) ..

theorem skip_run (h : m.strEq next (List.replicate n token ++ t) = true) (htoken : token ≠ 0)
    (ht : t.head? ≠ some token)
    (hfuel : n < fuel) : (skip token fuel next).run ⟨m, argv⟩ = .ok (next + n, ⟨m, argv⟩) := by
  induction n generalizing next fuel with
  | zero =>
    cases fuel with
    | zero => omega
    | succ fuel =>
      rw [skip, Cmd.exec_get_bind, if_neg]
      . rfl
      . intro hnext
        cases t with
        | nil => exact htoken (hnext.symm.trans (Mem.strEq_nil.mp h))
        | cons x t => exact ht (congrArg some ((Mem.strEq_cons.mp h).1.symm.trans hnext))
  | succ n ih =>
    cases fuel with
    | zero => omega
    | succ fuel =>
      rw [List.replicate_succ, List.cons_append] at h
      obtain ⟨hnext, h⟩ := Mem.strEq_cons.mp h
      rw [skip, Cmd.exec_get_bind, if_pos hnext, show next + (n + 1) = next + 1 + n by omega]
      exact ih h (by omega)

theorem word_run (h : m.strEq next (w ++ t) = true) (hw : 0 ∉ w) (hsep : token ∉ w)
    (ht : t = [] ∨ t.head? = some token) (hfuel : w.length < fuel)
    : (word token fuel next).run ⟨m, argv⟩ = .ok (next + w.length, ⟨m, argv⟩) := by
  induction w generalizing next fuel with
  | nil =>
    cases fuel with
    | zero => omega
    | succ fuel =>
      rw [word, Cmd.exec_get_bind, if_neg]
      . rfl
      . rintro ⟨h1, h2⟩
        cases t with
        | nil => exact h1 (Mem.strEq_nil.mp h)
        | cons x t =>
          obtain ht | ht := ht
          . contradiction
          . exact h2 ((Mem.strEq_cons.mp h).1.trans (Option.some.inj ht))
  | cons x w ih =>
    cases fuel with
    | zero => omega
    | succ fuel =>
      rw [List.mem_cons, not_or] at hw hsep
      rw [List.length_cons] at hfuel
      rw [List.cons_append] at h
      obtain ⟨hx, h⟩ := Mem.strEq_cons.mp h
      have hgo : m next ≠ 0 ∧ m next ≠ token := by
        rw [hx]
        exact ⟨Ne.symm hw.1, Ne.symm hsep.1⟩
      rw [word, Cmd.exec_get_bind, if_pos hgo, List.length_cons, show next + (w.length + 1)
        = next + 1 + w.length by omega]
      exact ih h hw.2 hsep.2 (by omega)

theorem go_word (h : m.strEq next (List.replicate n token ++ (w ++ t)) = true) (htoken : token ≠ 0)
    (hne : w ≠ []) (hw : 0 ∉ w) (hsep : token ∉ w) (ht : t = [] ∨ t.head? = some token)
    (hlen : (List.replicate n token ++ (w ++ t)).length < addressSpace)
    : (go token (fuel + 1) next argc).run ⟨m, argv⟩ = (do
        let next ← cut (next + n + w.length)
        if argc > maxArgNr then pure (-1) else go token fuel next (argc + 1) : CmdM Int).run
          ⟨m, Function.update argv argc (some (next + n))⟩ := by
  rw [List.length_append, List.length_append, List.length_replicate] at hlen
  have hrest := (Mem.strEq_append.mp h).2
  rw [List.length_replicate] at hrest
  obtain ⟨x, w', rfl⟩ := List.exists_cons_of_ne_nil hne
  rw [List.mem_cons, not_or] at hw hsep
  have hhead : ((x :: w') ++ t).head? ≠ some token := fun hx => hsep.1 (Option.some.inj hx).symm
  have hskip := @skip_run m argv token ((x :: w') ++ t) n next addressSpace h htoken hhead
    (by omega)
  have hword := @word_run m (Function.update argv argc (some (next + n))) token t (x :: w')
    (next + n) addressSpace hrest
    (by rw [List.mem_cons, not_or]; exact hw) (by rw [List.mem_cons, not_or]; exact hsep) ht
      (by omega)
  have hnext : m (next + n) ≠ 0 := by
    rw [(Mem.strEq_cons.mp hrest).1]
    exact Ne.symm hw.1
  have hfirst : m next ≠ 0 := by
    cases n with
    | zero => exact hnext
    | succ n =>
      rw [List.replicate_succ, List.cons_append] at h
      rw [(Mem.strEq_cons.mp h).1]
      exact htoken
  rw [go, Cmd.exec_get_bind]
  dsimp only
  rw [if_pos hfirst, Cmd.exec_bind hskip, Cmd.exec_get_bind]
  dsimp only
  rw [if_neg hnext, setArg, Cmd.exec_modify_bind, Cmd.exec_bind hword]

theorem go_end (h : m.strEq next (List.replicate n token) = true) (htoken : token ≠ 0)
    (hlen : n < addressSpace)
    : (go token (fuel + 1) next argc).run ⟨m, argv⟩ = .ok ((argc : Int), ⟨m, argv⟩) := by
  have happ : m.strEq next (List.replicate n token ++ []) = true := by
    rw [List.append_nil]
    exact h
  have hskip := @skip_run m argv token [] n next addressSpace happ htoken nofun hlen
  have hlast := (Mem.strEq_append.mp happ).2
  rw [List.length_replicate, Mem.strEq_nil] at hlast
  rw [go, Cmd.exec_get_bind]
  split
  . rw [Cmd.exec_bind hskip, Cmd.exec_get_bind]
    dsimp only
    rw [if_pos hlast]
    rfl
  . rfl

theorem cut_end (h : m next = 0) : (cut next).run ⟨m, argv⟩ = .ok (next, ⟨m, argv⟩) := by
  rw [cut, Cmd.exec_get_bind, if_neg (not_not.mpr h)]
  rfl

theorem cut_char (h : m next ≠ 0)
    : (cut next).run ⟨m, argv⟩ = .ok (next + 1, ⟨Function.update m next 0, argv⟩) := by
  rw [cut, Cmd.exec_get_bind, if_pos h]
  rfl

structure Pass (m m' : Mem) (next next' : Nat) (s r : List UInt8) (x : Nat × List UInt8)
    : Prop where
  word : m'.strEq x.1 x.2 = true
  rest : m'.strEq next' r = true
  nulFree : 0 ∉ r
  same : SameOutside m m' next next'
  le : next ≤ next'
  behind : x.1 + x.2.length < next' ∨ r = []
  length : next' + r.length = next + s.length
  lt : r.length < s.length

theorem go_pass (h : m.strEq next s = true) (hs : 0 ∉ s) (htoken : token ≠ 0)
    (hlen : s.length < addressSpace) (hwords : words token next s = x :: ws)
    : ∃ m' next' r, Pass m m' next next' s r x ∧ ws = words token next' r
        ∧ (go token (fuel + 1) next argc).run ⟨m, argv⟩ = (if argc > maxArgNr then pure (-1)
            else go token fuel next' (argc + 1)).run
            ⟨m', Function.update argv argc (some x.1)⟩ := by
  obtain ⟨n, rfl⟩ | ⟨n, w, hne, hsep, rfl | ⟨r, rfl⟩⟩ := word_cases token s
  . rw [words_replicate] at hwords
    contradiction
  . -- the line ends with the word
    rw [words_last hne hsep, List.cons.injEq] at hwords
    obtain ⟨rfl, rfl⟩ := hwords
    have hw : 0 ∉ w := fun h0 => hs (List.mem_append_right _ h0)
    have hrest := (Mem.strEq_append.mp h).2
    rw [List.length_replicate] at hrest
    have hpos := List.length_pos_of_ne_nil hne
    have hlength : (List.replicate n token ++ w).length = n + w.length := by
      rw [List.length_append, List.length_replicate]
    have hend := (Mem.strEq_iff.mp hrest).2
    refine ⟨m, next + n + w.length, [], ?_, rfl, ?_⟩
    . exact ⟨hrest, Mem.strEq_nil.mpr hend, List.not_mem_nil, .refl, by omega, .inr rfl, by
        rw [hlength, List.length_nil]; omega,
        by rw [hlength, List.length_nil]; omega⟩
    . rw [@go_word m argv token [] w n argc next fuel (by rwa [List.append_nil]) htoken hne hw hsep
        (.inl rfl) (by rwa [List.append_nil])]
      rw [Cmd.exec_bind (cut_end hend)]
  . rw [words_word hne hsep, List.cons.injEq] at hwords
    obtain ⟨rfl, rfl⟩ := hwords
    have hw : 0 ∉ w := fun h0 => hs (List.mem_append_right _ (List.mem_append_left _ h0))
    have hr : 0 ∉ r := fun h0 =>
      hs (List.mem_append_right _ (List.mem_append_right _ (List.mem_cons_of_mem _ h0)))
    have hrest := (Mem.strEq_append.mp h).2
    rw [List.length_replicate] at hrest
    have hlength : (List.replicate n token ++ (w ++ token :: r)).length
        = n + (w.length + (r.length + 1)) := by
      rw [List.length_append, List.length_append, List.length_replicate, List.length_cons]
    obtain ⟨hend, htail⟩ := Mem.strEq_cons.mp (Mem.strEq_append.mp hrest).2
    have hcut : SameOutside m (Function.update m (next + n + w.length) 0) (next + n + w.length)
        (next + n + w.length + 1) :=
      SameOutside.update
    refine ⟨Function.update m (next + n + w.length) 0, next + n + w.length + 1, r, ?_, rfl, ?_⟩
    . exact ⟨Mem.strEq_cut hrest, hcut.strEq htail (by omega), hr,
        hcut.mono (by omega) (Nat.le_refl _), by omega,
        .inl (by dsimp only; omega), by omega, by omega⟩
    . rw [go_word h htoken hne hw hsep (.inr rfl) hlen]
      rw [Cmd.exec_bind (cut_char (by rw [hend]; exact htoken))]

theorem go_run (h : m.strEq next s = true) (hs : 0 ∉ s) (htoken : token ≠ 0)
    (hlen : s.length < addressSpace) (hargc : argc ≤ maxArgNr + 1) (hfuel : s.length < fuel)
    : ∃ m', (go token fuel next argc).run ⟨m, argv⟩
          = .ok (if argc + (words token next s).length ≤ maxArgNr + 1
              then ((argc + (words token next s).length : Nat) : Int) else -1,
              ⟨m', putArgs argc ((words token next s).take (maxArgNr + 2 - argc)) argv⟩)
        ∧ SameOutside m m' next (next + s.length)
        ∧ ∀ x ∈ (words token next s).take (maxArgNr + 2 - argc), m'.strEq x.1 x.2 = true := by
  induction fuel generalizing m argv s next argc with
  | zero => omega
  | succ fuel ih =>
    cases hwords : words token next s with
    | nil =>
      obtain ⟨n, rfl⟩ | ⟨n, w, hne, hsep, rfl | ⟨r, rfl⟩⟩ := word_cases token s
      . rw [List.length_replicate] at hlen
        refine ⟨m, ?_, .refl, fun x hx => ?_⟩
        . rw [go_end h htoken hlen, List.take_nil, List.length_nil, if_pos (by omega)]
          rfl
        . rw [List.take_nil] at hx
          exact absurd hx List.not_mem_nil
      . rw [words_last hne hsep] at hwords
        contradiction
      . rw [words_word hne hsep] at hwords
        contradiction
    | cons x ws =>
      obtain ⟨m1, next', r, hpass, rfl, hrun⟩ :=
        @go_pass m argv token s argc next fuel ws x h hs htoken hlen hwords
      have hlength := hpass.length
      have hlt := hpass.lt
      have hle := hpass.le
      obtain ⟨k, hk⟩ : ∃ k, maxArgNr + 2 - argc = k + 1 := ⟨maxArgNr + 1 - argc, by omega⟩
      rw [hk, List.take_succ_cons, List.length_cons, putArgs]
      by_cases hmany : argc > maxArgNr
      . -- the word is the second one that is too many
        have hk0 : k = 0 := by omega
        rw [hk0, List.take_zero]
        refine ⟨m1, ?_, hpass.same.mono (Nat.le_refl _) (by omega), ?_⟩
        . rw [hrun, if_pos hmany, if_neg (by omega)]
          rfl
        . intro y hy
          rw [List.mem_singleton.mp hy]
          exact hpass.word
      . obtain ⟨m', h1, h2, h3⟩ :=
          @ih m1 (Function.update argv argc (some x.1)) r (argc + 1) next' hpass.rest hpass.nulFree
          (by omega) (by omega) (by omega)
        rw [show maxArgNr + 2 - (argc + 1) = k by omega] at h1 h3
        refine ⟨m', ?_, ?_, ?_⟩
        . rw [hrun, if_neg hmany, h1, show argc + 1 + (words token next' r).length
            = argc + ((words token next' r).length + 1) by omega]
        . apply (hpass.same.mono (Nat.le_refl _) (by omega)).trans
          exact h2.mono hle (by omega)
        . intro y hy
          cases List.mem_cons.mp hy with
          | inr hy => exact h3 y hy
          | inl hy =>
            rw [hy]
            cases hpass.behind with
            | inl hbehind => exact h2.strEq hpass.word (.inl hbehind)
            | inr hnil =>
              rw [h2.eq_of_le (by rw [hnil]; exact Nat.le_refl _)]
              exact hpass.word

end cmdParse

theorem cmdParse_run (ha : a ≠ 0) (h : m.strEq a s = true) (hs : 0 ∉ s) (htoken : token ≠ 0)
    (hlen : s.length < addressSpace)
    : ∃ m' argv', (cmdParse token a).run ⟨m, argv⟩
          = .ok (if (words token a s).length ≤ maxArgNr + 1 then ((words token a s).length : Int)
              else -1,
              ⟨m', putArgs 0 ((words token a s).take (maxArgNr + 2)) argv'⟩)
        ∧ (∀ i < maxArgNr, argv' i = none) ∧ (∀ i, maxArgNr ≤ i → argv' i = argv i)
        ∧ SameOutside m m' a (a + s.length)
        ∧ ∀ x ∈ (words token a s).take (maxArgNr + 2), m'.strEq x.1 x.2 = true := by
  obtain ⟨argv', h1, h2, h3⟩ := @cmdParse.clear_run m argv 0 maxArgNr
  obtain ⟨m', h4, h5, h6⟩ := @cmdParse.go_run m argv' token s 0 a addressSpace h hs htoken hlen
    (Nat.zero_le _) hlen
  rw [Nat.zero_add] at h4
  refine ⟨m', argv', ?_, fun i hi => h2 i (Nat.zero_le i) (by omega), fun i hi => h3 i (by omega),
    h5, h6⟩
  rw [cmdParse, Cmd.exec_assert_bind, if_pos ha, Cmd.exec_bind h1]
  exact h4

/--
The words `ws` are found: `argv` points to them and is `NULL` behind them. A line of too many words
is refused. Nothing is stored behind `argv`.
-/
def Splits (ws : List (Nat × List UInt8)) (argv : Nat → Option Nat) (r : Int × CmdState) : Prop :=
  (if ws.length ≤ maxArgNr then
    r.1 = ws.length ∧ (∀ i (h : i < ws.length), r.2.argv i = some ws[i].1
      ∧ r.2.line.strEq ws[i].1 ws[i].2 = true)
      ∧ ∀ i, ws.length ≤ i → i < maxArgNr → r.2.argv i = none
  else
    r.1 = -1)
  ∧ ∀ i, maxArgNr ≤ i → r.2.argv i = argv i

/-- `cmd_parse` splits the lines of at most 16 words, and no others. -/
theorem cmdParse_splits (ha : a ≠ 0) (h : m.strEq a s = true) (hs : 0 ∉ s)
    (hlen : s.length < addressSpace)
    : ((words 32 a s).Pairwise fun x y => x.1 < y.1)
        ∧ (∀ j w, (j, w) ∈ words 32 a s ↔ IsWord 32 a s j w)
        ∧ ((∀ argv, ∃ r, (cmdParse 32 a).run ⟨m, argv⟩ = .ok r ∧ Splits (words 32 a s) argv r)
            ↔ (words 32 a s).length ≤ maxArgNr) := by
  refine ⟨words_pairwise, fun j w => mem_words, ?_⟩
  have hrun := fun argv => @cmdParse_run m argv 32 s a ha h hs (by decide) hlen
  generalize words 32 a s = ws at hrun
  constructor
  . intro hsplits
    by_contra hmany
    -- the pointer to the word that is too many is stored behind the array
    obtain ⟨r, hr, -, hbehind⟩ := hsplits fun _ => none
    obtain ⟨m', argv', hr', -⟩ := hrun fun _ => none
    rw [hr'] at hr
    cases hr
    have hlt : maxArgNr < (ws.take (maxArgNr + 2)).length := by
      rw [List.length_take]
      omega
    have hget := @putArgs_get argv' maxArgNr 0 _ hlt
    rw [Nat.zero_add] at hget
    exact absurd ((hbehind maxArgNr (Nat.le_refl _)).symm.trans hget) nofun
  . intro hfew argv
    obtain ⟨m', argv', hr, hnull, hbehind, -, hword⟩ := hrun argv
    rw [List.take_of_length_le (by omega)] at hr hword
    refine ⟨_, hr, ?_, ?_⟩
    . rw [if_pos hfew]
      refine ⟨if_pos (by omega), ?_, ?_⟩
      . intro i hi
        have hget := @putArgs_get argv' i 0 ws hi
        rw [Nat.zero_add] at hget
        exact ⟨hget, hword _ (List.getElem_mem hi)⟩
      . intro i hi hi'
        dsimp only
        rw [putArgs_of_le (by omega)]
        exact hnull i hi'
    . intro i hi
      dsimp only
      rw [putArgs_of_le (by omega)]
      exact hbehind i hi

section Lines

def lineMem (s : List UInt8) : Mem := fun i => s.getD (i - 1) 0

def lsDir : List UInt8 := [32, 108, 115, 32, 32, 100, 105, 114, 32]

theorem cmdParse_splits_lsDir : ∃ r, (cmdParse 32 1).run ⟨lineMem lsDir, fun _ => some 7⟩ = .ok r
    ∧ r.1 = 2 ∧ r.2.argv 0 = some 2 ∧ r.2.argv 1 = some 6 ∧ r.2.argv 2 = none
        ∧ r.2.argv 16 = some 7 := by
  have hline : (lineMem lsDir).strEq 1 lsDir = true := by decide
  have hwords : words 32 1 lsDir = [(2, [108, 115]), (6, [100, 105, 114])] := by decide
  obtain ⟨-, -, h⟩ := cmdParse_splits (by decide) hline (by decide) (by decide)
  obtain ⟨r, hr, hsplit, hbehind⟩ := h.mpr (by decide) fun _ => some 7
  rw [hwords, if_pos (by decide)] at hsplit
  obtain ⟨h1, h2, h3⟩ := hsplit
  exact ⟨r, hr, h1, (h2 0 (by decide)).1, (h2 1 (by decide)).1, h3 2 (by decide) (by decide),
    hbehind 16 (by decide)⟩

def longLine : List UInt8 := (List.replicate 17 [97, 32]).flatten

theorem not_cmdParse_splits
    : ¬ ∀ (m : Mem) (a : Nat) (s : List UInt8) (argv : Nat → Option Nat), a ≠ 0 → m.strEq a s = true
        →
    0 ∉ s → s.length < addressSpace → ∃ r, (cmdParse 32 a).run ⟨m, argv⟩ = .ok r
      ∧ Splits (words 32 a s) argv r := by
  intro hall
  have hline : (lineMem longLine).strEq 1 longLine = true := by decide
  obtain ⟨r, hr, hsplit, -⟩ := hall (lineMem longLine) 1 longLine (fun _ => none) (by decide) hline
    (by decide) (by decide)
  obtain ⟨m', argv', hr', -⟩ := @cmdParse_run (lineMem longLine) (fun _ => none) 32 longLine 1
    (by decide) hline (by decide)
    (by decide) (by decide)
  have hcount : (words 32 1 longLine).length = 17 := by decide
  rw [hr', hcount] at hr
  cases hr
  rw [if_neg (by rw [hcount]; decide)] at hsplit
  have hresult : (if 17 ≤ maxArgNr + 1 then ((17 : Nat) : Int) else -1) = -1 := hsplit
  exact absurd hresult (by decide)

end Lines

end RogOS
