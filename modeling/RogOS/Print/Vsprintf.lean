import RogOS.Print.Numerals

/-!
What `vsprintf` leaves in a buffer, and when it is a string.
-/

namespace RogOS

inductive Conv
  | lit (c : UInt8)
  | str (p : UInt32) (t : List UInt8)
  | dec (w : UInt32)
  | hex (w : UInt32)
  | chr (w : UInt32)

namespace Conv

def fmt : Conv → List UInt8
  | lit c => [c]
  | str .. => [37, 115]
  | dec _ => [37, 100]
  | hex _ => [37, 120]
  | chr _ => [37, 99]

def arg : Conv → List UInt32
  | lit _ => []
  | str p _ => [p]
  | dec w => [w]
  | hex w => [w]
  | chr w => [w]

def signedNumeral (n : Int)
    : List UInt8 := if n < 0 then 45 :: numeral 10 n.natAbs else numeral 10 n.natAbs

def out : Conv → List UInt8
  | lit c => [c]
  | str _ t => t
  | dec w => signedNumeral w.toInt32.toInt
  | hex w => numeral 16 w.toNat
  | chr w => [w.toUInt8]

def Apart (lo hi a len : Nat) : Prop := a + len ≤ lo ∨ hi ≤ a

def Ok (m : Mem) (lo hi : Nat) : Conv → Prop
  | lit c => c ≠ 0 ∧ c ≠ 37
  | str p t => p ≠ 0 ∧ m.strEq p.toNat t = true ∧ 0 ∉ t ∧ Apart lo hi p.toNat (t.length + 1)
      ∧ p.toNat + t.length < 2 ^ 32
  | _ => True

def NoNul : Conv → Prop
  | chr w => w.toUInt8 ≠ 0
  | _ => True

def expansion (cs : List Conv) : List UInt8 := cs.flatMap out

def rest : Conv → List UInt8
  | str .. => [0]
  | _ => []

def lastRest (z : List UInt8) : List Conv → List UInt8
  | [] => z
  | c :: cs => lastRest c.rest cs

def EndsInS (cs : List Conv) : Prop := ∃ p t, cs.getLast? = some (str p t)

structure Laid (m : Mem) (lo hi format ap : Nat) (cs : List Conv) : Prop where
  ok : ∀ c ∈ cs, c.Ok m lo hi
  formatStr : m.strEq format (cs.flatMap fmt) = true
  formatApart : Apart lo hi format ((cs.flatMap fmt).length + 1)
  formatEnd : format + (cs.flatMap fmt).length < 2 ^ 32
  args : ∀ k (h : k < (cs.flatMap arg).length), m.word (ap + 4 * (k + 1)) = (cs.flatMap arg)[k]
  argsApart : Apart lo hi (ap + 4) (4 * (cs.flatMap arg).length)

section Rest

variable {m : Mem} {lo hi : Nat} {z : List UInt8} {k : Conv} {cs : List Conv}

theorem length_rest : k.rest.length ≤ 1 := by
  cases k with
  | str => exact Nat.le_refl 1
  | _ => exact Nat.zero_le 1

theorem lastRest_concat : lastRest z (cs ++ [k]) = k.rest := by
  induction cs generalizing z with
  | nil => rfl
  | cons c cs ih => exact ih

theorem lastRest_cases : EndsInS cs ∧ lastRest [] cs = [0] ∨ ¬EndsInS cs ∧ lastRest [] cs = [] := by
  cases List.eq_nil_or_concat cs with
  | inl h =>
    subst h
    right
    refine ⟨?_, rfl⟩
    rintro ⟨p, t, h⟩
    contradiction
  | inr h =>
    obtain ⟨init, k, rfl⟩ := h
    unfold EndsInS
    rw [List.concat_eq_append, List.getLast?_concat, lastRest_concat]
    cases k with
    | str p t => exact .inl ⟨⟨p, t, rfl⟩, rfl⟩
    | _ =>
      right
      refine ⟨?_, rfl⟩
      rintro ⟨p, t, h⟩
      cases h

theorem zero_not_mem_out (hk : k.Ok m lo hi) : 0 ∉ k.out ↔ k.NoNul := by
  cases k with
  | lit c =>
    refine iff_of_true ?_ trivial
    intro h
    exact hk.1 (List.mem_singleton.mp h).symm
  | str p t => exact iff_of_true hk.2.2.1 trivial
  | dec w =>
    refine iff_of_true ?_ trivial
    unfold out signedNumeral
    dsimp only
    split
    . rw [List.mem_cons, not_or]
      exact ⟨by decide, zero_not_mem_numeral (by decide) (by decide)⟩
    . exact zero_not_mem_numeral (by decide) (by decide)
  | hex w => exact iff_of_true (zero_not_mem_numeral (by decide) (by decide)) trivial
  | chr w =>
    unfold out NoNul
    rw [List.mem_singleton]
    exact not_congr eq_comm

theorem zero_not_mem_expansion (h : ∀ c ∈ cs, c.Ok m lo hi)
    : 0 ∉ expansion cs ↔ ∀ c ∈ cs, c.NoNul := by
  unfold expansion
  rw [List.mem_flatMap]
  constructor
  . intro h0 c hc
    apply (zero_not_mem_out (h c hc)).mp
    intro hout
    exact h0 ⟨c, hc, hout⟩
  . rintro hno ⟨c, hc, hout⟩
    exact (zero_not_mem_out (h c hc)).mpr (hno c hc) hout

theorem length_le_length_fmt : cs.length ≤ (cs.flatMap fmt).length := by
  induction cs with
  | nil => exact Nat.le_refl 0
  | cons k cs ih =>
    have hk : 1 ≤ k.fmt.length := by
      cases k <;> exact Nat.succ_pos _
    rw [List.flatMap_cons, List.length_append, List.length_cons]
    omega

end Rest

section Laid

variable {m m' : Mem} {lo hi format ap : Nat} {k : Conv} {cs : List Conv}

theorem Ok.same (h : k.Ok m lo hi) (hm : m.SameOutside m' lo hi) : k.Ok m' lo hi := by
  cases k with
  | str p t =>
    obtain ⟨hp, ht, h0, hap, hend⟩ := h
    exact ⟨hp, hm.strEq ht (by unfold Apart at hap; omega), h0, hap, hend⟩
  | _ => exact h

theorem Laid.same (h : Laid m lo hi format ap cs) (hm : m.SameOutside m' lo hi)
    : Laid m' lo hi format ap cs := by
  refine ⟨fun c hc => (h.ok c hc).same hm, hm.strEq h.formatStr ?_, h.formatApart, h.formatEnd, ?_,
    h.argsApart⟩
  . have := h.formatApart
    unfold Apart at this
    omega
  . intro k hk
    have hap := h.argsApart
    unfold Apart at hap
    rw [← h.args k hk]
    apply Mem.word_congr
    intro i hi
    apply hm
    omega

theorem Laid.tail (h : Laid m lo hi format ap (k :: cs))
    : Laid m lo hi (format + k.fmt.length) (ap + 4 * k.arg.length) cs := by
  obtain ⟨hok, hfmt, hfap, hend, hargs, haap⟩ := h
  rw [List.flatMap_cons] at hfmt hfap hend
  rw [List.length_append] at hfap hend
  have hlen : ((k :: cs).flatMap arg).length = k.arg.length + (cs.flatMap arg).length := by
    rw [List.flatMap_cons]
    exact List.length_append
  rw [hlen] at haap
  unfold Apart at hfap haap
  refine ⟨fun c hc => hok c (List.mem_cons_of_mem _ hc), (Mem.strEq_append.mp hfmt).2, ?_, by
    omega, ?_, ?_⟩
  . unfold Apart
    omega
  . intro i hi
    have hword := hargs (k.arg.length + i) (by omega)
    rw [show ap + 4 * (k.arg.length + i + 1) = ap + 4 * k.arg.length + 4 * (i + 1) by
      omega] at hword
    rw [hword]
    simp only [List.flatMap_cons]
    rw [List.getElem_append_right (Nat.le_add_right _ _)]
    simp only [Nat.add_sub_cancel_left]
  . unfold Apart
    omega

theorem Laid.word {w : UInt32} (h : Laid m lo hi format ap (k :: cs)) (hk : k.arg = [w])
    : m.word (ap + 4) = w := by
  have hlen : 0 < ((k :: cs).flatMap arg).length := by
    rw [List.flatMap_cons, hk]
    exact Nat.succ_pos _
  rw [h.args 0 hlen]
  simp only [List.flatMap_cons, hk]
  rfl

end Laid

end Conv

namespace Ptr

open Conv
open Mem (SameOutside)

variable {m : Mem} {a lo hi src p fuel i ap format r : Nat} {s t z : List UInt8} {k : Conv}
  {cs : List Conv}

section Strings

theorem strcpy.go_run (ht : m.strEq src t = true) (h0 : 0 ∉ t) (hz : z.length ≤ 1)
    (hap : Apart a hi src (t.length + 1)) (hhi : a + (s.length + t.length) < hi)
    (hfuel : t.length < fuel)
    : (strcpy.go fuel (a + s.length) src).run (m.puts a (s ++ z))
        = .ok ((), m.puts a (s ++ t ++ [0])) := by
  induction t generalizing s z src fuel with
  | nil =>
    cases fuel with
    | zero => omega
    | succ fuel =>
      rw [List.length_nil] at hap hhi
      have hlen : (s ++ z).length = s.length + z.length := List.length_append
      have hsrc : (m.puts a (s ++ z)) src = 0 := by
        rw [Mem.puts_same src (by unfold Apart at hap; omega)]
        exact Mem.strEq_nil.mp ht
      rw [go, Cmd.exec_get_bind, store_bind, hsrc, if_neg (not_not.mpr rfl), Mem.puts_snoc hz,
        List.append_nil]
      rfl
  | cons c t ih =>
    cases fuel with
    | zero => omega
    | succ fuel =>
      rw [List.length_cons] at hap hhi hfuel
      rw [List.mem_cons, not_or] at h0
      obtain ⟨hc, ht⟩ := Mem.strEq_cons.mp ht
      have hlen : (s ++ z).length = s.length + z.length := List.length_append
      have hlen' : (s ++ [c]).length = s.length + 1 := List.length_append
      have hsrc : (m.puts a (s ++ z)) src = c := by
        rw [Mem.puts_same src (by unfold Apart at hap; omega)]
        exact hc
      have hrest :=
        @ih src.succ fuel (s ++ [c]) [] ht h0.2 (by decide) (by unfold Apart at hap ⊢; omega)
          (by omega) (by omega)
      rw [List.append_nil, hlen', List.append_assoc s [c] t] at hrest
      rw [go, Cmd.exec_get_bind, store_bind, hsrc, if_pos (Ne.symm h0.1), Mem.puts_snoc hz]
      exact hrest

theorem strlen.go_run (ht : m.strEq p t = true) (h0 : 0 ∉ t) (hfuel : t.length < fuel)
    : (strlen.go fuel p).run m = .ok (p + t.length, m) := by
  induction t generalizing p fuel with
  | nil =>
    cases fuel with
    | zero => omega
    | succ fuel =>
      rw [go, Cmd.exec_get_bind, if_neg (not_not.mpr (Mem.strEq_nil.mp ht))]
      rfl
  | cons c t ih =>
    cases fuel with
    | zero => omega
    | succ fuel =>
      rw [List.length_cons] at hfuel
      rw [List.mem_cons, not_or] at h0
      obtain ⟨hc, ht⟩ := Mem.strEq_cons.mp ht
      rw [go, Cmd.exec_get_bind, hc, if_pos (Ne.symm h0.1), ih ht h0.2 (by omega), List.length_cons,
        Nat.add_assoc, Nat.add_comm 1]

theorem strlen.go_ok {m' : Mem} (h : (strlen.go fuel p).run m = .ok (r, m'))
    : m' = m ∧ p ≤ r ∧ m r = 0 ∧ ∀ i, p ≤ i → i < r → m i ≠ 0 := by
  induction fuel generalizing p with
  | zero => contradiction
  | succ fuel ih =>
    rw [go, Cmd.exec_get_bind] at h
    split at h
    . next hp =>
      obtain ⟨h1, h2, h3, h4⟩ := ih h
      refine ⟨h1, Nat.le_of_succ_le h2, h3, ?_⟩
      intro i hi hlt
      cases Nat.eq_or_lt_of_le hi with
      | inl heq => exact heq ▸ hp
      | inr hgt => exact h4 i hgt hlt
    . next hp =>
      obtain ⟨rfl, rfl⟩ := Prod.mk.inj (Except.ok.inj h)
      exact ⟨rfl, Nat.le_refl _, not_not.mp hp, fun i h1 h2 => absurd h1 (Nat.not_le_of_lt h2)⟩

theorem strlen_run (hp : p ≠ 0) (ht : m.strEq p t = true) (h0 : 0 ∉ t)
    (hlen : t.length < addressSpace)
    : (strlen p).run m = .ok (t.length, m) := by
  rw [strlen, Cmd.exec_assert_bind, if_pos hp, Cmd.exec_bind (strlen.go_run ht h0 hlen),
    Nat.add_sub_cancel_left]
  rfl

end Strings

section Vsprintf

def convert (bufPtr ap : Nat) : Conv → ShellM Nat
  | .lit c => do
    store bufPtr c
    pure (bufPtr + 1)
  | .str .. => vsprintf.s bufPtr (ap + 4)
  | .dec _ => vsprintf.d bufPtr (ap + 4)
  | .hex _ => vsprintf.x bufPtr (ap + 4)
  | .chr _ => vsprintf.c bufPtr (ap + 4)

theorem vsprintf.go_nil (h : m format = 0) : (go (fuel + 1) format i ap).run m = .ok ((), m) := by
  rw [go, Cmd.exec_get_bind]
  dsimp only
  rw [h, if_neg (not_not.mpr rfl)]
  rfl

theorem vsprintf.go_cons (h : m.strEq format (k.fmt ++ t) = true) (hk : k.Ok m lo hi)
    : (go (fuel + 1) format i ap).run m
        = (convert i ap k >>= fun i =>
            go fuel (format + k.fmt.length) i (ap + 4 * k.arg.length)).run m := by
  rw [go, Cmd.exec_get_bind]
  dsimp only
  cases k with
  | lit c =>
    have hc := (Mem.strEq_cons.mp h).1
    rw [hc, if_pos hk.1, if_pos hk.2]
    rfl
  | _ =>
    obtain ⟨h1, h⟩ := Mem.strEq_cons.mp h
    have h2 := (Mem.strEq_cons.mp h).1
    rw [h1, h2, if_pos (by decide), if_neg (by decide)]
    rfl

theorem toInt32_toInt {w : UInt32}
    : w.toInt32.toInt = if w.toNat < 2 ^ 31 then (w.toNat : Int) else w.toNat - 2 ^ 32 := by
  have hw := w.toNat_lt
  show w.toBitVec.toInt = _
  rw [BitVec.toInt_eq_toNat_cond]
  show (if 2 * w.toNat < 2 ^ 32 then (w.toNat : Int) else w.toNat - ((2 ^ 32 : Nat) : Int)) = _
  split
  . rw [if_pos (by omega)]
  . rw [if_neg (by omega)]
    rfl

theorem vsprintf.d_run {w : UInt32} (hw : (m.puts a (s ++ z)).word ap = w) (hz : z.length ≤ 1)
    : (vsprintf.d (a + s.length) ap).run (m.puts a (s ++ z))
        = .ok (a + (s ++ signedNumeral w.toInt32.toInt).length,
            m.puts a (s ++ signedNumeral w.toInt32.toInt)) := by
  have hlt := w.toNat_lt
  have hcalls : ∀ n < 10 ^ 10, (numeral 10 n).length ≤ addressSpace := fun n hn =>
    (length_numeral_le (by decide) (by decide) hn).trans (by decide)
  have hneg : w.toInt32 < 0 ↔ ¬w.toNat < 2 ^ 31 := by
    rw [Int32.lt_iff_toInt_lt, toInt32_toInt]
    show _ < (0 : Int) ↔ _
    split <;> omega
  unfold vsprintf.d signedNumeral
  rw [Cmd.exec_get_bind]
  dsimp only
  rw [hw, toInt32_toInt]
  split
  . next h =>
    have hsign := hneg.mp h
    have hnat : (0 - w).toNat = ((w.toNat : Int) - 2 ^ 32).natAbs := by
      rw [UInt32.toNat_sub, UInt32.toNat_zero]
      omega
    have hlen : (s ++ [45]).length = s.length + 1 := List.length_append
    have hrun := @itoa_run m a addressSpace (0 - w) 10 (s ++ [45]) [] (by decide) (by decide)
      (by decide)
      (hcalls _ (by have := (0 - w).toNat_lt; omega))
    rw [List.append_nil, hlen, hnat, List.append_assoc] at hrun
    rw [if_neg hsign, if_pos (by omega), store_bind, Mem.puts_snoc hz]
    exact hrun
  . next h =>
    have hsign := not_not.mp (hneg.not.mp h)
    have hrun := @itoa_run m a addressSpace w 10 s z (by decide) (by decide) hz
      (hcalls _ (by omega))
    rw [if_pos hsign, if_neg (by omega)]
    exact hrun

theorem convert_run (hk : k.Ok m a hi)
    (hw : ∀ w, k.arg = [w] → (m.puts a (s ++ z)).word (ap + 4) = w) (ha : a ≠ 0)
    (hz : z.length ≤ 1) (hhi : a + (s.length + k.out.length) < hi)
    : (convert (a + s.length) ap k).run (m.puts a (s ++ z))
        = .ok (a + (s ++ k.out).length, m.puts a (s ++ k.out ++ k.rest)) := by
  have hlen : ∀ c : UInt8, (s ++ [c]).length = s.length + 1 := fun c => List.length_append
  cases k with
  | lit c =>
    rw [convert, store_bind, Mem.puts_snoc hz]
    unfold out rest
    rw [hlen, List.append_nil]
    rfl
  | str p t =>
    obtain ⟨hp, ht, h0, hap, hend⟩ := hk
    have hp0 : p.toNat ≠ 0 := fun h => hp (UInt32.toNat_inj.mp h)
    have hhi : a + (s.length + t.length) < hi := hhi
    have hsame : m.SameOutside (m.puts a (s ++ t ++ [0])) a hi := by
      apply Mem.puts_same.mono (Nat.le_refl _)
      rw [List.length_append, List.length_append, List.length_singleton]
      omega
    have hlast := hsame.strEq ht (by unfold Apart at hap; omega)
    have hcopy := @strcpy.go_run m a hi p.toNat addressSpace s t z ht h0 hz hap hhi
      (by unfold addressSpace; omega)
    have hstr : (strcpy (a + s.length) p.toNat).run (m.puts a (s ++ z))
        = .ok ((), m.puts a (s ++ t ++ [0])) := by
      rw [strcpy, Cmd.exec_assert_bind, if_pos ⟨by omega, hp0⟩]
      exact hcopy
    rw [convert, vsprintf.s, Cmd.exec_get_bind]
    dsimp only
    rw [hw p rfl, Cmd.exec_bind hstr,
      Cmd.exec_bind (strlen_run hp0 hlast h0 (by unfold addressSpace; omega))]
    unfold out rest
    dsimp only
    rw [Cmd.exec_pure, Nat.add_assoc, List.length_append]
  | dec w =>
    have hrun := vsprintf.d_run (hw w rfl) hz
    unfold out rest
    rw [List.append_nil]
    exact hrun
  | hex w =>
    have hcalls : (numeral 16 w.toNat).length ≤ addressSpace :=
      (length_numeral_le (k := 8) (by decide) (by decide) w.toNat_lt).trans (by decide)
    have hrun := @itoa_run m a addressSpace w 16 s z (by decide) (by decide) hz hcalls
    rw [convert, vsprintf.x, Cmd.exec_get_bind, hw w rfl]
    unfold out rest
    rw [List.append_nil]
    exact hrun
  | chr w =>
    have hbyte : (m.puts a (s ++ z)) (ap + 4) = w.toUInt8 := by
      rw [← hw w rfl]
      exact Mem.toUInt8_word.symm
    rw [convert, vsprintf.c, Cmd.exec_get_bind, hbyte, store_bind, Mem.puts_snoc hz]
    unfold out rest
    rw [hlen, List.append_nil]
    rfl

theorem vsprintf.go_run (h : Laid m a hi format ap cs) (ha : a ≠ 0) (hz : z.length ≤ 1)
    (hhi : a + (s.length + (expansion cs).length) < hi) (hfuel : cs.length < fuel)
    : (go fuel format (a + s.length) ap).run (m.puts a (s ++ z))
        = .ok ((), m.puts a (s ++ expansion cs ++ lastRest z cs)) := by
  have hsame : m.SameOutside (m.puts a (s ++ z)) a hi := by
    apply Mem.puts_same.mono (Nat.le_refl _)
    rw [List.length_append]
    omega
  induction cs generalizing s z format ap fuel with
  | nil =>
    cases fuel with
    | zero => omega
    | succ fuel =>
      rw [vsprintf.go_nil (Mem.strEq_nil.mp (h.same hsame).formatStr), expansion, List.flatMap_nil,
        List.append_nil, lastRest]
  | cons k cs ih =>
    cases fuel with
    | zero => omega
    | succ fuel =>
      have hnow := h.same hsame
      have hexp : expansion (k :: cs) = k.out ++ expansion cs := List.flatMap_cons
      have hlen : (s ++ k.out).length = s.length + k.out.length := List.length_append
      have hhi' := hhi
      rw [hexp, List.length_append] at hhi'
      have hfmt := hnow.formatStr
      rw [List.flatMap_cons] at hfmt
      have hone := convert_run (h.ok k List.mem_cons_self) (fun w hw => hnow.word hw) ha hz
        (by omega)
      rw [vsprintf.go_cons hfmt (hnow.ok k List.mem_cons_self), Cmd.exec_bind hone,
        hexp, ← List.append_assoc, lastRest]
      apply ih h.tail length_rest (by omega) (Nat.lt_of_succ_lt_succ hfuel)
      have hlast := @length_rest k
      apply Mem.puts_same.mono (Nat.le_refl _)
      rw [List.length_append]
      omega

end Vsprintf

section Result

variable {str : Nat}

def LeavesString (m : Mem) (f : ShellM Nat) (str : Nat) (s : List UInt8) : Prop :=
  ∃ m', f.run m = .ok (s.length, m') ∧ m'.strEq str s = true

def dirty : Mem := fun i => if i = 100 then 97 else if i = 101 then 0 else if i = 202 then 0 else 1

theorem laid_dirty (hlo : 102 ≤ lo) (hhi : hi ≤ 304) : Laid dirty lo hi 100 300 [.lit 97] := by
  refine ⟨?_, by decide, .inl hlo, by decide, ?_, .inr hhi⟩
  . intro c hc
    rw [List.mem_singleton.mp hc]
    exact ⟨by decide, by decide⟩
  . intro k hk
    exact absurd hk (Nat.not_lt_zero k)

theorem vsprintf_run (h : Laid m a (a + (expansion cs).length + 1) format ap cs) (ha : a ≠ 0)
    : (vsprintf a format ap).run m
        = (strlen a).run (m.puts a (expansion cs ++ lastRest [] cs)) := by
  have hfuel := @length_le_length_fmt cs
  have hend := h.formatEnd
  have hrun := @vsprintf.go_run m a _ addressSpace ap format [] [] cs h ha (by decide)
    (by rw [List.length_nil]; omega)
    (by unfold addressSpace; omega)
  rw [List.length_nil, Nat.add_zero, List.nil_append, List.nil_append, Mem.puts_nil] at hrun
  rw [vsprintf, Cmd.exec_bind hrun]

theorem strlen_ok {m' : Mem} {n : Nat} (h : (strlen p).run m = .ok (n, m'))
    : m' = m ∧ m (p + n) = 0 ∧ ∀ i < n, m (p + i) ≠ 0 := by
  rw [strlen, Cmd.exec_assert_bind] at h
  split at h
  . rw [Cmd.bind_run] at h
    obtain ⟨r, m'', h1, h2⟩ := h
    obtain ⟨hsame, hle, h0, hall⟩ := strlen.go_ok h1
    obtain ⟨rfl, rfl⟩ := Prod.mk.inj (Cmd.pure_run.mp h2)
    rw [Nat.add_sub_cancel' hle]
    exact ⟨hsame, h0, fun i hi => hall (p + i) (by omega) (by omega)⟩
  . contradiction

theorem leavesString_iff (h : Laid m str (str + (expansion cs).length + 1) format ap cs)
    (hstr : str ≠ 0) (hend : str + (expansion cs).length < 2 ^ 32)
    : LeavesString m (vsprintf str format ap) str (expansion cs)
        ↔ (∀ c ∈ cs, c.NoNul) ∧ (EndsInS cs ∨ m (str + (expansion cs).length) = 0) := by
  unfold LeavesString
  rw [vsprintf_run h hstr, ← zero_not_mem_expansion h.ok]
  have hlen : (expansion cs ++ lastRest [] cs).length
      = (expansion cs).length + (lastRest [] cs).length := List.length_append
  have hget : ∀ i (hi : i < (expansion cs).length),
      (m.puts str (expansion cs ++ lastRest [] cs)) (str + i) = (expansion cs)[i] := by
    intro i hi
    rw [Mem.puts_get (by omega), List.getElem_append_left hi]
  have hnul : (m.puts str (expansion cs ++ lastRest [] cs)) (str + (expansion cs).length) = 0
      ↔ EndsInS cs ∨ m (str + (expansion cs).length) = 0 := by
    cases lastRest_cases with
    | inl h =>
      refine iff_of_true ?_ (.inl h.1)
      rw [h.2, Mem.puts_get (by rw [List.length_append, List.length_singleton]; omega),
        List.getElem_append_right (Nat.le_refl _)]
      simp only [Nat.sub_self]
      rfl
    | inr h =>
      rw [or_iff_right h.1, h.2, Mem.puts_same _ (by rw [List.append_nil]; omega)]
  constructor
  . rintro ⟨m', hrun, -⟩
    obtain ⟨-, h0, hall⟩ := strlen_ok hrun
    refine ⟨?_, hnul.mp h0⟩
    intro hmem
    obtain ⟨i, hi, heq⟩ := List.mem_iff_getElem.mp hmem
    apply hall i hi
    rw [hget i hi, heq]
  . rintro ⟨h0, hlast⟩
    have hs : (m.puts str (expansion cs ++ lastRest [] cs)).strEq str (expansion cs) = true :=
      Mem.strEq_iff.mpr ⟨hget, hnul.mpr hlast⟩
    exact ⟨_, strlen_run hstr hs h0 (by unfold addressSpace; omega), hs⟩

/--
`vsprintf` leaves a string exactly if no `%c` is NUL, and the format ends in `%s` or there was a NUL
behind the expansion before.
-/
theorem vsprintf_string_iff (h : Laid m str (str + (expansion cs).length + 1) format ap cs)
    (hstr : str ≠ 0) (hend : str + (expansion cs).length < 2 ^ 32)
    : (LeavesString m (vsprintf str format ap) str (expansion cs)
          ↔ (∀ c ∈ cs, c.NoNul) ∧ (EndsInS cs ∨ m (str + (expansion cs).length) = 0))
        ∧ ((m.word ap).toNat = format → (LeavesString m (sprintf str ap) str (expansion cs)
          ↔ (∀ c ∈ cs, c.NoNul) ∧ (EndsInS cs ∨ m (str + (expansion cs).length) = 0))) := by
  have hiff := leavesString_iff h hstr hend
  refine ⟨hiff, ?_⟩
  rintro rfl
  exact hiff

def message
    : List Conv := [.str 400 [115, 100], .lit 58, .dec 0xfffffff9, .chr 33, .hex 255, .lit 46]

def messageMem : Mem := fun i =>
  if 100 ≤ i ∧ i < 111 then [37, 115, 58, 37, 100, 37, 99, 37, 120, 46, 0].getD (i - 100) 0
  else if 300 ≤ i ∧ i < 320 then
    [100, 0, 0, 0, 0x90, 1, 0, 0, 0xf9, 0xff, 0xff, 0xff, 33, 0, 0, 0, 255, 0, 0, 0].getD
      (i - 300) 0
  else if 400 ≤ i ∧ i < 403 then [115, 100, 0].getD (i - 400) 0
  else if i = 210 then 0 else 1

theorem expansion_message
    : expansion message = [115, 100, 58, 45, 55, 33, 70, 70, 46] := by decide +kernel

theorem laid_message : Laid messageMem 201 211 100 300 message where
  ok := by
    intro c hc
    simp only [message, List.mem_cons, List.not_mem_nil, or_false] at hc
    obtain rfl | rfl | rfl | rfl | rfl | rfl := hc
    . exact ⟨by decide, by decide, by decide, .inr (by decide), by decide⟩
    . exact ⟨by decide, by decide⟩
    . trivial
    . trivial
    . trivial
    . exact ⟨by decide, by decide⟩
  formatStr := by decide
  formatApart := .inl (by decide)
  formatEnd := by decide
  args := by
    have hlen : (message.flatMap arg).length = 4 := rfl
    intro k hk
    have hk' : k = 0 ∨ k = 1 ∨ k = 2 ∨ k = 3 := by omega
    obtain rfl | rfl | rfl | rfl := hk' <;> rfl
  argsApart := .inr (by decide)

theorem vsprintf_string_iff_message
    : LeavesString messageMem (vsprintf 201 100 300) 201 [115, 100, 58, 45, 55, 33, 70, 70, 46]
      ∧ LeavesString messageMem (sprintf 201 300) 201 [115, 100, 58, 45, 55, 33, 70, 70, 46] := by
  rw [← expansion_message]
  have hlaid : Laid messageMem 201 (201 + (expansion message).length + 1) 100 300 message := by
    rw [expansion_message]
    exact laid_message
  have hend : 201 + (expansion message).length = 210 := by rw [expansion_message]; rfl
  have hiff := vsprintf_string_iff hlaid (by decide) (by omega)
  have hnul : (∀ c ∈ message, c.NoNul)
      ∧ (EndsInS message ∨ messageMem (201 + (expansion message).length) = 0) := by
    refine ⟨?_, .inr (by rw [hend]; rfl)⟩
    intro c hc
    simp only [message, List.mem_cons, List.not_mem_nil, or_false] at hc
    obtain rfl | rfl | rfl | rfl | rfl | rfl := hc
    . trivial
    . trivial
    . trivial
    . show (33 : UInt32).toUInt8 ≠ 0
      decide
    . trivial
    . trivial
  exact ⟨hiff.1.mpr hnul, (hiff.2 rfl).mpr hnul⟩

/-- The format `a` and a buffer without a NUL -/
theorem vsprintf_not_string : ∃ (m : Mem) (str format ap : Nat) (cs : List Conv),
    Laid m str (str + (expansion cs).length + 1) format ap cs ∧ str ≠ 0
      ∧ str + (expansion cs).length < 2 ^ 32
      ∧ (∀ c ∈ cs, c.NoNul) ∧ ¬LeavesString m (vsprintf str format ap) str (expansion cs) := by
  have hlaid := @laid_dirty 200 202 (by decide) (by decide)
  refine ⟨dirty, 200, 100, 300, [.lit 97], hlaid, by decide, by decide, ?_, ?_⟩
  . intro c hc
    rw [List.mem_singleton.mp hc]
    trivial
  . rw [leavesString_iff hlaid (by decide) (by decide)]
    rintro ⟨-, ⟨p, t, h⟩ | h⟩
    . cases h
    . contradiction

end Result

end Ptr

end RogOS
