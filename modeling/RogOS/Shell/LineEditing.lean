import RogOS.Lib.CStr
import RogOS.Shell.Impl.Readline

/-!
`readline` leaves the edited line in `cmd_line`.
-/

namespace RogOS

namespace Tty

open Mem (SameOutside)

def edit (text : List UInt8) (key : UInt8) : List UInt8 :=
  if key = 8 then
    text.dropLast
  else if key = 11 then
    text
  else if key = 20 then
    []
  else
    text ++ [key]

def edited (keys : List UInt8) : List UInt8 := keys.foldl edit []

structure Holds (m : Mem) (buf : Nat) (text : List UInt8) : Prop where
  bytes : ∀ i (h : i < text.length), m (buf + i) = text[i]
  plain : 8 ∉ text

variable {t : Tty} {m m' : Mem} {buf cwdCache fuel : Nat} {count : Int} {key ret : UInt8}
  {text keys body rest : List UInt8}

section Line

theorem Holds.nil : Holds m buf [] := ⟨fun _ h => absurd h (Nat.not_lt_zero _), List.not_mem_nil⟩

theorem Holds.same (h : Holds m buf text) (hm : SameOutside m m' (buf + text.length) (buf + 128))
    : Holds m' buf text := by
  refine ⟨?_, h.plain⟩
  intro i hi
  rw [hm (buf + i) (.inl (by omega))]
  exact h.bytes i hi

theorem Holds.snoc (h : Holds m buf text) (hkey : m (buf + text.length) = key) (h8 : key ≠ 8)
    : Holds m buf (text ++ [key]) := by
  constructor
  . intro i hi
    rw [List.length_append, List.length_singleton] at hi
    by_cases hlast : i = text.length
    . subst hlast
      rw [hkey, List.getElem_append_right (Nat.le_refl _)]
      simp
    . rw [List.getElem_append_left (by omega)]
      exact h.bytes i (by omega)
  . rw [List.mem_append, List.mem_singleton, not_or]
    exact ⟨h.plain, Ne.symm h8⟩

theorem Holds.dropLast (h : Holds m buf text) : Holds m buf text.dropLast := by
  constructor
  . intro i hi
    rw [List.getElem_dropLast]
    exact h.bytes i _
  . intro hmem
    exact h.plain ((List.dropLast_sublist text).subset hmem)

theorem Holds.guard (h : Holds m buf text) (hkey : m (buf + text.length) = 8)
    : m buf ≠ 8 ↔ text ≠ [] := by
  cases text with
  | nil => exact iff_of_false (not_not.mpr hkey) (not_not.mpr rfl)
  | cons c text =>
    refine iff_of_true ?_ (List.cons_ne_nil _ _)
    have hfirst := h.bytes 0 (Nat.succ_pos _)
    rw [Nat.add_zero] at hfirst
    rw [hfirst]
    rintro rfl
    exact h.plain List.mem_cons_self

theorem length_edit_le : (edit text key).length ≤ text.length + 1 := by
  unfold edit
  split
  . rw [List.length_dropLast]
    omega
  . split
    . exact Nat.le_succ _
    . split
      . exact Nat.zero_le _
      . rw [List.length_append, List.length_singleton]

theorem length_foldl_edit_le : (keys.foldl edit text).length ≤ text.length + keys.length := by
  induction keys generalizing text with
  | nil => exact Nat.le_refl _
  | cons key keys ih =>
    have hkey := @length_edit_le key text
    have hkeys := @ih (edit text key)
    rw [List.foldl_cons, List.length_cons]
    omega

end Line

section Readline

theorem read_run (hkeys : t.keys = key :: keys)
    : (read buf).run t
        = .ok (1, { t with mem := Function.update t.mem buf key, keys := keys }) := by
  rw [read, Cmd.exec_get_bind, hkeys]
  rfl

theorem readline.erase_run {pos : Nat} (hpos : buf ≤ pos) (hfuel : pos - buf < fuel)
    : ∃ t', (erase buf fuel pos).run t = .ok (buf, t') ∧ t'.keys = t.keys
        ∧ SameOutside t.mem t'.mem (buf + 1) (pos + 1) := by
  induction fuel generalizing t pos with
  | zero => omega
  | succ fuel ih =>
    rw [erase]
    split
    . next h =>
      obtain ⟨t', h1, h2, h3⟩ :=
        @ih { t with mem := Function.update t.mem pos 0, out := t.out ++ [.putchar 8] } (pos - 1)
        (by omega) (by omega)
      refine ⟨t', h1, h2, ?_⟩
      apply SameOutside.trans (SameOutside.update.mono (by omega) (Nat.le_refl _))
      exact h3.mono (Nat.le_refl _) (by omega)
    . next h =>
      have heq : buf = pos := not_not.mp h
      refine ⟨t, ?_, rfl, .refl⟩
      rw [heq]
      rfl

theorem readline.go_key (hkeys : t.keys = key :: keys) (h : Holds t.mem buf text)
    (hlen : text.length ≤ 127) (hcount : 128 ≤ count)
    (hne : key ≠ 10 ∧ key ≠ 13)
    : ∃ t', (go buf cwdCache buf count (fuel + 1) (buf + text.length)).run t
          = (go buf cwdCache buf count fuel (buf + (edit text key).length)).run t'
        ∧ t'.keys = keys ∧ Holds t'.mem buf (edit text key)
            ∧ SameOutside t.mem t'.mem buf (buf + 128) := by
  have hread : SameOutside t.mem (Function.update t.mem (buf + text.length) key) (buf + text.length)
      (buf + 128) :=
    SameOutside.update.mono (Nat.le_refl _) (by omega)
  have hline := h.same hread
  have hself : (Function.update t.mem (buf + text.length) key) (buf + text.length) = key :=
    Function.update_self ..
  rw [go, Cmd.exec_bind (read_run hkeys), Cmd.exec_get_bind, if_pos ⟨by decide, by omega⟩]
  dsimp only
  rw [hself]
  generalize Function.update t.mem (buf + text.length) key = m at hread hline hself
  have hsame : SameOutside t.mem m buf (buf + 128) :=
    hread.mono (Nat.le_add_right _ _) (Nat.le_refl _)
  split
  . exact absurd rfl hne.1
  . exact absurd rfl hne.2
  . -- `\b`
    have hedit : edit text 8 = text.dropLast := rfl
    have hguard := hline.guard hself
    rw [hedit]
    split
    . next h8 =>
      have hpos := List.length_pos_of_ne_nil (hguard.mp h8)
      refine ⟨{ t with mem := m, keys := keys, out := t.out ++ [.putchar 8] }, ?_, rfl,
        hline.dropLast, hsame⟩
      rw [List.length_dropLast, ← Nat.add_sub_assoc hpos]
      rfl
    . next h8 =>
      have hnil : text = [] := not_not.mp (hguard.not.mp h8)
      subst hnil
      exact ⟨_, rfl, rfl, hline, hsame⟩
  . -- ctrl+l
    have hedit : edit text 11 = text := rfl
    have hzero : SameOutside m (Function.update m (buf + text.length) 0) (buf + text.length)
        (buf + 128) :=
      SameOutside.update.mono (Nat.le_refl _) (by omega)
    rw [hedit]
    refine ⟨{ t with mem := Function.update m (buf + text.length) 0, keys := keys, out := _ }, rfl,
      rfl, hline.same hzero, ?_⟩
    exact hsame.trans (hzero.mono (Nat.le_add_right _ _) (Nat.le_refl _))
  . -- ctrl+u
    have hedit : edit text 20 = [] := rfl
    obtain ⟨t', h1, h2, h3⟩ := @erase_run { t with mem := m, keys := keys } buf addressSpace
      (buf + text.length)
      (Nat.le_add_right _ _) (by unfold addressSpace; omega)
    rw [hedit, Cmd.exec_bind h1]
    exact ⟨t', rfl, h2, .nil, hsame.trans (h3.mono (Nat.le_succ _) (by omega))⟩
  . -- an ordinary character
    next h10 h13 h8 h11 h20 =>
    have hedit : edit text key = text ++ [key] := by
      rw [edit, if_neg h8, if_neg h11, if_neg h20]
    rw [hedit]
    refine ⟨{ t with mem := m, keys := keys, out := t.out ++ [.putchar key] }, ?_, rfl,
      hline.snoc hself h8, hsame⟩
    rw [List.length_append, ← Nat.add_assoc]
    rfl

theorem readline.go_enter (hkeys : t.keys = ret :: rest) (h : Holds t.mem buf text)
    (hlen : text.length ≤ 127) (hcount : 128 ≤ count) (hret : ret = 10 ∨ ret = 13)
    : ∃ t', (go buf cwdCache buf count (fuel + 1) (buf + text.length)).run t = .ok ((), t')
        ∧ t'.keys = rest ∧ t'.mem.strEq buf text = true
            ∧ SameOutside t.mem t'.mem buf (buf + 128) := by
  generalize hm : Function.update (Function.update t.mem (buf + text.length) ret)
      (buf + text.length) 0 = m
  have hsame : SameOutside t.mem m (buf + text.length) (buf + 128) := by
    rw [← hm]
    exact (SameOutside.update.trans .update).mono (Nat.le_refl _) (by omega)
  have hself : (Function.update t.mem (buf + text.length) ret) (buf + text.length) = ret :=
    Function.update_self ..
  refine ⟨{ t with mem := m, keys := rest, out := t.out ++ [.putchar 10] }, ?_, rfl, ?_, ?_⟩
  . rw [go, Cmd.exec_bind (read_run hkeys), Cmd.exec_get_bind, if_pos ⟨by decide, by omega⟩, ← hm]
    dsimp only
    rw [hself]
    rcases hret with rfl | rfl <;> rfl
  . apply Mem.strEq_iff.mpr
    refine ⟨(h.same hsame).bytes, ?_⟩
    rw [← hm]
    exact Function.update_self ..
  . exact hsame.mono (Nat.le_add_right _ _) (Nat.le_refl _)

theorem readline.go_run (hkeys : t.keys = body ++ ret :: rest) (h : Holds t.mem buf text)
    (hcount : 128 ≤ count) (hret : ret = 10 ∨ ret = 13) (hbody : ∀ c ∈ body, c ≠ 10 ∧ c ≠ 13)
    (hlen : ∀ p, p <+: body → (p.foldl edit text).length ≤ 127) (hfuel : body.length < fuel)
    : ∃ t', (go buf cwdCache buf count fuel (buf + text.length)).run t = .ok ((), t')
        ∧ t'.keys = rest ∧ t'.mem.strEq buf (body.foldl edit text) = true
            ∧ SameOutside t.mem t'.mem buf (buf + 128) := by
  induction body generalizing t text fuel with
  | nil =>
    cases fuel with
    | zero => omega
    | succ fuel => exact go_enter hkeys h (hlen [] (List.prefix_refl _)) hcount hret
  | cons key body ih =>
    cases fuel with
    | zero => omega
    | succ fuel =>
      obtain ⟨hkey, hbody⟩ := List.forall_mem_cons.mp hbody
      obtain ⟨t', h1, h2, h3, h4⟩ := go_key hkeys h (hlen [] (List.nil_prefix)) hcount hkey
      obtain ⟨t'', h5, h6, h7, h8⟩ := ih h2 h3 hbody
        (fun p hp => hlen (key :: p) ((List.prefix_cons_inj key).mpr hp))
          (Nat.lt_of_succ_lt_succ hfuel)
      rw [h1]
      exact ⟨t'', h5, h6, h7, h4.trans h8⟩

/--
`readline` leaves the edited line in `cmd_line`, and the keys behind the enter key for the next
call.
-/
theorem readline_edits (hbuf : buf ≠ 0) (hcount : 128 ≤ count)
    (hkeys : t.keys = body ++ ret :: rest) (hret : ret = 10 ∨ ret = 13)
    (hbody : ∀ c ∈ body, c ≠ 10 ∧ c ≠ 13) (hlen : ∀ p, p <+: body → (edited p).length ≤ 127)
    : ∃ t', (readline buf cwdCache buf count).run t = .ok ((), t')
        ∧ t'.mem.strEq buf (edited body) = true ∧ t'.keys = rest
            ∧ SameOutside t.mem t'.mem buf (buf + 128) := by
  obtain ⟨t', h1, h2, h3, h4⟩ := @readline.go_run t buf cwdCache (t.keys.length + 1) count ret
    [] body rest hkeys .nil hcount hret
    hbody hlen (by rw [hkeys, List.length_append]; omega)
  refine ⟨t', ?_, h3, h2, h4⟩
  rw [readline, Cmd.exec_assert_bind, if_pos ⟨hbuf, by omega⟩, Cmd.exec_get_bind]
  exact h1

theorem readline_edits_ls
    : ∃ t', (readline 1000 2000 1000 512).run ⟨Mem.zero, [108, 120, 8, 8, 8, 8, 108, 115, 13], []⟩
        = .ok ((), t')
    ∧ t'.mem.strEq 1000 [108, 115] = true := by
  obtain ⟨t', h1, h2, -⟩ := @readline_edits ⟨Mem.zero, [108, 120, 8, 8, 8, 8, 108, 115, 13],
      []⟩ 1000 2000 512 13
    [108, 120, 8, 8, 8, 8, 108, 115] [] (by decide) (by decide) rfl (.inr rfl) (by simp)
    fun p hp =>
      length_foldl_edit_le.trans ((Nat.zero_add _).trans_le (hp.length_le.trans (by decide)))
  exact ⟨t', h1, h2⟩

end Readline

end Tty

end RogOS
