import RogOS.Task.Impl.Exec
import RogOS.Task.Impl.Name
import RogOS.Task.Lemmas.Fork

/-!
The name of a task is the path of its last `execv`, cut to 15 characters, and `_fork` for each fork
since then. That many forks, and no more, get through the assertion on its length.
-/

namespace RogOS

section Strings

variable {m : Mem} {a n : Nat} {str suffix : List UInt8}

theorem strlenLt_of_strEq (hstr : 0 ∉ str) (h : m.strEq a str = true)
    : strlenLt m a n = if str.length < n then some str.length else none := by
  rw [Mem.strEq_iff] at h
  obtain ⟨hchars, hnul⟩ := h
  have hne : ∀ i < str.length, ¬ (m (a + i) == 0) = true := by
    intro i hi heq
    rw [hchars i hi, beq_iff_eq] at heq
    apply hstr
    rw [← heq]
    exact List.getElem_mem hi
  unfold strlenLt
  split
  . next hlt =>
    rw [List.find?_range_eq_some]
    refine ⟨?_, List.mem_range.mpr hlt, ?_⟩
    . rw [hnul]
      rfl
    . intro i hi
      simpa using hne i hi
  . next hge =>
    rw [List.find?_eq_none]
    intro i hi
    rw [List.mem_range] at hi
    exact hne i (by omega)

theorem strEq_strcatFork (h : m.strEq a str = true)
    : (strcatFork m a str.length).strEq a (str ++ forkSuffix) = true := by
  rw [Mem.strEq_iff] at h ⊢
  obtain ⟨hchars, -⟩ := h
  have hlen : forkSuffix.length = 5 := rfl
  unfold strcatFork
  constructor
  . intro i hi
    rw [List.length_append] at hi
    by_cases hin : i < str.length
    . rw [Mem.blit_of_not_mem (by omega), List.getElem_append_left hin]
      exact hchars i hin
    . rw [Mem.blit_of_mem (by omega) (by omega), List.getElem_append_right (by omega),
        show a + i - (a + str.length) = i - str.length by omega]
      exact List.getD_eq_getElem _ _ (by omega)
  . rw [List.length_append, Mem.blit_of_mem (by omega) (by omega),
      show a + (str.length + forkSuffix.length) - (a + str.length) = 5 by omega]
    rfl

theorem strEq_execName {path : Mem}
    : (execName m path).strEq 0 ((path.chars 0 16).take 15) = true := by
  have hchars :=
    (Mem.chars_eq_iff (m := path) (a := 0) (n := 16) Mem.zero_not_mem_chars Mem.length_chars_le).mp
      rfl
  have hle := Mem.length_chars_le (m := path) (a := 0) (n := 16)
  generalize path.chars 0 16 = str at hchars hle
  obtain ⟨hchars, hnul⟩ := hchars
  unfold execName
  rw [Mem.strEq_iff]
  constructor
  . intro i hi
    rw [List.length_take] at hi
    rw [Mem.blit_of_not_mem (by omega), Mem.blit_of_mem (by omega) (by omega), List.getElem_take]
    have hi' := hchars i (by omega)
    rw [Nat.zero_add] at hi' ⊢
    exact hi'
  . rw [Nat.zero_add, List.length_take]
    by_cases hlt : str.length < 15
    . rw [Nat.min_eq_right (by omega), Mem.blit_of_not_mem (by omega),
        Mem.blit_of_mem (by omega) (by omega)]
      have hnul' := hnul (by omega)
      rw [Nat.zero_add] at hnul'
      exact hnul'
    . rw [Nat.min_eq_left (by omega), Mem.blit_of_mem (by omega) (by omega)]
      rfl

end Strings

section Functions

variable {m m' : Mem} {a n : Nat} {s : List NamedTask} {parent child : Nat} {env : ForkEnv}
  {u : Unit}

theorem strlenLt_congr {b : Nat} (h : ∀ i < n, m (a + i) = m' (b + i))
    : strlenLt m a n = strlenLt m' b n := by
  have hfind : ∀ l : List Nat, (∀ i ∈ l, i < n) →
      l.find? (fun i => m (a + i) == 0) = l.find? (fun i => m' (b + i) == 0) := by
    intro l hl
    induction l with
    | nil => rfl
    | cons x l ih =>
      have hx := h x (hl x List.mem_cons_self)
      rw [List.find?_cons, List.find?_cons, hx, ih fun i hi => hl i (List.mem_cons_of_mem _ hi)]
  exact hfind _ fun i hi => List.mem_range.mp hi

theorem copyPcb_name {pid : UInt16} {k : Nat} (h1 : 12 ≤ k) (h2 : k < 28)
    : copyPcb child parent pid m (child + k) = m (parent + k) := by
  unfold copyPcb Pcb.uBlockDesc Pcb.pid Pcb.elapsedTicks Pcb.status Pcb.ticks Pcb.parentPid
    Pcb.generalTag Pcb.allListTag
  rw [blockDescInit, blockDescInit_go_frame (Nat.zero_add 7) (by omega),
    Mem.setWord_of_not_mem (by omega), Mem.setWord_of_not_mem (by omega),
    Mem.setWord_of_not_mem (by omega), Mem.setWord_of_not_mem (by omega),
    Mem.setHalf_of_not_mem (by omega), Function.update_of_ne (by omega),
    Mem.setWord_of_not_mem (by omega), Mem.setWord_of_not_mem (by omega),
    Mem.setHalf_of_not_mem (by omega), Mem.blit_of_mem (by omega) (by omega), Mem.shift_apply,
    Nat.add_sub_cancel_left]

theorem copyPcbVaddrbitmapStack0_name (hp : ForkPages env parent child)
    (hrun : (copyPcbVaddrbitmapStack0 child parent env.pid env.vaddrBtmp).run m = .ok (u, m'))
    : ∃ name, (forkName (m.shift (parent + Pcb.name))).run s = .ok (name, s)
        ∧ ∀ i < 16, m' (child + Pcb.name + i) = name i := by
  have hbc := hp.bitmap_child
  simp only [copyPcbVaddrbitmapStack0, Cmd.bind_run, Cmd.modify_run, Cmd.get_run] at hrun
  obtain ⟨_, m1, h1, _, m2, h2, _, m3, h3, _, _, h4, h5⟩ := hrun
  cases h1
  cases h2
  cases h3
  cases h4
  -- the bitmap of the child is not in its PCB
  have hname : ∀ i < 16, (((copyPcb child parent env.pid m).blit env.vaddrBtmp (bitmapPgCnt * 4096)
        (Mem.shift (copyPcb child parent env.pid m)
          ((copyPcb child parent env.pid m).word (child + Pcb.bits)).toNat)).setWord
        (child + Pcb.bits) (UInt32.ofNat env.vaddrBtmp)) (child + Pcb.name + i)
      = (m.shift (parent + Pcb.name)) (0 + i) := by
    intro i hi
    have hcopy := @copyPcb_name m parent child env.pid (12 + i) (by omega) (by omega)
    unfold Pcb.name Pcb.bits
    rw [Mem.setWord_of_not_mem (by omega), Mem.blit_of_not_mem (by omega), Nat.add_assoc, hcopy,
      Mem.shift_apply, Nat.zero_add, Nat.add_assoc]
  rw [strlenLt_congr (n := 11) fun i hi => hname i (by omega)] at h5
  split at h5
  . exact absurd h5 Cmd.throw_run
  . next len hlen =>
    rw [Cmd.modify_run] at h5
    cases h5
    unfold forkName
    rw [hlen]
    refine ⟨_, rfl, ?_⟩
    intro i hi
    unfold strcatFork
    by_cases hin : len ≤ i ∧ i < len + 6
    . rw [Mem.blit_of_mem (by omega) (by omega), Mem.blit_of_mem (by omega) (by omega)]
      congr 1
      omega
    . rw [Mem.blit_of_not_mem (by omega), Mem.blit_of_not_mem (by omega), hname i hi, Nat.zero_add]

theorem sysExecv_name {task : Nat} {kbd : Mem} {part : Partition} {junk pathname argv : UInt32}
    {p p' : Proc} {c : ExecContext}
    (hrun : (sysExecv task kbd part junk pathname argv).run p = .ok (some c, p'))
    : ∃ p₁ : Proc, p'.name = execName p₁.name (p₁.mem.shift pathname.toNat) := by
  simp only [sysExecv, Cmd.bind_run, Cmd.get_run, Cmd.assert_run] at hrun
  obtain ⟨_, _, -, _, _, -, _, _, -, _, _, -, h⟩ := hrun
  split at h
  . rw [Cmd.pure_run, Prod.mk.injEq] at h
    obtain ⟨h, -⟩ := h
    contradiction
  . simp only [Cmd.bind_run, Cmd.get_run, Cmd.assert_run, Cmd.modify_run, Cmd.pure_run,
      Prod.mk.injEq] at h
    obtain ⟨_, _, hget, _, _, ⟨-, hassert⟩, _, _, ⟨-, hset⟩, -, hend⟩ := h
    cases hget
    cases hassert
    cases hset
    cases hend
    exact ⟨_, rfl⟩

end Functions

namespace NamedTask

def suffixes (n : Nat) : List UInt8 := (List.replicate n forkSuffix).flatten

theorem suffixes_succ {n : Nat} : suffixes (n + 1) = suffixes n ++ forkSuffix := by
  unfold suffixes
  rw [List.replicate_succ', List.flatten_append, List.flatten_singleton]

theorem length_suffixes {n : Nat} : (suffixes n).length = 5 * n := by
  induction n with
  | zero => rfl
  | succ n ih =>
    rw [suffixes_succ, List.length_append, ih]
    rfl

def str (t : NamedTask) : List UInt8 := t.path.take 15 ++ suffixes t.forks

def fullLength (t : NamedTask) : Nat := t.path.length + 5 * t.forks

def Terminated (t : NamedTask) : Prop := ∃ i < 16, t.name i = 0

structure Ok (t : NamedTask) : Prop where
  chars : 0 ∉ t.str
  name : t.name.strEq 0 t.str = true
  length : t.str.length ≤ 15

variable {t : NamedTask} {s : List NamedTask}

theorem length_str : t.str.length = min 15 t.path.length + 5 * t.forks := by
  unfold str
  rw [List.length_append, List.length_take, length_suffixes]

theorem Ok.terminated (h : t.Ok) : t.Terminated := by
  have hlen := h.length
  have hname := (Mem.strEq_iff.mp h.name).2
  rw [Nat.zero_add] at hname
  exact ⟨t.str.length, by omega, hname⟩

theorem init_ok : init.Ok where
  chars := by decide
  name := rfl
  length := by decide

theorem Ok.forkName (h : t.Ok)
    : (forkName t.name).run s = if t.fullLength < 11 then .ok (strcatFork t.name 0 t.str.length, s)
        else .error .panic := by
  have hlen := @length_str t
  unfold RogOS.forkName
  rw [strlenLt_of_strEq h.chars h.name]
  unfold fullLength
  by_cases hlt : t.str.length < 11
  . rw [if_pos hlt, if_pos (by omega)]
    rfl
  . rw [if_neg hlt, if_neg (by omega)]
    rfl

theorem Ok.child (h : t.Ok) (hlt : t.fullLength < 11)
    : Ok ⟨strcatFork t.name 0 t.str.length, t.path, t.forks + 1⟩ := by
  have hstr : str ⟨strcatFork t.name 0 t.str.length, t.path, t.forks + 1⟩
      = t.str ++ forkSuffix := by
    unfold str
    rw [suffixes_succ, List.append_assoc]
  have hlen := @length_str t
  unfold fullLength at hlt
  constructor
  . rw [hstr, List.mem_append, not_or]
    exact ⟨h.chars, by decide⟩
  . rw [hstr]
    exact strEq_strcatFork h.name
  . rw [hstr, List.length_append]
    show t.str.length + 5 ≤ 15
    omega

theorem execName_ok {name path : Mem} : Ok ⟨execName name path, path.chars 0 16, 0⟩ := by
  have hstr : str ⟨execName name path, path.chars 0 16, 0⟩ = (path.chars 0 16).take 15 :=
    List.append_nil _
  constructor
  . rw [hstr]
    exact fun h => Mem.zero_not_mem_chars (List.mem_of_mem_take h)
  . rw [hstr]
    exact strEq_execName
  . rw [hstr, List.length_take]
    omega

def Short (s : List NamedTask) : NameOp → Prop
  | .fork parent => ∀ t, s[parent]? = some t → t.fullLength < 11
  | .execv .. => True

theorem exec_spec {op : NameOp} (hs : ∀ t ∈ s, t.Ok) (ha : Allowed s op)
    : ((∃ s', (exec op).run s = .ok ((), s')) ↔ Short s op)
        ∧ ∀ s', (exec op).run s = .ok ((), s') → ∀ t ∈ s', t.Ok := by
  cases op with
  | fork parent =>
    have hget : s[parent]? = some (s[parent]) := List.getElem?_eq_getElem ha
    have hok := hs _ (List.getElem_mem ha)
    generalize s[parent] = t at hget hok
    have hrun : (exec (.fork parent)).run s = if t.fullLength < 11 then
        .ok ((), s ++ [⟨strcatFork t.name 0 t.str.length, t.path, t.forks + 1⟩])
          else .error .panic := by
      unfold exec
      rw [Cmd.exec_get_bind, hget]
      dsimp only
      rw [StateT.run_bind, hok.forkName]
      split <;> rfl
    have hshort : Short s (.fork parent) ↔ t.fullLength < 11 := by
      show (∀ t', s[parent]? = some t' → t'.fullLength < 11) ↔ _
      rw [hget]
      simp
    rw [hrun, hshort]
    split
    . next hlt =>
      constructor
      . exact iff_of_true ⟨_, rfl⟩ hlt
      . intro s' hs'
        cases hs'
        intro t' ht'
        rw [List.mem_append, List.mem_singleton] at ht'
        obtain ht' | rfl := ht'
        . exact hs t' ht'
        . exact hok.child hlt
    . next hge =>
      constructor
      . apply iff_of_false _ hge
        rintro ⟨s', hs'⟩
        contradiction
      . intro s' hs'
        contradiction
  | execv task path =>
    have hget : s[task]? = some (s[task]) := List.getElem?_eq_getElem ha
    generalize s[task] = t at hget
    have hrun : (exec (.execv task path)).run s
        = .ok ((), s.set task ⟨execName t.name path, path.chars 0 16, 0⟩) := by
      unfold exec
      rw [Cmd.exec_get_bind, hget]
      rfl
    rw [hrun]
    constructor
    . exact iff_of_true ⟨_, rfl⟩ trivial
    . intro s' hs'
      cases hs'
      intro t' ht'
      obtain hmem | rfl := List.mem_or_eq_of_mem_set ht'
      . exact hs t' hmem
      . exact execName_ok

abbrev Reach : List NamedTask → List NamedTask → Prop := Cmd.Reach exec Allowed

end NamedTask

open NamedTask

/--
In every family that descends from `init` all the names are terminated. The assertion on the length
of the name holds for the next fork if and only if the task is one whose path and forks since then
come to fewer than 11 characters.
-/
theorem names_survive {s : List NamedTask} (h : NamedTask.Reach [init] s)
    : (∀ t ∈ s, t.Terminated) ∧ ∀ op, Allowed s op
        → ((∃ s', (exec op).run s = .ok ((), s')) ↔ Short s op) := by
  have hok : ∀ t ∈ s, t.Ok := by
    refine Cmd.Reach.invariant (P := fun s => ∀ t ∈ s, Ok t) ?_ ?_ h
    . intro s op _ s' hs ha hrun
      exact (exec_spec hs ha).2 s' hrun
    . intro t ht
      rw [List.mem_singleton.mp ht]
      exact init_ok
  refine ⟨fun t ht => (hok t ht).terminated, ?_⟩
  intro op ha
  exact (exec_spec hok ha).1

section Descendants

instance {s : List NamedTask} {op : NameOp} : Decidable (Allowed s op) :=
  match op with
  | .fork parent => inferInstanceAs (Decidable (parent < s.length))
  | .execv task _ => inferInstanceAs (Decidable (task < s.length))

theorem reach_of_ops {ops : List NameOp}
    (h : Cmd.returnsWhile exec (fun s op => decide (Allowed s op)) ops [init] = true)
    : NamedTask.Reach [init] (Cmd.afterAll exec ops [init]) :=
  Cmd.reach_of_returnsWhile (k := fun s op => decide (Allowed s op)) (fun _ _ _ h =>
    of_decide_eq_true h) h

def progPath : Mem := fun i => [47, 112, 114, 111, 103, 95, 110, 111, 95, 97, 114, 103].getD i 0

def forkExec : List NameOp := [.fork 0, .execv 1 progPath]

theorem names_survive_forkExec
    : (∀ t ∈ Cmd.afterAll exec forkExec [init], t.Terminated)
        ∧ ∀ op, Allowed (Cmd.afterAll exec forkExec [init]) op →
          ((∃ s', (exec op).run (Cmd.afterAll exec forkExec [init]) = .ok ((), s'))
            ↔ Short (Cmd.afterAll exec forkExec [init]) op) :=
  names_survive (reach_of_ops (by decide))

def twoForks : List NameOp := [.fork 0, .fork 1]

/-- The third generation fails. -/
theorem not_names_survive
    : ¬ ∀ s : List NamedTask, NamedTask.Reach [init] s →
        (∀ t ∈ s, t.Terminated) ∧ ∀ op, Allowed s op → ∃ s', (exec op).run s = .ok ((), s') := by
  intro h
  have hreach : NamedTask.Reach [init] (Cmd.afterAll exec twoForks [init]) :=
    reach_of_ops (by decide)
  obtain ⟨s', hrun⟩ := (h _ hreach).2 (.fork 2) (by decide)
  have hfails : (exec (.fork 2)).returns (Cmd.afterAll exec twoForks [init]) (fun _ => true)
      = false := by decide
  unfold Cmd.returns at hfails
  rw [hrun] at hfails
  contradiction

end Descendants

end RogOS
