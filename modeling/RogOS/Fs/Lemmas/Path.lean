import RogOS.Fs.Impl.Syscall
import RogOS.Lib.Words

/-!
The components of a path, and what `path_parse`, `path_depth_cnt` and `strrchr` make of them.
-/

namespace RogOS

variable {p c : List UInt8} {cs : List (List UInt8)}

def components (p : List UInt8) : List (List UInt8) := (p.splitOn 47).filter fun c => c ≠ []

def joinPath (cs : List (List UInt8)) : List UInt8 := cs.flatMap fun c => 47 :: c

def pathOf (st : List (List UInt8)) : List UInt8 := if st = [] then [47] else joinPath st.reverse

section Components

theorem components_nil : components [] = [] := rfl

theorem components_slash : components (47 :: p) = components p := by
  unfold components List.splitOn
  rw [List.splitOnP_cons_eq_if_modifyHead]
  simp

theorem components_append_slash (hne : c ≠ []) (hc : 47 ∉ c)
    : components (c ++ 47 :: p) = c :: components p := by
  have hfirst : (c ++ 47 :: p).splitOn 47 = c :: p.splitOn 47 := by
    unfold List.splitOn
    rw [List.splitOnP_append_cons_of_forall_mem]
    . intro x hx
      rw [beq_eq_false_iff_ne]
      rintro rfl
      exact hc hx
    . rfl
  unfold components
  rw [hfirst, List.filter_cons, if_pos (by simpa using hne)]

theorem components_single (hne : c ≠ []) (hc : 47 ∉ c) : components c = [c] := by
  have hsingle : c.splitOn 47 = [c] := by
    unfold List.splitOn
    apply List.splitOnP_eq_singleton
    intro x hx
    rw [beq_eq_false_iff_ne]
    rintro rfl
    exact hc hx
  unfold components
  rw [hsingle, List.filter_cons, if_pos (by simpa using hne), List.filter_nil]

theorem components_slashes {n : Nat} : components (List.replicate n 47 ++ p) = components p := by
  induction n with
  | zero => rfl
  | succ n ih => rw [List.replicate_succ, List.cons_append, components_slash, ih]

theorem path_cases (p : List UInt8)
    : (∃ n, p = List.replicate n 47)
      ∨ ∃ n c, c ≠ [] ∧ 47 ∉ c
          ∧ (p = List.replicate n 47 ++ c ∨ ∃ r, p = List.replicate n 47 ++ (c ++ 47 :: r)) :=
  Words.word_cases 47 p

@[elab_as_elim]
theorem path_induction {P : List UInt8 → Prop} (slashes : ∀ n, P (List.replicate n 47))
    (last : ∀ n c, c ≠ [] → 47 ∉ c → P (List.replicate n 47 ++ c))
    (step : ∀ n c r, c ≠ [] → 47 ∉ c → P (47 :: r) → P (List.replicate n 47 ++ (c ++ 47 :: r)))
    (p : List UInt8) : P p := by
  induction hn : p.length using Nat.strong_induction_on generalizing p with
  | _ n ih =>
    obtain ⟨k, rfl⟩ | ⟨k, c, h1, h2, rfl | ⟨r, rfl⟩⟩ := path_cases p
    . exact slashes k
    . exact last k c h1 h2
    . apply step k c r h1 h2
      apply ih (r.length + 1) _ _ rfl
      have := List.length_pos_of_ne_nil h1
      simp only [List.length_append, List.length_cons, List.length_replicate] at hn
      omega

theorem dropWhile_slashes {n : Nat} (hc : 47 ∉ c.take 1)
    : (List.replicate n 47 ++ c).dropWhile (· == 47) = c := by
  induction n with
  | zero =>
    cases c with
    | nil => rfl
    | cons x c => 
      rw [List.replicate_zero, List.nil_append, List.dropWhile_cons, if_neg]
      intro hx
      rw [beq_iff_eq] at hx
      exact hc (by simp [hx])
  | succ n ih =>
    rw [List.replicate_succ, List.cons_append, List.dropWhile_cons, if_pos (beq_self_eq_true _)]
    exact ih

theorem takeWhile_name {q : List UInt8} (hc : 47 ∉ c)
    : (c ++ 47 :: q).takeWhile (· != 47) = c ∧ (c ++ 47 :: q).dropWhile (· != 47) = 47 :: q := by
  induction c with
  | nil => simp
  | cons x c ih =>
    simp only [List.mem_cons, not_or] at hc
    have hx : (x != 47) = true := by simpa using Ne.symm hc.1
    simp only [List.cons_append, List.takeWhile_cons, List.dropWhile_cons, hx, ↓reduceIte]
    exact ⟨by rw [(ih hc.2).1], (ih hc.2).2⟩

theorem takeWhile_last (hc : 47 ∉ c) : c.takeWhile (· != 47) = c ∧ c.dropWhile (· != 47) = [] := by
  induction c with
  | nil => simp
  | cons x c ih =>
    simp only [List.mem_cons, not_or] at hc
    have hx : (x != 47) = true := by simpa using Ne.symm hc.1
    simp only [List.takeWhile_cons, List.dropWhile_cons, hx, ↓reduceIte]
    exact ⟨by rw [(ih hc.2).1], (ih hc.2).2⟩

theorem pathParse_slashes {n : Nat} : pathParse (List.replicate n 47) = ([], none) := by
  have h := @dropWhile_slashes [] n (by simp)
  rw [List.append_nil] at h
  simp [pathParse, h]

theorem pathParse_last {n : Nat} (hc : 47 ∉ c)
    : pathParse (List.replicate n 47 ++ c) = (c, none) := by
  rw [pathParse, dropWhile_slashes fun h => hc (List.mem_of_mem_take h)]
  simp [takeWhile_last hc]

theorem pathParse_name {n : Nat} {q : List UInt8} (hne : c ≠ []) (hc : 47 ∉ c)
    : pathParse (List.replicate n 47 ++ (c ++ 47 :: q)) = (c, some (47 :: q)) := by
  rw [pathParse, dropWhile_slashes]
  . simp [takeWhile_name hc]
  . cases c with
    | nil => contradiction
    | cons x c =>
      intro h
      apply hc
      simp only [List.cons_append, List.take_succ_cons, List.take_zero, List.mem_singleton] at h
      rw [← h]
      exact List.mem_cons_self

end Components

def remaining (name : List UInt8) (subPath : Option (List UInt8)) : List (List UInt8) :=
  if name = [] then [] else name :: components (subPath.getD [])

theorem components_replicate {n : Nat} : components (List.replicate n 47) = [] := by
  have h := @components_slashes [] n
  rw [List.append_nil] at h
  exact h

theorem remaining_pathParse : remaining (pathParse p).1 (pathParse p).2 = components p := by
  induction p using path_induction with
  | slashes n => rw [pathParse_slashes, components_replicate, remaining, if_pos rfl]
  | last n c h1 h2 =>
    rw [pathParse_last h2, components_slashes, components_single h1 h2, remaining, if_neg h1]
    rfl
  | step n c r h1 h2 =>
    rw [pathParse_name h1 h2, components_slashes, components_append_slash h1 h2, remaining,
      if_neg h1]
    rw [Option.getD_some, components_slash]

theorem mem_components (hc : c ∈ components p) : c ≠ [] ∧ 47 ∉ c ∧ ∀ x ∈ c, x ∈ p := by
  induction p using path_induction with
  | slashes n =>
    rw [components_replicate] at hc
    contradiction
  | last n d h1 h2 =>
    rw [components_slashes, components_single h1 h2, List.mem_singleton] at hc
    subst hc
    exact ⟨h1, h2, fun x hx => List.mem_append_right _ hx⟩
  | step n d r h1 h2 ih =>
    rw [components_slashes, components_append_slash h1 h2] at hc
    cases List.mem_cons.mp hc with
    | inl hc =>
      subst hc
      exact ⟨h1, h2, fun x hx => List.mem_append_right _ (List.mem_append_left _ hx)⟩
    | inr hc =>
      rw [components_slash] at ih
      obtain ⟨h3, h4, h5⟩ := ih hc
      exact ⟨h3, h4, fun x hx => List.mem_append_right _ (List.mem_append_right _ (h5 x hx))⟩

section Depth

def IsName (c : List UInt8) : Prop := c ≠ [] ∧ 0 ∉ c

theorem isName_of_mem_components (hp : 0 ∉ p) (hc : c ∈ components p) : IsName c := by
  obtain ⟨hne, -, hsub⟩ := mem_components hc
  exact ⟨hne, fun h0 => hp (hsub 0 h0)⟩

def pathDepth (p : List UInt8) : Nat :=
  if p.getLast? = some 47 then (components p).length else (components p).length - 1

theorem components_ne_nil_of_getLast? (h : (47 :: p).getLast? ≠ some 47)
    : components (47 :: p) ≠ [] := by
  intro h0
  apply h
  obtain ⟨j, hj⟩ | ⟨j, d, hd, hd', hj | ⟨u, hj⟩⟩ := path_cases (47 :: p)
  . cases j with
    | zero => contradiction
    | succ j => rw [hj, List.getLast?_replicate, if_neg (by omega)]
  . rw [hj, components_slashes, components_single hd hd'] at h0
    contradiction
  . rw [hj, components_slashes, components_append_slash hd hd'] at h0
    contradiction

theorem pathDepth_slashes {n : Nat} : pathDepth (List.replicate n 47) = 0 := by
  rw [pathDepth, components_replicate]
  split <;> rfl

theorem pathDepth_last {n : Nat} (hne : c ≠ []) (hc : 47 ∉ c)
    : pathDepth (List.replicate n 47 ++ c) = 0 := by
  have hlast : (List.replicate n 47 ++ c).getLast? ≠ some 47 := by
    rw [List.getLast?_append_of_ne_nil _ hne, List.getLast?_eq_some_getLast hne]
    intro h
    apply hc
    rw [← Option.some.inj h]
    exact List.getLast_mem hne
  rw [pathDepth, if_neg hlast, components_slashes, components_single hne hc]
  rfl

theorem pathDepth_name {n : Nat} {q : List UInt8} (hne : c ≠ []) (hc : 47 ∉ c)
    : pathDepth (List.replicate n 47 ++ (c ++ 47 :: q)) = 1 + pathDepth (47 :: q) := by
  have hlast : (List.replicate n 47 ++ (c ++ 47 :: q)).getLast? = (47 :: q).getLast? := by
    rw [← List.append_assoc, List.getLast?_append_of_ne_nil _ (by simp)]
  rw [pathDepth, pathDepth, hlast, components_slashes, components_append_slash hne hc,
    List.length_cons]
  split
  . rw [components_slash]
    omega
  . next h =>
    have hpos := List.length_pos_of_ne_nil (components_ne_nil_of_getLast? h)
    rw [components_slash] at hpos ⊢
    omega

theorem pathDepthCnt.go_eq {σ : Type} {t : σ} {fuel depth : Nat}
    (hfuel : (components p).length < fuel)
    : (pathDepthCnt.go fuel p depth).run t
        = if ∀ c ∈ components p, c.length ≤ 16 then .ok (depth + pathDepth p, t)
            else .error .overrun := by
  induction fuel generalizing p depth with
  | zero => omega
  | succ fuel ih =>
    rw [pathDepthCnt.go, Cmd.exec_assert_bind]
    obtain ⟨k, rfl⟩ | ⟨k, c, hne, hc, rfl | ⟨q, rfl⟩⟩ := path_cases p
    . rw [pathParse_slashes, components_replicate, pathDepth_slashes, if_pos fun c hc =>
        absurd hc List.not_mem_nil]
      rfl
    . rw [pathParse_last hc, components_slashes, components_single hne hc, pathDepth_last hne hc]
      simp only [List.forall_mem_singleton]
      split <;> rfl
    . rw [components_slashes, components_append_slash hne hc, List.length_cons] at hfuel
      rw [pathParse_name hne hc, components_slashes, components_append_slash hne hc,
        pathDepth_name hne hc]
      simp only [List.forall_mem_cons]
      split
      . next h =>
        rw [ih (by rw [components_slash]; omega), components_slash, Nat.add_assoc]
        simp only [h, true_and]
      . next h => simp only [h, false_and, ↓reduceIte]

theorem length_components_le : (components p).length ≤ p.length := by
  induction p using path_induction with
  | slashes n =>
    rw [components_replicate]
    exact Nat.zero_le _
  | last n c h1 h2 =>
    have hpos := List.length_pos_of_ne_nil h1
    rw [components_slashes, components_single h1 h2, List.length_append, List.length_singleton]
    omega
  | step n c r h1 h2 ih =>
    have hpos := List.length_pos_of_ne_nil h1
    rw [components_slash, List.length_cons] at ih
    rw [components_slashes, components_append_slash h1 h2, List.length_cons, List.length_append,
      List.length_append, List.length_cons]
    omega

theorem pathDepthCnt_eq {σ : Type} {t : σ}
    : (pathDepthCnt p).run t
        = if ∀ c ∈ components p, c.length ≤ 16 then .ok (pathDepth p, t) else .error .overrun := by
  rw [pathDepthCnt, pathDepthCnt.go_eq (Nat.lt_succ_of_le length_components_le), Nat.zero_add]

theorem pathDepthCnt_run {σ : Type} {t : σ} {r : Nat × σ} (h : (pathDepthCnt p).run t = .ok r)
    : r = (pathDepth p, t) := by
  rw [pathDepthCnt_eq] at h
  split at h
  . exact (Except.ok.inj h).symm
  . contradiction

theorem pathDepth_of_getLast? (hlast : p.getLast? ≠ some 47)
    : pathDepth p = (components p).length - 1 := if_neg hlast

end Depth

section Join

theorem joinPath_concat : joinPath (cs ++ [c]) = joinPath cs ++ 47 :: c := by
  rw [joinPath, List.flatMap_append, List.flatMap_singleton, joinPath]

theorem pathOf_cons : pathOf (c :: cs) = joinPath cs.reverse ++ 47 :: c := by
  rw [pathOf, if_neg (List.cons_ne_nil _ _), List.reverse_cons, joinPath_concat]

theorem components_joinPath (h : ∀ c ∈ cs, c ≠ [] ∧ 47 ∉ c) : components (joinPath cs) = cs := by
  induction cs with
  | nil => rfl
  | cons c cs ih =>
    obtain ⟨h1, h2⟩ := h c List.mem_cons_self
    have hrest := ih fun d hd => h d (List.mem_cons_of_mem _ hd)
    cases cs with
    | nil =>
      rw [joinPath, List.flatMap_cons, List.flatMap_nil, List.append_nil, components_slash,
        components_single h1 h2]
    | cons d cs =>
      have hcons : joinPath (c :: d :: cs) = 47 :: (c ++ 47 :: (d ++ joinPath cs)) := by
        simp [joinPath]
      have hd : joinPath (d :: cs) = 47 :: (d ++ joinPath cs) := by
        simp [joinPath]
      rw [hcons, components_slash, components_append_slash h1 h2, ← hrest, hd, components_slash]

theorem components_pathOf (h : ∀ c ∈ cs, c ≠ [] ∧ 47 ∉ c)
    : components (pathOf cs) = cs.reverse := by
  unfold pathOf
  split
  . next hnil =>
    rw [hnil]
    rfl
  . exact components_joinPath fun c hc => h c (List.mem_reverse.mp hc)

theorem strcat_ok {σ : Type} {t : σ} {dst src : List UInt8} (h : (dst ++ src).length < 512)
    : (strcat dst src).run t = .ok (dst ++ src, t) := by
  rw [strcat, Cmd.exec_assert_bind, if_pos h]
  rfl

theorem joinPath_getLast? (hne : c ≠ []) (hc : 47 ∉ c)
    : (joinPath (cs ++ [c])).getLast? ≠ some 47 := by
  rw [joinPath, List.flatMap_append, List.flatMap_singleton,
    List.getLast?_append_of_ne_nil _ (by simp), List.getLast?_cons]
  intro h
  rw [Option.some.injEq, List.getLast?_eq_some_getLast hne, Option.getD_some] at h
  apply hc
  rw [← h]
  exact List.getLast_mem hne

theorem lastName_append {σ : Type} {t : σ} {r : List UInt8 × σ} (hc : 47 ∉ c)
    : (lastName (p ++ 47 :: c)).run t = .ok r ↔ r = (c, t) := by
  have hrev : 47 ∉ c.reverse := by simpa using hc
  have hlast : ((p ++ 47 :: c).reverse.takeWhile (· != 47)).reverse = c := by
    rw [List.reverse_append, List.reverse_cons, List.append_assoc, List.singleton_append,
      (takeWhile_name hrev).1, List.reverse_reverse]
  simp only [lastName, Cmd.bind_run, Cmd.assert_run, Cmd.pure_run]
  rw [hlast]
  constructor
  . rintro ⟨_, _, ⟨-, h1⟩, h2⟩
    cases h1
    exact h2
  . intro h
    exact ⟨_, _, ⟨by simp, rfl⟩, h⟩

theorem takeWhile_append_slash {l x : List UInt8}
    : (l ++ 47 :: x).takeWhile (· != 47) = (l ++ [47]).takeWhile (· != 47) := by
  induction l with
  | nil => rfl
  | cons y l ih => rw [List.cons_append, List.cons_append, List.takeWhile_cons, List.takeWhile_cons,
      ih]

theorem lastName_slash {σ : Type} {t : σ} {x q : List UInt8}
    : (lastName (x ++ 47 :: q)).run t = (lastName (47 :: q)).run t := by
  unfold lastName
  have hrev : (x ++ 47 :: q).reverse.takeWhile (· != 47)
      = (47 :: q).reverse.takeWhile (· != 47) := by
    rw [List.reverse_append, List.reverse_cons, List.append_assoc, List.singleton_append,
      takeWhile_append_slash]
  rw [hrev]
  simp [Cmd.assert]

theorem lastName_run {σ : Type} {t : σ} {r : List UInt8 × σ} (hlast : p.getLast? ≠ some 47)
    (h : (lastName p).run t = .ok r) : ∃ cs, components p = cs ++ [r.1] := by
  induction p using path_induction with
  | slashes n =>
    simp only [lastName, Cmd.bind_run, Cmd.assert_run] at h
    obtain ⟨_, _, ⟨h1, -⟩, -⟩ := h
    cases n with
    | zero => contradiction
    | succ n =>
      rw [List.getLast?_replicate, if_neg (by omega)] at hlast
      contradiction
  | last n c h1 h2 =>
    refine ⟨[], ?_⟩
    rw [components_slashes, components_single h1 h2, List.nil_append]
    cases n with
    | zero =>
      simp only [lastName, Cmd.bind_run, Cmd.assert_run] at h
      obtain ⟨_, _, ⟨h3, -⟩, -⟩ := h
      exact absurd h3 h2
    | succ n =>
      rw [List.replicate_succ', List.append_assoc, List.singleton_append, lastName_append h2] at h
      rw [h]
  | step n c q h1 h2 ih =>
    have hq : (47 :: q).getLast? ≠ some 47 := by
      rw [← List.append_assoc, List.getLast?_append_of_ne_nil _ (by simp)] at hlast
      exact hlast
    rw [components_slashes, components_append_slash h1 h2]
    have hrun : (lastName (47 :: q)).run t = .ok r := by
      rw [← List.append_assoc, lastName_slash] at h
      exact h
    obtain ⟨cs, hcs⟩ := ih hq hrun
    refine ⟨c :: cs, ?_⟩
    rw [components_slash] at hcs
    rw [hcs, List.cons_append]

end Join

end RogOS
