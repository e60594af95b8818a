import RogOS.Fs.PathResolution
import RogOS.Shell.PathWashing

/-!
The arrays of `MAX_FILE_NAME_LEN` bytes that `path_parse` stores the components of a path in.
-/

namespace RogOS

open Cmd (Avoids avoids_pure avoids_get avoids_modify avoids_throw avoids_assert avoids_bind
  avoids_zoom)

variable {part : Partition} {s : Fs} {junk : UInt32} {path : CStr} {name : Mem}
  {p chars : List UInt8}

def storeName (name : Mem) (chars : List UInt8)
    : Mem := name.blit 0 chars.length fun i => chars.getD i 0

def Terminated (name : Mem) : Prop := ∃ i < 16, name i = 0

instance : Decidable (Terminated name) := inferInstanceAs (Decidable (∃ i < 16, _))

def pathDepthCnt.arrays : (fuel : Nat) → (name : Mem) → (p : List UInt8) → List Mem
  | 0, _, _ => []
  | fuel + 1, name, p =>
    storeName name (pathParse p).1 :: match (pathParse p).2 with
      | none => []
      | some q => pathDepthCnt.arrays fuel (storeName name (pathParse p).1) q

/--
The components of the path fit into the arrays of `search_file`, `wash_path` and `path_depth_cnt`,
and the array holds a string each time. The last of the three functions does not clear its array,
which holds `name` at first.
-/
structure NamesFit (part : Partition) (s : Fs) (junk : UInt32) (name : Mem) (path : CStr)
    : Prop where
  search : (searchFile part junk path.chars).run s ≠ .error .overrun
  wash : (washPath path.chars).run () ≠ .error .overrun
  depth : (pathDepthCnt path.chars).run () ≠ .error .overrun
  terminated : ∀ m ∈ pathDepthCnt.arrays (path.chars.length + 1) name path.chars, Terminated m

section Array

theorem storeName_eq_zero (hnul : 0 ∉ chars) {i : Nat}
    : storeName name chars i = 0 ↔ chars.length ≤ i ∧ name i = 0 := by
  unfold storeName
  by_cases hi : i < chars.length
  . rw [Mem.blit_of_mem (Nat.zero_le _) (by omega), Nat.sub_zero, List.getD_eq_getElem _ _ hi]
    constructor
    . intro h0
      rw [← h0] at hnul
      exact absurd (List.getElem_mem hi) hnul
    . intro h
      omega
  . rw [Mem.blit_of_not_mem (by omega)]
    constructor
    . intro h
      exact ⟨by omega, h⟩
    . intro h
      exact h.2

theorem pathDepthCnt.terminated_iff {fuel : Nat} (hnul : 0 ∉ p)
    (hfuel : (components p).length < fuel)
    : (∀ m ∈ arrays fuel name p, Terminated m)
        ↔
      ∃ i < 16, name i = 0 ∧ ∀ c ∈ components p, c.length ≤ i := by
  induction fuel generalizing p name with
  | zero => omega
  | succ fuel ih =>
    have hstep : ∀ c, 0 ∉ c → (Terminated (storeName name c) ↔ ∃ i < 16, name i = 0
        ∧ c.length ≤ i) := by
      intro c hc
      unfold Terminated
      simp only [storeName_eq_zero hc]
      constructor
      . rintro ⟨i, hi, h1, h2⟩
        exact ⟨i, hi, h2, h1⟩
      . rintro ⟨i, hi, h1, h2⟩
        exact ⟨i, hi, h2, h1⟩
    rw [arrays]
    obtain ⟨k, rfl⟩ | ⟨k, c, hne, hc, rfl | ⟨q, rfl⟩⟩ := path_cases p
    . rw [pathParse_slashes, components_replicate]
      dsimp only
      rw [List.forall_mem_singleton, hstep [] List.not_mem_nil]
      simp
    . have hc0 : 0 ∉ c := fun h => hnul (List.mem_append_right _ h)
      rw [pathParse_last hc, components_slashes, components_single hne hc]
      dsimp only
      rw [List.forall_mem_singleton, hstep c hc0]
      simp only [List.forall_mem_singleton]
    . have hc0 : 0 ∉ c := fun h => hnul (List.mem_append_right _ (List.mem_append_left _ h))
      have hq0 : 0 ∉ 47 :: q := fun h => hnul (List.mem_append_right _ (List.mem_append_right _ h))
      rw [components_slashes, components_append_slash hne hc, List.length_cons] at hfuel
      have hrest := @ih (storeName name c) (47 :: q) hq0 (by rw [components_slash]; omega)
      rw [components_slash] at hrest
      rw [pathParse_name hne hc, components_slashes, components_append_slash hne hc]
      dsimp only
      rw [List.forall_mem_cons, hrest, hstep c hc0]
      simp only [storeName_eq_zero hc0, List.forall_mem_cons]
      constructor
      . rintro ⟨-, i, hi, ⟨h1, h2⟩, h3⟩
        exact ⟨i, hi, h2, h1, h3⟩
      . rintro ⟨i, hi, h1, h2, h3⟩
        exact ⟨⟨i, hi, h1, h2⟩, i, hi, ⟨h2, h1⟩, h3⟩

end Array

section Search

theorem PassesAssertion.absolute (h : PassesAssertion p) : p.head? = some 47 ∧ p.length < 512 := by
  cases h with
  | inl h => obtain rfl | rfl | rfl := h <;> decide
  | inr h => exact ⟨h.1, h.2.2⟩

theorem ideRead_avoids {lba : UInt32} {n : Nat} : Avoids .overrun (ideRead lba n) :=
  avoids_bind (avoids_assert (.inr (by decide))) fun _ _ _ _ =>
    avoids_bind avoids_get (fun _ _ _ _ => avoids_pure _) _

theorem searchDirEntry.go_avoids {c : List UInt8} {blocks : Nat → UInt32} {n i : Nat}
    : Avoids .overrun (go part c blocks n i) := by
  induction n generalizing i with
  | zero => exact avoids_pure
  | succ n ih =>
    rw [go]
    split
    . exact ih
    . apply avoids_bind ideRead_avoids
      intro v buf v' _
      split
      . exact avoids_pure _
      . exact ih _

theorem searchDirEntry_avoids {ino : Inode} {c : List UInt8}
    : Avoids .overrun (searchDirEntry part ino c) := by
  apply avoids_bind
  . unfold allBlocks
    split
    . exact avoids_bind ideRead_avoids fun _ _ _ _ => avoids_pure _
    . exact avoids_pure
  . exact fun _ _ _ _ => searchDirEntry.go_avoids _

theorem derefInode_avoids {addr : Nat} : Avoids .overrun (derefInode addr) := by
  apply avoids_bind avoids_get
  intro s t s' _
  split
  . exact avoids_pure _
  . exact avoids_throw (by decide) _

theorem inodeOpen_avoids {n : UInt32} : Avoids .overrun (inodeOpen part n) := by
  apply avoids_bind avoids_get
  intro s t s' _
  split
  . exact avoids_bind avoids_modify (fun _ _ _ _ => avoids_pure _) _
  . apply avoids_bind
    . apply avoids_zoom
      apply avoids_bind
      . exact avoids_bind (avoids_assert (.inr (by decide))) fun _ _ _ _ => avoids_pure _
      . exact fun _ _ _ _ => avoids_bind ideRead_avoids (fun _ _ _ _ => avoids_pure _) _
    . exact fun _ _ _ _ => avoids_bind avoids_modify (fun _ _ _ _ => avoids_pure _) _

theorem inodeClose_avoids {addr : Nat} : Avoids .overrun (inodeClose addr) := by
  apply avoids_bind derefInode_avoids
  intro s ino s' _
  split
  . exact avoids_modify _
  . exact avoids_modify _

theorem dirClose_avoids {dir : DirRef} : Avoids .overrun (dirClose dir) := by
  cases dir with
  | root => exact avoids_pure
  | opened addr => exact inodeClose_avoids

theorem dirOpen_avoids {n : UInt32} : Avoids .overrun (dirOpen part n) :=
  avoids_bind inodeOpen_avoids fun _ _ _ _ => avoids_pure _

theorem searchFile.go_avoids {fuel : Nat} {c : searchFile.Cursor}
    (hlen : c.searchedPath.length + (joinPath (remaining c.name c.subPath)).length < 512)
    (hshort : ∀ x ∈ remaining c.name c.subPath, x.length < 16)
    : Avoids .overrun (go part fuel c) := by
  induction fuel generalizing c with
  | zero => exact avoids_throw (by decide)
  | succ fuel ih =>
    rw [go]
    split
    . exact avoids_bind dirClose_avoids fun _ _ _ _ => avoids_bind dirOpen_avoids (fun _ _ _ _ =>
        avoids_pure _) _
    . next hname =>
      rw [remaining, if_neg hname] at hlen hshort
      rw [length_joinPath_cons] at hlen
      have hfit : (c.searchedPath ++ 47 :: c.name).length < 512 := by
        rw [List.length_append, List.length_cons]
        omega
      have hparse : Avoids .overrun (parseName c.subPath : FsM _) := by
        intro s
        obtain ⟨r, hr⟩ := @parseName_ok Fs s c.subPath fun x hx =>
          Nat.le_of_lt (hshort x (List.mem_cons_of_mem _ (List.mem_of_mem_head? hx)))
        rw [hr]
        intro h
        contradiction
      apply avoids_bind (avoids_assert (.inr (by decide)))
      intro s _ s' _
      apply avoids_bind (avoids_assert (.inl ⟨hshort c.name List.mem_cons_self, hfit⟩))
      intro s _ s' _
      apply avoids_bind avoids_get
      intro s _ s' _
      apply avoids_bind derefInode_avoids
      intro s _ s' _
      apply avoids_bind (avoids_zoom searchDirEntry_avoids)
      intro s e s' _
      cases e with
      | none => exact avoids_pure _
      | some e =>
        apply avoids_bind hparse
        rintro s ⟨name, subPath⟩ s' hr
        obtain ⟨hrem, -⟩ := parseName_run hr
        dsimp only at hrem ⊢
        have hgo : ∀ (dir : DirRef) (prev last : UInt32), Avoids .overrun
            (go part fuel ⟨name, subPath, c.searchedPath ++ 47 :: c.name, dir, prev, last⟩) := by
          intro dir prev last
          apply ih
          . dsimp only
            rw [hrem, List.length_append, List.length_cons]
            omega
          . dsimp only
            rw [hrem]
            exact fun x hx => hshort x (List.mem_cons_of_mem _ hx)
        split
        . exact avoids_bind dirClose_avoids (fun _ _ _ _ =>
            avoids_bind dirOpen_avoids (fun _ _ _ _ => hgo _ _ _ _) _) _
        . split
          . exact avoids_pure _
          . exact hgo _ _ _ _

theorem searchFile_avoids (hpath : PassesAssertion p) (hshort : ∀ x ∈ components p, x.length < 16)
    : Avoids .overrun (searchFile part junk p) := by
  unfold searchFile
  split
  . exact avoids_pure
  . next hroot =>
    have hassert := hpath.resolve_left hroot
    have hjoin := length_joinPath_components hassert.1
    apply avoids_bind (avoids_assert (.inr (by decide)))
    intro s _ s' _
    apply avoids_bind
    . intro s
      obtain ⟨r, hr⟩ := @parseName_ok Fs s (some p) fun x hx =>
        Nat.le_of_lt (hshort x (List.mem_of_mem_head? hx))
      rw [hr]
      intro h
      contradiction
    . rintro s ⟨name, subPath⟩ s' hr
      obtain ⟨hrem, -⟩ := parseName_run hr
      rw [Option.getD_some] at hrem
      apply searchFile.go_avoids
      . dsimp only at hrem ⊢
        rw [hrem, List.length_nil]
        omega
      . dsimp only at hrem ⊢
        rw [hrem]
        exact hshort

end Search

/--
The components fit into the arrays if and only if the array of `path_depth_cnt` happens to hold a
NUL that no component reaches.
-/
theorem namesFit_iff (hpath : PassesAssertion path.chars)
    : NamesFit part s junk name path ↔ ∃ i < 16, name i = 0 ∧ ∀ c ∈ components path.chars,
        c.length ≤ i := by
  rw [← pathDepthCnt.terminated_iff path.nulFree (Nat.lt_succ_of_le length_components_le)]
  constructor
  . intro h
    exact h.terminated
  . intro h
    obtain ⟨i, hi, -, hle⟩ :=
      (pathDepthCnt.terminated_iff path.nulFree (Nat.lt_succ_of_le length_components_le)).mp h
    have hshort : ∀ c ∈ components path.chars, c.length < 16 := fun c hc =>
      Nat.lt_of_le_of_lt (hle c hc) hi
    obtain ⟨habs, hlen⟩ := hpath.absolute
    constructor
    . exact searchFile_avoids hpath hshort s
    . rw [washPath_ok habs hlen hshort]
      intro h
      contradiction
    . rw [pathDepthCnt_eq, if_pos fun c hc => Nat.le_of_lt (hshort c hc)]
      intro h
      contradiction
    . exact h

section Fixed

theorem namesFit_pathA : NamesFit smallPartition smallFs 7 Mem.zero pathA :=
  (namesFit_iff (.inr (by decide))).mpr ⟨1, by decide, rfl, by decide⟩

/-- No length of the path keeps a component of 17 characters in the arrays. -/
theorem not_namesFit_long
    : ¬ ∀ (part : Partition) (s : Fs) (junk : UInt32) (name : Mem) (path : CStr),
        PassesAssertion path.chars →
        NamesFit part s junk name path := by
  intro h
  let long : CStr := ⟨47 :: List.replicate 17 97, by decide⟩
  apply (h smallPartition smallFs 7 Mem.zero long (.inr (by decide))).depth
  rw [pathDepthCnt_eq, if_neg (by decide)]

end Fixed

end RogOS
