import RogOS.Memory.HeapSystem
import RogOS.Task.Lemmas.Fork

/-!
The heaps of a process and of a child that it forked. The child has copies of the user pages, while
both see the same kernel memory, in which the PCBs with the descriptors lie.
-/

namespace RogOS

def userEnv (allMem : UInt32) (pcb : Nat) : HeapEnv := ⟨allMem, false, pcb + Pcb.uBlockDesc⟩

def forkHeap (parent child : Nat) (pid : UInt16) (h : Heap) : Heap where
  mem := copyPcb child parent pid h.mem
  held := h.held

def parentView (user kernel : Mem) : Mem := fun a => if a < 0xc0000000 then user a else kernel a

abbrev UserReach (env : HeapEnv) (m : Mem) : HeapRun → Prop := HeapReach env 0x8048 0xc0000 m

def HeapRun.FreesOwn (pcb : Nat) (r : HeapRun) : HeapCall → Prop
  | .free ptr => r.heap.mem.word (block2arena ptr) = 0
    ∨ ∃ i < 7, (r.heap.mem.word (block2arena ptr)).toNat = pcb + Pcb.uBlockDesc + descSize * i
  | _ => True

/--
The heap of a process whose PCB is at `pcb`, those of its forebears being at `olds`: it began with
empty lists, or as the copy that its parent made. Between its calls, others may write to the memory
of the kernel but for its PCB.
-/
inductive Process (allMem : UInt32) : (olds : List Nat) → (pcb : Nat) → HeapRun → Prop
  | first {pcb : Nat} {m : Mem} (low : 0xc0000000 ≤ pcb) (high : pcb + 4096 ≤ 2 ^ 32)
    : Process allMem [] pcb ⟨Heap.init (pcb + Pcb.uBlockDesc) m, []⟩
  | fork {olds : List Nat} {parent child : Nat} {pid : UInt16} {r : HeapRun}
      (process : Process allMem olds parent r)
      (apart : ∀ old ∈ parent :: olds, Pcbs old child)
    : Process allMem (parent :: olds) child ⟨forkHeap parent child pid r.heap, r.live⟩
  | call {olds : List Nat} {pcb : Nat} {r r' : HeapRun} {call : HeapCall} {x : Nat}
      (process : Process allMem olds pcb r)
      (valid : r.Valid 0x8048 0xc0000 call) (own : r.FreesOwn pcb call)
      (run : (call.exec (userEnv allMem pcb)).run r = .ok (x, r'))
    : Process allMem olds pcb r'
  | others {olds : List Nat} {pcb : Nat} {r : HeapRun} {m' : Mem}
      (process : Process allMem olds pcb r)
      (same : ∀ a, a < 0xc0000000 ∨ pcb ≤ a ∧ a < pcb + 4096 → m' a = r.heap.mem a)
    : Process allMem olds pcb ⟨r.heap.setMem m', r.live⟩

structure HeapRun.Isolated (parent child : Nat) (pr r : HeapRun) : Prop where
  parentLists : ∀ i < 7,
    listElems (parentView pr.heap.mem r.heap.mem)
    (freeList (parent + Pcb.uBlockDesc + descSize * i))
    = listElems pr.heap.mem (freeList (parent + Pcb.uBlockDesc + descSize * i))
  childLists : ∀ i < 7,
    ∀ b ∈ listElems r.heap.mem (freeList (child + Pcb.uBlockDesc + descSize * i)),
    (r.heap.mem.word (block2arena b)).toNat = child + Pcb.uBlockDesc + descSize * i
      ∧ r.heap.held (b / 4096) = true

variable {parent child pcb D lo hi a i : Nat} {olds : List Nat} {allMem : UInt32} {pid : UInt16}
  {m m' : Mem} {h : Heap}
  {pr r r' : HeapRun} {K : Arenas} {F : Nat → Option Nat} {free : Nat → List Nat}
  {live : List (Nat × Nat)} {other : Nat → Prop}

section Fork

theorem place_pcb (low : 0xc0000000 ≤ pcb) (high : pcb + 4096 ≤ 2 ^ 32)
    : Place (pcb + Pcb.uBlockDesc) 0x8048 0xc0000 where
  descs := by
    unfold Pcb.uBlockDesc
    omega
  descsPos := by
    unfold Pcb.uBlockDesc
    omega
  descsEnd := by
    unfold Pcb.uBlockDesc
    omega
  lowest := by omega
  highest := by omega

theorem Pcbs.place (hp : Pcbs parent child)
    : Place (child + Pcb.uBlockDesc) 0x8048 0xc0000 := place_pcb hp.child_ge hp.child_le

theorem forkHeap_mem (ha : a < child ∨ child + 4096 ≤ a)
    : (forkHeap parent child pid h).mem a = h.mem a := by
  exact copyPcb_frame ha

def Arenas.larges (K : Arenas) : Arenas := fun q =>
  match K q with
  | some (.large cnt) => some (.large cnt)
  | _ => none

theorem Arenas.larges_eq_some {q : Nat} {A : Arena} (h : K.larges q = some A)
    : K q = some A ∧ ∃ cnt, A = .large cnt := by
  unfold Arenas.larges at h
  split at h
  . next cnt heq =>
    cases h
    exact ⟨heq, cnt, rfl⟩
  . contradiction

theorem Arenas.larges_of_large {q cnt : Nat} (h : K q = some (.large cnt))
    : K.larges q = some (.large cnt) := by
  unfold Arenas.larges
  rw [h]

theorem Arenas.larges_ne_small {q i : Nat} : K.larges q ≠ some (.small i) := by
  intro hq
  obtain ⟨-, cnt, heq⟩ := Arenas.larges_eq_some hq
  cases heq

def largeLive (K : Arenas) (live : List (Nat × Nat)) : List (Nat × Nat) :=
  live.filter fun b => (K.larges (b.1 / 4096)).isSome

def Arenas.inherit (K : Arenas) (F : Nat → Option Nat) : Nat → Option Nat := fun q =>
  match K q with
  | some (.small i) => some i
  | _ => F q

theorem Arenas.inherit_of_small {q : Nat} (h : K q = some (.small i)) : K.inherit F q = some i := by
  unfold Arenas.inherit
  rw [h]

theorem Arenas.inherit_cases {q : Nat} (h : K.inherit F q = some i)
    : K q = some (.small i) ∨ F q = some i := by
  unfold Arenas.inherit at h
  split at h
  . next j heq =>
    cases h
    exact .inl heq
  . exact .inr h

theorem Arenas.isSome_inherit {q : Nat}
    : (K.inherit F q).isSome = true ↔ (∃ i, K q = some (.small i)) ∨ (F q).isSome = true := by
  unfold Arenas.inherit
  split
  . next i heq => exact ⟨fun _ => .inl ⟨i, heq⟩, fun _ => rfl⟩
  . next hne =>
    constructor
    . exact .inr
    . rintro (⟨i, hi⟩ | hF)
      . exact absurd hi (hne i)
      . exact hF

def Inherited (F : Nat → Option Nat) (b : Nat × Nat) : Prop :=
  ∃ q i idx, F q = some i ∧ idx < blocksPerArena i ∧ b.1 = blockAt q i idx ∧ b.2 ≤ blockSize i

def OwnHeap (pcb : Nat) (F : Nat → Option Nat) (r : HeapRun) (K : Arenas) (free : Nat → List Nat)
    (own : List (Nat × Nat)) : Prop :=
  HeapInv (pcb + Pcb.uBlockDesc) 0x8048 0xc0000 (fun q => (F q).isSome = true) K free own r.heap
    ∧ (∀ q, K.Used own q)
    ∧ ∀ b ∈ r.live, b ∈ own ∨ Inherited F b

/--
What holds of a process that leaves the blocks of its forebears alone; `F` are the pages with such
blocks.
-/
structure Descends (olds : List Nat) (pcb : Nat) (F : Nat → Option Nat) (r : HeapRun) : Prop where
  own : ∃ K free live, OwnHeap pcb F r K free live
  header : ∀ q i, F q = some i → ∃ old ∈ olds, ∃ j < 7, r.heap.mem.word (4096 * q)
    = UInt32.ofNat (descAt (old + Pcb.uBlockDesc) j)
  range : ∀ q i, F q = some i → 0x8048 ≤ q ∧ q < 0xc0000

theorem Arenas.Ok.header_lt (hK : K.Ok 0x8048 0xc0000) {q k : Nat} {A : Arena} (hq : K q = some A)
    (hk : k < 12)
    : 4096 * q + k < 0xc0000000 := by
  have hr := hK.range q A hq
  have hpos := hK.pages q A hq
  omega

theorem heapInv_fork (hp : Pcbs parent child)
    (hinv : HeapInv (parent + Pcb.uBlockDesc) 0x8048 0xc0000 (fun q =>
      (F q).isSome = true) K free live h)
    : HeapInv (child + Pcb.uBlockDesc) 0x8048 0xc0000 (fun q =>
        (K.inherit F q).isSome = true) K.larges (fun _ => []) (largeLive K live)
        (forkHeap parent child pid h) := by
  have hK := hinv.ok
  have hchild := hp.child_ge
  have hlarges : Arenas.Ok K.larges 0x8048 0xc0000 := by
    refine ⟨?_, ?_, ?_, ?_⟩
    . exact fun q A hq => hK.range q A (Arenas.larges_eq_some hq).1
    . exact fun q q' A A' hq hq' =>
        hK.apart q q' A A' (Arenas.larges_eq_some hq).1 (Arenas.larges_eq_some hq').1
    . exact fun q i hq => hK.cls q i (Arenas.larges_eq_some hq).1
    . exact fun q A hq => hK.pages q A (Arenas.larges_eq_some hq).1
  refine ⟨hlarges, ?_, ?_, lists_init hp.place, ?_, ?_, ?_, ?_, ?_, ?_, ?_⟩
  . intro p
    rw [Arenas.isSome_inherit]
    apply (hinv.held p).trans
    constructor
    . rintro (⟨q, A, hq, h1, h2⟩ | hF)
      . cases A with
        | large cnt => exact .inl ⟨q, _, Arenas.larges_of_large hq, h1, h2⟩
        | small i =>
          right
          have hpq : p = q := by
            simp only [Arena.pages] at h2
            omega
          rw [hpq]
          exact .inl ⟨i, hq⟩
      . exact .inr (.inr hF)
    . rintro (⟨q, A, hq, h1, h2⟩ | ⟨i, hq⟩ | hF)
      . exact .inl ⟨q, A, (Arenas.larges_eq_some hq).1, h1, h2⟩
      . exact .inl ⟨p, _, hq, Nat.le_refl _, Nat.lt_succ_self _⟩
      . exact .inr hF
  . intro q A p hq h1 h2 hinherit
    rw [Arenas.isSome_inherit] at hinherit
    obtain ⟨hq, cnt, rfl⟩ := Arenas.larges_eq_some hq
    obtain ⟨i, hsmall⟩ | hF := hinherit
    . obtain heq | hlt : q = p ∨ q < p := by omega
      . rw [heq, hsmall] at hq
        cases hq
      . have := hK.apart q p _ _ hq hsmall hlt
        omega
    . exact hinv.foreign q _ p hq h1 h2 hF
  . intro q i hq
    exact absurd hq Arenas.larges_ne_small
  . intro q cnt hq
    obtain ⟨hq, -⟩ := Arenas.larges_eq_some hq
    exact (hinv.large q cnt hq).congr fun k hk =>
      forkHeap_mem (.inl (Nat.lt_of_lt_of_le (hK.header_lt hq hk) hchild))
  . intro i _ x hx
    contradiction
  . intro q i idx hq
    exact absurd hq Arenas.larges_ne_small
  . intro p s hmem
    obtain ⟨hmem, hlarge⟩ := List.mem_filter.mp hmem
    obtain ⟨A, hA⟩ := Option.isSome_iff_exists.mp hlarge
    obtain ⟨hA', cnt, rfl⟩ := Arenas.larges_eq_some hA
    cases hinv.fits p s hmem with
    | large arena size =>
      apply Fits.large (Arenas.larges_of_large arena) size
    | small arena idx_lt size =>
      dsimp only at hA'
      rw [blockAt_div idx_lt, arena] at hA'
      cases hA'
  . intro q cnt hq
    obtain ⟨hq', -⟩ := Arenas.larges_eq_some hq
    obtain ⟨b, hmem, heq⟩ := List.mem_map.mp (hinv.largePtr q cnt hq')
    refine List.mem_map.mpr ⟨b, List.mem_filter.mpr ⟨hmem, ?_⟩, heq⟩
    have hdiv : b.1 / 4096 = q := by omega
    rw [hdiv, hq]
    rfl
  . have hsub : (ptrs (largeLive K live)).Sublist (ptrs live) :=
      List.Sublist.map _ List.filter_sublist
    exact hinv.nodup.sublist hsub

theorem inherited_fork {b : Nat × Nat}
    (hinv : HeapInv D lo hi (fun q => (F q).isSome = true) K free live h)
    (hb : b ∈ live ∨ Inherited F b) : b ∈ largeLive K live ∨ Inherited (K.inherit F) b := by
  obtain hb | ⟨q, i, idx, hq, hidx, heq, hsize⟩ := hb
  . obtain ⟨p, s⟩ := b
    cases hinv.fits p s hb with
    | large arena size =>
      rename_i q cnt
      left
      refine List.mem_filter.mpr ⟨hb, ?_⟩
      have hdiv : (4096 * q + 12) / 4096 = q := by omega
      dsimp only
      rw [hdiv, Arenas.larges_of_large arena]
      rfl
    | small arena idx_lt size => exact .inr ⟨_, _, _, Arenas.inherit_of_small arena, idx_lt, rfl,
        size⟩
  . have hsame : K.inherit F q = F q := by
      unfold Arenas.inherit
      split
      . next j hsmall =>
        refine absurd ?_ (hinv.foreign q _ q hsmall (Nat.le_refl _) (Nat.lt_succ_self _))
        rw [hq]
        rfl
      . rfl
    exact .inr ⟨q, i, idx, hsame.trans hq, hidx, heq, hsize⟩

theorem OwnHeap.fork (pid : UInt16) (hp : Pcbs parent child) (hown : OwnHeap parent F r K free live)
    : OwnHeap child (K.inherit F) ⟨forkHeap parent child pid r.heap, r.live⟩ K.larges (fun _ =>
        []) (largeLive K live) := by
  obtain ⟨hinv, -, hlive⟩ := hown
  refine ⟨heapInv_fork hp hinv, ?_, ?_⟩
  . intro q i hq
    exact absurd hq Arenas.larges_ne_small
  . exact fun b hb => inherited_fork hinv (hlive b hb)

theorem Descends.fork (hr : Descends olds parent F r) (hp : Pcbs parent child)
    (hown : OwnHeap parent F r K free live)
    : Descends (parent :: olds) child (K.inherit F) ⟨forkHeap parent child pid r.heap, r.live⟩ := by
  have hinv := hown.1
  have hchild := hp.child_ge
  have hword : ∀ q, q < 0xc0000 → (forkHeap parent child pid r.heap).mem.word (4096 * q)
      = r.heap.mem.word (4096 * q) := by
    intro q hq
    apply Mem.word_congr
    intro k hk
    exact forkHeap_mem (by omega)
  constructor
  . exact ⟨_, _, _, hown.fork pid hp⟩
  . intro q i hq
    obtain hq | hq := Arenas.inherit_cases hq
    . have hr := hinv.ok.range q _ hq
      refine ⟨parent, List.mem_cons_self, i, hinv.ok.cls q i hq, ?_⟩
      simp only [Arena.pages] at hr
      exact (hword q (by omega)).trans (hinv.small q i hq).desc
    . obtain ⟨old, hold, j, hj, hdesc⟩ := hr.header q i hq
      refine ⟨old, List.mem_cons_of_mem _ hold, j, hj, ?_⟩
      exact (hword q (hr.range q i hq).2).trans hdesc
  . intro q i hq
    obtain hq | hq := Arenas.inherit_cases hq
    . have hr := hinv.ok.range q _ hq
      simp only [Arena.pages] at hr
      omega
    . exact hr.range q i hq

end Fork

section Steps

theorem HeapInv.store_foreign {b : UInt8} (hP : Place D lo hi)
    (hinv : HeapInv D lo hi other K free live h) (ha1 : 4096 * lo ≤ a) (ha2 : a < 4096 * hi)
    (ha : other (a / 4096))
    : HeapInv D lo hi other K free live (h.setMem (Function.update h.mem a b)) := by
  have hK := hinv.ok
  have hregion := hP.descs
  have hframe : a < 4096 * lo ∨ 4096 * hi ≤ a ∨ other (a / 4096) := .inr (.inr ha)
  have hsame : ∀ c, c ≠ a → Function.update h.mem a b c = h.mem c := fun c hc =>
    Function.update_of_ne hc _ _
  have hheader : ∀ q A, K q = some A → ∀ k < 12, Function.update h.mem a b (4096 * q + k)
      = h.mem (4096 * q + k) := by
    intro q A hq k hk
    apply hsame
    rintro rfl
    have hpos := hK.pages q A hq
    exact hK.not_frame hinv.foreign hq (by omega) (by omega) hframe
  have hlists : Lists D K free (Function.update h.mem a b) := by
    apply hinv.lists.of_bytes (S := fun c => c = a)
    . exact hsame
    . intro j hj k hk
      unfold descAt descSize
      omega
    . intro j hj x hx k hk heq
      have hs := @blockSize_ge j
      obtain ⟨hj7, hx'⟩ | ⟨q, idx, arena, hidx, rfl⟩ := ((hinv.lists.lists j hj).nodes x hx).cases
      . omega
      . have hb := blockAt_bounds (q := q) hidx
        apply hK.not_frame hinv.foreign arena _ _ hframe
        . omega
        . simp only [Arena.pages]
          omega
  exact ⟨hK, hinv.held, hinv.foreign, hlists, fun q j hq =>
    (hinv.small q j hq).congr (hheader q _ hq),
    fun q cnt hq => (hinv.large q cnt hq).congr (hheader q _ hq), hinv.unused, hinv.block,
      hinv.fits,
    hinv.largePtr, hinv.nodup⟩

def KeepsOlds (olds : List Nat) (F : Nat → Option Nat) (m m' : Mem) : Prop :=
  (∀ q i, F q = some i → m'.word (4096 * q) = m.word (4096 * q))
    ∧ ∀ old ∈ olds, ∀ a, old ≤ a → a < old + 4096 → m' a = m a

theorem HeapFrame.keepsOlds (hp : ∀ old ∈ olds, Pcbs old pcb) (hpcb : 0xc0000000 ≤ pcb)
    (hframe : HeapFrame (pcb + Pcb.uBlockDesc) 0x8048 0xc0000 (fun q => (F q).isSome = true) m m')
    (hrange : ∀ q i, F q = some i → 0x8048 ≤ q ∧ q < 0xc0000) : KeepsOlds olds F m m' := by
  unfold Pcb.uBlockDesc at hframe
  constructor
  . intro q i hq
    obtain ⟨h1, h2⟩ := hrange q i hq
    apply Mem.word_congr
    intro k hk
    apply hframe
    . omega
    . have hdiv : (4096 * q + k) / 4096 = q := by omega
      rw [hdiv]
      exact .inr (.inr (Option.isSome_iff_exists.mpr ⟨i, hq⟩))
  . intro old hold a ha1 ha2
    have hapart := (hp old hold).apart
    have hold := (hp old hold).parent_ge
    apply hframe
    . omega
    . omega

theorem KeepsOlds.store {b : UInt8} (hp : ∀ old ∈ olds, Pcbs old pcb) (ha : a < 0xc0000000)
    (hno : ∀ q i, F q = some i → a < 4096 * q ∨ 4096 * q + 4 ≤ a)
    : KeepsOlds olds F m (Function.update m a b) := by
  constructor
  . intro q i hq
    apply Mem.word_congr
    intro k hk
    have := hno q i hq
    exact Function.update_of_ne (by omega) _ _
  . intro old hold c hc _
    have hge := (hp old hold).parent_ge
    exact Function.update_of_ne (by omega) _ _

theorem Inherited.not_freesOwn {b : Nat × Nat} (hp : ∀ old ∈ olds, Pcbs old pcb)
    (hr : Descends olds pcb F r) (hb : Inherited F b)
    : ¬ r.FreesOwn pcb (.free b.1) := by
  obtain ⟨q, i, idx, hq, hidx, heq, -⟩ := hb
  obtain ⟨old, hold, j, hj, hdesc⟩ := hr.header q i hq
  have hapart := (hp old hold).apart
  have hnat : (r.heap.mem.word (block2arena b.1)).toNat = descAt (old + Pcb.uBlockDesc) j := by
    rw [heq, block2arena_blockAt hidx, hdesc, toNat_ofNat_desc (hp old hold).symm.place hj]
  unfold descAt descSize Pcb.uBlockDesc at hnat
  rintro (hzero | ⟨k, hk, hown⟩)
  . rw [hzero, UInt32.toNat_zero] at hnat
    omega
  . unfold descSize Pcb.uBlockDesc at hown
    omega

theorem Descends.keep {own : List (Nat × Nat)} (hr : Descends olds pcb F r)
    (hown : OwnHeap pcb F r' K free own)
    (hkeep : KeepsOlds olds F r.heap.mem r'.heap.mem) : Descends olds pcb F r' := by
  refine ⟨⟨K, free, own, hown⟩, ?_, hr.range⟩
  intro q i hq
  rw [hkeep.1 q i hq]
  exact hr.header q i hq

theorem OwnHeap.sysMalloc (allMem : UInt32) {K' : Arenas} {free' : Nat → List Nat}
    {own : List (Nat × Nat)} {grant : Option Nat} {size : UInt32} {p : Nat}
    (hown : OwnHeap pcb F r K free own)
    (hrun : ∃ h', (sysMalloc (userEnv allMem pcb) grant size).run r.heap = .ok (p, h')
      ∧ Granted (pcb + Pcb.uBlockDesc) 0x8048 0xc0000 (fun q =>
          (F q).isSome = true) K' free' own size.toNat p r.heap h')
    : ∃ r', ((HeapCall.malloc grant size).exec (userEnv allMem pcb)).run r = .ok (p, r')
        ∧ r'.live = (p, size.toNat) :: r.live
        ∧ OwnHeap pcb F r' K' free' ((p, size.toNat) :: own)
        ∧ HeapFrame (pcb + Pcb.uBlockDesc) 0x8048 0xc0000 (fun q =>
            (F q).isSome = true) r.heap.mem r'.heap.mem := by
  obtain ⟨h', hrun, hgranted⟩ := hrun
  refine ⟨_, malloc_exec hrun hgranted.pos, rfl, ⟨hgranted.inv, hgranted.used, ?_⟩, hgranted.frame⟩
  intro b hb
  obtain rfl | hb := List.mem_cons.mp hb
  . exact .inl List.mem_cons_self
  . exact (hown.2.2 b hb).imp_left (List.mem_cons_of_mem _)

theorem OwnHeap.sysFree (allMem : UInt32) {K' : Arenas} {free' : Nat → List Nat}
    {own : List (Nat × Nat)} {p : Nat} (hown : OwnHeap pcb F r K free own)
    (hrun : ∃ h', (sysFree (userEnv allMem pcb) p).run r.heap = .ok ((), h')
      ∧ Freed (pcb + Pcb.uBlockDesc) 0x8048 0xc0000 (fun q =>
          (F q).isSome = true) K' free' own p r.heap h')
    : ∃ r', ((HeapCall.free p).exec (userEnv allMem pcb)).run r = .ok (0, r')
        ∧ r'.live = without r.live p
        ∧ OwnHeap pcb F r' K' free' (without own p)
        ∧ HeapFrame (pcb + Pcb.uBlockDesc) 0x8048 0xc0000 (fun q =>
            (F q).isSome = true) r.heap.mem r'.heap.mem := by
  obtain ⟨h', hrun, hfreed⟩ := hrun
  refine ⟨_, free_exec hrun, rfl, ⟨hfreed.inv, hfreed.used, ?_⟩, hfreed.frame⟩
  intro b hb
  obtain ⟨hb, hne⟩ := mem_without.mp hb
  exact (hown.2.2 b hb).imp_left fun hb => mem_without.mpr ⟨hb, hne⟩

theorem Descends.step {call : HeapCall} {x : Nat} (hr : Descends olds pcb F r)
    (hlow : 0xc0000000 ≤ pcb) (hhigh : pcb + 4096 ≤ 2 ^ 32)
    (hp : ∀ old ∈ olds, Pcbs old pcb) (hvalid : r.Valid 0x8048 0xc0000 call)
    (hfrees : r.FreesOwn pcb call) (hrun : (call.exec (userEnv allMem pcb)).run r = .ok (x, r'))
    : Descends olds pcb F r' ∧ KeepsOlds olds F r.heap.mem r'.heap.mem := by
  obtain ⟨K, free, own, hinv, hused, hlive⟩ := hr.own
  have hP := place_pcb hlow hhigh
  -- the heap of the process is proved to be in order, and its forebears are left alone
  suffices hstep : (∃ K' free' own', OwnHeap pcb F r' K' free' own')
      ∧ KeepsOlds olds F r.heap.mem r'.heap.mem by
    obtain ⟨⟨K', free', own', hown⟩, hkeep⟩ := hstep
    exact ⟨hr.keep hown hkeep, hkeep⟩
  cases call with
  | malloc grant size =>
    have hrun1 := hrun
    simp only [HeapCall.exec, Cmd.bind_run, onHeap_run] at hrun1
    obtain ⟨ptr, r1, ⟨h1, hm, hr1⟩, h2⟩ := hrun1
    obtain ⟨hzero, heq⟩ | ⟨K1, free1, hgranted⟩ := sysMalloc_run hP rfl hinv hused hvalid hm
    . rw [if_neg (not_not.mpr hzero)] at h2
      rw [Cmd.pure_run] at h2
      cases h2
      rw [hr1, heq]
      exact ⟨⟨K, free, own, hinv, hused, hlive⟩, fun _ _ _ => rfl, fun _ _ _ _ _ => rfl⟩
    . obtain ⟨r2, hrun2, -, hown2, hframe⟩ :=
        OwnHeap.sysMalloc allMem ⟨hinv, hused, hlive⟩ ⟨h1, hm, hgranted⟩
      rw [hrun2, Except.ok.injEq, Prod.mk.injEq] at hrun
      rw [← hrun.2]
      exact ⟨⟨K1, free1, _, hown2⟩, hframe.keepsOlds hp hlow hr.range⟩
  | free ptr =>
    obtain ⟨b, hb, hptr⟩ := List.mem_map.mp hvalid
    have hown : ptr ∈ ptrs own := by
      obtain hb | hb := hlive b hb
      . exact List.mem_map.mpr ⟨b, hb, hptr⟩
      . rw [← hptr] at hfrees
        exact absurd hfrees (hb.not_freesOwn hp hr)
    have hkernel : (userEnv allMem pcb).kernel = true → 0xc0100 ≤ 0x8048 := by
      intro hk
      contradiction
    obtain ⟨K1, free1, hfreed⟩ := sysFree_run hP hkernel hinv hused hown
    obtain ⟨r2, hrun2, -, hown2, hframe⟩ := OwnHeap.sysFree allMem ⟨hinv, hused, hlive⟩ hfreed
    rw [hrun2, Except.ok.injEq, Prod.mk.injEq] at hrun
    rw [← hrun.2]
    exact ⟨⟨K1, free1, _, hown2⟩, hframe.keepsOlds hp hlow hr.range⟩
  | store addr byte =>
    obtain ⟨p, s, hmem, h1, h2⟩ := hvalid
    simp only [HeapCall.exec, modifyMem, Cmd.bind_run, onHeap_run, Cmd.modify_run,
      Cmd.pure_run] at hrun
    obtain ⟨_, _, ⟨h3, h4, h5⟩, h6⟩ := hrun
    cases h4
    cases h6
    rw [h5]
    obtain hmem | ⟨q, i, idx, hq, hidx, heq, hsize⟩ := hlive _ hmem
    . obtain ⟨q, A, hq, h3, -, h4⟩ := (hinv.fits p s hmem).arena
      have hrange := hinv.ok.range q A hq
      refine ⟨⟨K, free, own, hinv.store hP hmem h1 h2, hused, hlive⟩, .store hp (by omega) ?_⟩
      intro q' i hq'
      by_contra hin
      apply hinv.foreign q A q' hq
      . omega
      . omega
      . rw [hq']
        rfl
    . dsimp only at heq hsize
      have hb := blockAt_bounds (q := q) hidx
      obtain ⟨hlo, hhi⟩ := hr.range q i hq
      have hdiv : addr / 4096 = q := by omega
      refine ⟨⟨K, free, own, hinv.store_foreign hP ?_ ?_ ?_, hused, hlive⟩, .store hp ?_ ?_⟩
      . omega
      . omega
      . rw [hdiv, hq]
        rfl
      . omega
      . intro q' j hq'
        omega

theorem HeapInv.others
    (hinv : HeapInv (pcb + Pcb.uBlockDesc) 0x8048 0xc0000 other K free live h)
    (hsame : ∀ a, a < 0xc0000000 ∨ pcb ≤ a ∧ a < pcb + 4096 → m' a = h.mem a)
    : HeapInv (pcb + Pcb.uBlockDesc) 0x8048 0xc0000 other K free live (h.setMem m') := by
  have hK := hinv.ok
  have hheader : ∀ q A, K q = some A → ∀ k < 12, m' (4096 * q + k) = h.mem (4096 * q + k) :=
    fun q A hq k hk => hsame _ (.inl (hK.header_lt hq hk))
  have hlists : Lists (pcb + Pcb.uBlockDesc) K free m' := by
    apply hinv.lists.of_bytes (S := fun c => 0xc0000000 ≤ c ∧ (c < pcb ∨ pcb + 4096 ≤ c))
    . intro c hc
      exact hsame c (by omega)
    . intro j hj k hk
      unfold descAt descSize Pcb.uBlockDesc
      omega
    . intro j hj x hx k hk
      obtain ⟨hj7, hx'⟩ | ⟨q, idx, arena, hidx, rfl⟩ := ((hinv.lists.lists j hj).nodes x hx).cases
      . unfold Pcb.uBlockDesc at hx'
        omega
      . have hb := hK.block_bounds arena hidx
        have hs := @blockSize_ge j
        omega
  exact ⟨hK, hinv.held, hinv.foreign, hlists, fun q j hq =>
    (hinv.small q j hq).congr (hheader q _ hq),
    fun q cnt hq => (hinv.large q cnt hq).congr (hheader q _ hq), hinv.unused, hinv.block,
      hinv.fits,
    hinv.largePtr, hinv.nodup⟩

theorem Descends.others (hr : Descends olds pcb F r)
    (hsame : ∀ a, a < 0xc0000000 ∨ pcb ≤ a ∧ a < pcb + 4096 → m' a = r.heap.mem a)
    : Descends olds pcb F ⟨r.heap.setMem m', r.live⟩ := by
  obtain ⟨K, free, own, hinv, hused, hlive⟩ := hr.own
  refine ⟨⟨K, free, own, hinv.others hsame, hused, hlive⟩, ?_, hr.range⟩
  intro q i hq
  have hword : m'.word (4096 * q) = r.heap.mem.word (4096 * q) := by
    have hrange := hr.range q i hq
    apply Mem.word_congr
    intro k hk
    exact hsame _ (by omega)
  show ∃ old ∈ olds, ∃ j < 7, m'.word (4096 * q) = _
  rw [hword]
  exact hr.header q i hq

theorem ownHeap_first (hlow : 0xc0000000 ≤ pcb) (hhigh : pcb + 4096 ≤ 2 ^ 32)
    : OwnHeap pcb (fun _ => none) ⟨Heap.init (pcb + Pcb.uBlockDesc) m, []⟩ (fun _ => none) (fun _ =>
        []) [] := by
  refine ⟨?_, ?_, ?_⟩
  . have hinv := @heapInv_init _ _ _ m (place_pcb hlow hhigh)
    simpa using hinv
  . intro q i hq
    contradiction
  . intro b hb
    contradiction

theorem descends_first (hlow : 0xc0000000 ≤ pcb) (hhigh : pcb + 4096 ≤ 2 ^ 32)
    : Descends [] pcb (fun _ => none) ⟨Heap.init (pcb + Pcb.uBlockDesc) m, []⟩ := by
  refine ⟨⟨_, _, _, ownHeap_first hlow hhigh⟩, ?_, ?_⟩
  . intro q i hq
    contradiction
  . intro q i hq
    contradiction

theorem Process.descends (h : Process allMem olds pcb r)
    : (∃ F, Descends olds pcb F r) ∧ 0xc0000000 ≤ pcb ∧ pcb + 4096 ≤ 2 ^ 32 ∧ ∀ old ∈ olds,
        Pcbs old pcb := by
  induction h with
  | first low high => exact ⟨⟨_, descends_first low high⟩, low, high, fun old hold =>
      absurd hold List.not_mem_nil⟩
  | fork _ apart ih =>
    obtain ⟨⟨F, hr⟩, -⟩ := ih
    obtain ⟨K, free, live, hown⟩ := hr.own
    have hp := apart _ List.mem_cons_self
    exact ⟨⟨_, hr.fork hp hown⟩, hp.child_ge, hp.child_le, apart⟩
  | call _ valid own run ih =>
    obtain ⟨⟨F, hr⟩, hlow, hhigh, hp⟩ := ih
    exact ⟨⟨F, (hr.step hlow hhigh hp valid own run).1⟩, hlow, hhigh, hp⟩
  | others _ same ih =>
    obtain ⟨⟨F, hr⟩, hlow, hhigh, hp⟩ := ih
    exact ⟨⟨F, hr.others same⟩, hlow, hhigh, hp⟩

end Steps

section Isolation

theorem Descends.isolated {F' : Nat → Option Nat} {own : List (Nat × Nat)} (hp : Pcbs parent child)
    (hown : OwnHeap parent F pr K free own) (hr : Descends (parent :: olds) child F' r)
    (hpcb : ∀ a, parent ≤ a → a < parent + 4096 → r.heap.mem a = pr.heap.mem a)
    : HeapRun.Isolated parent child pr r := by
  obtain ⟨hinv, -, -⟩ := hown
  obtain ⟨K', free', own', hinv', -, -⟩ := hr.own
  have hparent := hp.parent_ge
  constructor
  . intro i hi
    have hlist := hinv.lists.lists i hi
    have hapart := @node_apart _ _ _ i _ hp.symm.place hinv.ok
    have hview : ListOf (Node (parent + Pcb.uBlockDesc) K i) (parentView pr.heap.mem r.heap.mem)
        (freeList (descAt (parent + Pcb.uBlockDesc) i)) (free i) := by
      apply hlist.of_words
      intro x hx
      have hbytes : ∀ k < 8, parentView pr.heap.mem r.heap.mem (x + k) = pr.heap.mem (x + k) := by
        intro k hk
        unfold parentView
        split
        . rfl
        . next hge =>
          apply hpcb
          . obtain ⟨hi7, hx'⟩ | ⟨q, idx, arena, hidx, rfl⟩ := (hlist.nodes x hx).cases
            . unfold Pcb.uBlockDesc at hx'
              omega
            . have hb := hinv.ok.block_bounds arena hidx
              have hs := @blockSize_ge i
              omega
          . obtain ⟨hi7, hx'⟩ | ⟨q, idx, arena, hidx, rfl⟩ := (hlist.nodes x hx).cases
            . unfold Pcb.uBlockDesc at hx'
              omega
            . have hb := hinv.ok.block_bounds arena hidx
              have hs := @blockSize_ge i
              omega
      constructor
      . exact Mem.word_congr fun k hk => hbytes k (by omega)
      . apply Mem.word_congr
        intro k hk
        rw [Nat.add_assoc]
        exact hbytes _ (by omega)
    exact (hview.listElems_eq hapart).trans (hlist.listElems_eq hapart).symm
  . intro i hi b hb
    have helems := (hinv'.lists.lists i hi).listElems_eq (node_apart hp.place hinv'.ok)
    have hb' : b ∈ free' i := by
      rw [← helems]
      exact hb
    obtain ⟨q, idx, arena, hidx, rfl⟩ := hinv'.lists.mem_block hi hb'
    constructor
    . rw [block2arena_blockAt hidx, (hinv'.small q i arena).desc]
      exact toNat_ofNat_desc hp.place hi
    . rw [blockAt_div hidx]
      exact (hinv'.held q).mpr (.inl ⟨q, _, arena, Nat.le_refl _, Nat.lt_succ_self _⟩)

abbrev ChildReach (allMem : UInt32) (parent child : Nat) (pid : UInt16) (pr : HeapRun)
    : HeapRun → Prop :=
  Cmd.Reach (HeapCall.exec (userEnv allMem child))
    (fun r call => r.Valid 0x8048 0xc0000 call ∧ r.FreesOwn child call)
    ⟨forkHeap parent child pid pr.heap, pr.live⟩

/-- The parent is any process, also one that was forked itself. -/
theorem heaps_isolated (hpr : Process allMem olds parent pr)
    (hp : ∀ old ∈ parent :: olds, Pcbs old child)
    (hr : ChildReach allMem parent child pid pr r) : HeapRun.Isolated parent child pr r := by
  obtain ⟨⟨F, hdescends⟩, -⟩ := hpr.descends
  obtain ⟨K, free, own, hown⟩ := hdescends.own
  have hparent := hp _ List.mem_cons_self
  have hchild : Descends (parent :: olds) child (K.inherit F) r
      ∧ ∀ a, parent ≤ a → a < parent + 4096 → r.heap.mem a = pr.heap.mem a := by
    apply Cmd.Reach.invariant (P := fun r => Descends (parent :: olds) child (K.inherit F) r
      ∧ ∀ a, parent ≤ a → a < parent + 4096 → r.heap.mem a = pr.heap.mem a) _ _ hr
    . intro r call x r' hci hvalid hrun
      obtain ⟨hdescends', hkeep⟩ :=
        hci.1.step hparent.child_ge hparent.child_le hp hvalid.1 hvalid.2 hrun
      exact ⟨hdescends', fun a h1 h2 =>
        (hkeep.2 _ List.mem_cons_self a h1 h2).trans (hci.2 a h1 h2)⟩
    . refine ⟨hdescends.fork hparent hown, ?_⟩
      intro a h1 h2
      have := hparent.apart
      exact forkHeap_mem (by omega)
  exact hchild.1.isolated hparent hown hchild.2

def forkingProcess : HeapRun :=
  Cmd.after ((HeapCall.malloc (some 0x8048) 1000).exec (userEnv 0x2000000 0xc0101000))
    ⟨Heap.init (0xc0101000 + Pcb.uBlockDesc) Mem.zero, []⟩

theorem userReach_forkingProcess
    : UserReach (userEnv 0x2000000 0xc0101000) Mem.zero forkingProcess := by
  obtain ⟨a, hrun, -⟩ :=
    Cmd.run_of_returns (x :=
      (HeapCall.malloc (some 0x8048) 1000).exec (userEnv 0x2000000 0xc0101000))
    (s := ⟨Heap.init (0xc0101000 + Pcb.uBlockDesc) Mem.zero, []⟩) (p := fun _ =>
      true) (by decide +kernel)
  refine Relation.ReflTransGen.single ⟨_, a, ?_, hrun⟩
  intro g hg
  cases hg
  refine ⟨Nat.le_refl _, ?_, fun _ _ => rfl⟩
  decide +kernel

def forkedChild (call : HeapCall) : HeapRun :=
  Cmd.after (call.exec (userEnv 0x2000000 0xc0102000))
    ⟨forkHeap 0xc0101000 0xc0102000 2 forkingProcess.heap, forkingProcess.live⟩

theorem Arenas.Clear.larges {p : Nat} (hK : K.Clear p) : K.larges.Clear p :=
  fun q A hq => hK q A (Arenas.larges_eq_some hq).1

theorem HeapInv.freesOwn_small {q idx : Nat} (hP : Place (pcb + Pcb.uBlockDesc) lo hi)
    (hinv : HeapInv (pcb + Pcb.uBlockDesc) lo hi other K free live r.heap)
    (arena : K q = some (.small i)) (hidx : idx < blocksPerArena i)
    : r.FreesOwn pcb (.free (blockAt q i idx)) := by
  have hcls := hinv.ok.cls q i arena
  refine .inr ⟨i, hcls, ?_⟩
  rw [block2arena_blockAt hidx, (hinv.small q i arena).desc]
  exact toNat_ofNat_desc hP hcls

theorem HeapInv.freesOwn_large {q cnt : Nat} (hinv : HeapInv D lo hi other K free live r.heap)
    (arena : K q = some (.large cnt))
    : r.FreesOwn pcb (.free (4096 * q + 12)) := by
  left
  have harena : block2arena (4096 * q + 12) = 4096 * q := by
    unfold block2arena
    omega
  rw [harena]
  exact (hinv.large q cnt arena).desc

theorem freesOwn_malloc {grant : Option Nat} {size : UInt32}
    : r.FreesOwn pcb (.malloc grant size) := trivial

theorem user_frees : (userEnv allMem pcb).kernel = true → 0xc0100 ≤ 0x8048 := by
  intro hk
  contradiction

theorem pcbs_forkedChild
    : Pcbs 0xc0101000 0xc0102000 := ⟨by decide, by decide, by decide, by decide, by decide⟩

theorem pcbs_grandchild : ∀ old ∈ [0xc0102000, 0xc0101000], Pcbs old 0xc0103000 := by
  intro old hold
  simp only [List.mem_cons, List.not_mem_nil, or_false] at hold
  obtain rfl | rfl := hold
  . exact ⟨by decide, by decide, by decide, by decide, by decide⟩
  . exact ⟨by decide, by decide, by decide, by decide, by decide⟩

theorem process_first
    : ∃ (r : HeapRun) (free : Nat → List Nat), Process 0x2000000 [] 0xc0101000 r
        ∧ OwnHeap 0xc0101000 (fun _ => none) r
            (Function.update (Function.update (fun _ => none) 0x8048 (some (.small 6))) 0x8049
              (some (.large 1))) free
            [(0x804900c, 2000), (0x804800c, 1000)]
        ∧ r.live = [(0x804900c, 2000), (0x804800c, 1000)] := by
  have hP := @place_pcb 0xc0101000 (by decide) (by decide)
  have h0 := @ownHeap_first 0xc0101000 Mem.zero (by decide) (by decide)
  have hf0 : FreshPages 0x8048 0xc0000 (Heap.init (0xc0101000 + Pcb.uBlockDesc) Mem.zero) 0x8048
      1 :=
    h0.1.fresh (by decide) (by decide) fun k _ => ⟨Arenas.clear_none, by simp⟩
  obtain ⟨r1, hrun1, hlive1, h1, -⟩ := h0.sysMalloc 0x2000000
    (sysMalloc_first 1000 (i := 6) hP rfl h0.1 h0.2.1 (by decide) (by decide) rfl rfl hf0)
  have hf1 : FreshPages 0x8048 0xc0000 r1.heap 0x8049 1 := by
    apply h1.1.fresh (by decide) (by decide)
    intro k hk
    refine ⟨Arenas.clear_none.insert ?_, by simp⟩
    simp only [Arena.pages]
    omega
  obtain ⟨r2, hrun2, hlive2, h2, -⟩ := h1.sysMalloc 0x2000000
    (sysMalloc_large 2000 hP h1.1 h1.2.1 (by decide) (by decide) (by decide) hf1)
  have hprocess1 : Process 0x2000000 [] 0xc0101000 r1 :=
    .call (.first (by decide) (by decide)) (by rintro g ⟨⟩; exact hf0) freesOwn_malloc hrun1
  refine ⟨r2, _, .call hprocess1 (by rintro g ⟨⟩; exact hf1) freesOwn_malloc hrun2, h2, ?_⟩
  rw [hlive2, hlive1]
  rfl

theorem process_child
    : ∃ (r : HeapRun) (F : Nat → Option Nat) (K : Arenas) (free : Nat → List Nat),
        Process 0x2000000 [0xc0101000] 0xc0102000 r
        ∧ OwnHeap 0xc0102000 F r (Function.update K 0x804a (some (.small 3))) free
            [(0x804a00c, 100), (0x804900c, 2000)]
        ∧ r.live = [(0x804a00c, 100), (0x804900c, 2000), (0x804800c, 1000)]
        ∧ K 0x8049 = some (.large 1) ∧ K 0x804b = none ∧ K.Clear 0x804b ∧ F 0x804b = none := by
  obtain ⟨r0, free0, hprocess0, hown0, hlive0⟩ := process_first
  have h0 := hown0.fork 2 pcbs_forkedChild
  have hlarge :
      largeLive (Function.update (Function.update (fun _ => none) 0x8048 (some (.small 6))) 0x8049
      (some (.large 1)))
      [(0x804900c, 2000), (0x804800c, 1000)] = [(0x804900c, 2000)] := by
    decide
  rw [hlarge] at h0
  have hclear : ∀ p, 0x804a ≤ p →
      Arenas.Clear (Function.update (Function.update (fun _ => none) 0x8048 (some (.small 6)))
        0x8049 (some (.large 1))) p := by
    intro p hp
    apply (Arenas.clear_none.insert _).insert
    . simp only [Arena.pages]
      omega
    . simp only [Arena.pages]
      omega
  have hf0 : FreshPages 0x8048 0xc0000 (forkHeap 0xc0101000 0xc0102000 2 r0.heap) 0x804a 1 := by
    apply h0.1.fresh (by decide) (by decide)
    intro k hk
    refine ⟨(hclear _ (by omega)).larges, ?_⟩
    rw [Nat.lt_one_iff.mp hk]
    decide
  obtain ⟨r1, hrun1, hlive1, h1, -⟩ := h0.sysMalloc 0x2000000
    (sysMalloc_first 100 (i := 3) pcbs_forkedChild.place rfl h0.1 h0.2.1 (by decide)
      (by decide) rfl rfl hf0)
  have hfork : ∀ old ∈ [0xc0101000], Pcbs old 0xc0102000 := by
    intro old hold
    rw [List.mem_singleton.mp hold]
    exact pcbs_forkedChild
  refine ⟨r1, _, _, _,
    .call (.fork hprocess0 hfork) (by rintro g ⟨⟩; exact hf0) freesOwn_malloc hrun1, h1, ?_, rfl,
    rfl, ?_, rfl⟩
  . rw [hlive1, hlive0]
    rfl
  . exact (hclear _ (by omega)).larges

theorem childReach_grandchild
    : ∃ pr r : HeapRun, Process 0x2000000 [0xc0101000] 0xc0102000 pr
        ∧ pr.live = [(0x804a00c, 100), (0x804900c, 2000), (0x804800c, 1000)]
        ∧ ChildReach 0x2000000 0xc0102000 0xc0103000 3 pr r
        ∧ r.live = [(0x804b20c, 500), (0x804a00c, 100), (0x804800c, 1000)] := by
  obtain ⟨pr, F, K, free, hprocess, hown, hlive, hlarge, hnone, hclear, hF⟩ := process_child
  have hpcbs := pcbs_grandchild _ List.mem_cons_self
  have hP := hpcbs.place
  have h0 := hown.fork 3 hpcbs
  have hsmall : Arenas.larges (Function.update K 0x804a (some (.small 3))) 0x804a = none := rfl
  have hlarge0 : Arenas.larges (Function.update K 0x804a (some (.small 3))) 0x8049
      = some (.large 1) := by
    apply Arenas.larges_of_large
    rw [Function.update_of_ne (by decide), hlarge]
  have hkeep : largeLive (Function.update K 0x804a (some (.small 3))) [(0x804a00c, 100),
      (0x804900c, 2000)] = [(0x804900c, 2000)] := by
    simp [largeLive, hsmall, hlarge0]
  rw [hkeep] at h0
  have hf0 : FreshPages 0x8048 0xc0000 (forkHeap 0xc0102000 0xc0103000 3 pr.heap) 0x804b 1 := by
    apply h0.1.fresh (by decide) (by decide)
    intro k hk
    rw [Nat.lt_one_iff.mp hk, Arenas.isSome_inherit, Function.update_of_ne (by decide), hnone, hF]
    refine ⟨(hclear.insert ?_).larges, by simp⟩
    simp only [Arena.pages]
    omega
  -- two blocks of one page
  obtain ⟨r1, hrun1, hlive1, h1, -⟩ := h0.sysMalloc 0x2000000
    (sysMalloc_first 500 (i := 5) hP rfl h0.1 h0.2.1 (by decide) (by decide) rfl rfl hf0)
  obtain ⟨r2, hrun2, hlive2, h2, -⟩ := h1.sysMalloc 0x2000000
    (sysMalloc_next none 500 (i := 5) (b := 0x804b20c) hP rfl h1.1 h1.2.1 (by decide)
      (by decide) rfl rfl)
  -- a block of the process, and one that it has from its forebears
  have hsmall2 : Function.update (Arenas.larges (Function.update K 0x804a (some (.small 3)))) 0x804b
      (some (.small 5)) 0x804b
      = some (.small 5) := Function.update_self _ _ _
  obtain ⟨r3, hrun3, hlive3, h3, -⟩ := h2.sysFree 0x2000000
    (sysFree_keep (q := 0x804b) (i := 5) 0 hP user_frees h2.1 h2.2.1 hsmall2 (by decide)
      (by simp [ptrs]) (by decide))
  have hlarge3 : Function.update (Arenas.larges (Function.update K 0x804a (some (.small 3)))) 0x804b
      (some (.small 5)) 0x8049
      = some (.large 1) := by
    rw [Function.update_of_ne (by decide), hlarge0]
  obtain ⟨r4, hrun4, hlive4, -⟩ := h3.sysFree 0x2000000
    (sysFree_large (q := 0x8049) hP user_frees h3.1 h3.2.1 hlarge3)
  refine ⟨pr, r4, hprocess, hlive, ?_, ?_⟩
  . have hreach1 : ChildReach 0x2000000 0xc0102000 0xc0103000 3 pr r1 :=
      .single ⟨_, _, ⟨by rintro g ⟨⟩; exact hf0, freesOwn_malloc⟩, hrun1⟩
    have hvalid2 : r1.Valid 0x8048 0xc0000 (.malloc none 500) := by
      intro g hg
      cases hg
    have hreach2 : ChildReach 0x2000000 0xc0102000 0xc0103000 3 pr r2 :=
      hreach1.tail ⟨_, _, ⟨hvalid2, freesOwn_malloc⟩, hrun2⟩
    have hvalid3 : r2.Valid 0x8048 0xc0000 (.free (blockAt 0x804b 5 0)) := by
      show blockAt 0x804b 5 0 ∈ ptrs r2.live
      rw [hlive2, hlive1]
      exact List.mem_cons_of_mem _ List.mem_cons_self
    have hreach3 : ChildReach 0x2000000 0xc0102000 0xc0103000 3 pr r3 :=
      hreach2.tail ⟨_, _, ⟨hvalid3, h2.1.freesOwn_small hP hsmall2 (by decide)⟩, hrun3⟩
    have hvalid4 : r3.Valid 0x8048 0xc0000 (.free (4096 * 0x8049 + 12)) := by
      show 4096 * 0x8049 + 12 ∈ ptrs r3.live
      rw [hlive3, hlive2, hlive1]
      dsimp only
      rw [hlive]
      decide
    exact hreach3.tail ⟨_, _, ⟨hvalid4, h3.1.freesOwn_large hlarge3⟩, hrun4⟩
  . rw [hlive4, hlive3, hlive2, hlive1]
    dsimp only
    rw [hlive]
    decide

theorem heaps_isolated_grandchild
    : ∃ pr r : HeapRun, Process 0x2000000 [0xc0101000] 0xc0102000 pr
        ∧ pr.live = [(0x804a00c, 100), (0x804900c, 2000), (0x804800c, 1000)]
        ∧ ChildReach 0x2000000 0xc0102000 0xc0103000 3 pr r
        ∧ r.live = [(0x804b20c, 500), (0x804a00c, 100), (0x804800c, 1000)]
        ∧ HeapRun.Isolated 0xc0102000 0xc0103000 pr r := by
  obtain ⟨pr, r, hprocess, hlive, hr, hlive'⟩ := childReach_grandchild
  exact ⟨pr, r, hprocess, hlive, hr, hlive', heaps_isolated hprocess pcbs_grandchild hr⟩

/--
The child frees the block: the arena of the parent loses its last block, and the list of the parent
is emptied.
-/
theorem not_heaps_isolated
    : ¬ ∀ (allMem : UInt32) (parent child : Nat) (pid : UInt16) (m : Mem) (pr r : HeapRun),
        Pcbs parent child →
        UserReach (userEnv allMem parent) m pr →
        Cmd.Reach (HeapCall.exec (userEnv allMem child)) (HeapRun.Valid 0x8048 0xc0000)
          ⟨forkHeap parent child pid pr.heap, pr.live⟩ r →
        HeapRun.Isolated parent child pr r := by
  intro hall
  obtain ⟨a, hrun, -⟩ :=
    Cmd.run_of_returns (x := (HeapCall.free 0x804800c).exec (userEnv 0x2000000 0xc0102000))
    (s := ⟨forkHeap 0xc0101000 0xc0102000 2 forkingProcess.heap, forkingProcess.live⟩) (p :=
      fun _ => true)
    (by decide +kernel)
  have hreach : Cmd.Reach (HeapCall.exec (userEnv 0x2000000 0xc0102000))
      (HeapRun.Valid 0x8048 0xc0000)
      ⟨forkHeap 0xc0101000 0xc0102000 2 forkingProcess.heap, forkingProcess.live⟩
        (forkedChild (.free 0x804800c)) := by
    refine Relation.ReflTransGen.single ⟨_, a, ?_, hrun⟩
    have hlive : 0x804800c ∈ ptrs forkingProcess.live := by decide +kernel
    exact hlive
  have hiso := hall _ _ _ _ _ _ _ pcbs_forkedChild userReach_forkingProcess hreach
  have hempty := (hiso.parentLists 6 (by decide)).symm
  have hlen :
      (listElems forkingProcess.heap.mem
      (freeList (0xc0101000 + Pcb.uBlockDesc + descSize * 6))).length = 2 := by
    decide +kernel
  rw [hempty] at hlen
  have hnil :
      (listElems (parentView forkingProcess.heap.mem (forkedChild (.free 0x804800c)).heap.mem)
      (freeList (0xc0101000 + Pcb.uBlockDesc + descSize * 6))).length = 0 := by
    decide +kernel
  omega

end Isolation

end RogOS
