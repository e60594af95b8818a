import RogOS.Memory.Lemmas.List
import RogOS.Task.Impl.Fork

/-!
Which bytes `sys_fork` writes to the PCBs.
-/

namespace RogOS

variable {parent child D a i k n idx x : Nat} {bs pid : UInt16} {m m' : Mem} {env : ForkEnv}

structure Pcbs (parent child : Nat) : Prop where
  parent_ge : 0xc0000000 ≤ parent
  parent_le : parent + 4096 ≤ 2 ^ 32
  child_ge : 0xc0000000 ≤ child
  child_le : child + 4096 ≤ 2 ^ 32
  apart : parent + 4096 ≤ child ∨ child + 4096 ≤ parent

theorem Pcbs.symm (hp : Pcbs parent child) : Pcbs child parent :=
  ⟨hp.child_ge, hp.child_le, hp.parent_ge, hp.parent_le, hp.apart.symm⟩

section CopyPcb

theorem blockDescInit_go_frame (hn : idx + n = 7) (ha : a < D ∨ D + 168 ≤ a)
    : blockDescInit.go D n idx bs m a = m a := by
  induction n generalizing idx bs m with
  | zero => rfl
  | succ n ih =>
    rw [blockDescInit.go, ih (by omega)]
    unfold listInit listTail freeList descSize
    rw [Mem.setWord_of_not_mem (by omega), Mem.setWord_of_not_mem (by omega),
      Mem.setWord_of_not_mem (by omega), Mem.setWord_of_not_mem (by omega),
      Mem.setWord_of_not_mem (by omega), Mem.setWord_of_not_mem (by omega)]

theorem copyPcb_apply (ha : a < child + 4 ∨ child + 268 ≤ a)
    : copyPcb child parent pid m a = (m.blit child 4096 (m.shift parent)) a := by
  unfold copyPcb Pcb.uBlockDesc Pcb.pid Pcb.elapsedTicks Pcb.status Pcb.ticks Pcb.parentPid
    Pcb.generalTag Pcb.allListTag
  rw [blockDescInit, blockDescInit_go_frame (Nat.zero_add 7) (by omega),
    Mem.setWord_of_not_mem (by omega), Mem.setWord_of_not_mem (by omega),
    Mem.setWord_of_not_mem (by omega), Mem.setWord_of_not_mem (by omega),
    Mem.setHalf_of_not_mem (by omega), Function.update_of_ne (by omega),
    Mem.setWord_of_not_mem (by omega), Mem.setWord_of_not_mem (by omega),
    Mem.setHalf_of_not_mem (by omega)]

theorem copyPcb_frame (ha : a < child ∨ child + 4096 ≤ a) : copyPcb child parent pid m a = m a := by
  rw [copyPcb_apply (by omega), Mem.blit_of_not_mem ha]

theorem copyPcb_stack (h1 : 268 ≤ k) (h2 : k < 4096)
    : copyPcb child parent pid m (child + k) = m (parent + k) := by
  rw [copyPcb_apply (by omega), Mem.blit_of_mem (by omega) (by omega), Mem.shift_apply,
    Nat.add_sub_cancel_left]

theorem copyPcb_pid : (copyPcb child parent pid m).half (child + Pcb.pid) = pid := by
  apply (Mem.half_congr _).trans (@Mem.half_setHalf_self (m.blit child 4096 (m.shift parent))
    (child + Pcb.pid) pid)
  intro i hi
  unfold copyPcb Pcb.uBlockDesc Pcb.pid Pcb.elapsedTicks Pcb.status Pcb.ticks Pcb.parentPid
    Pcb.generalTag Pcb.allListTag
  rw [blockDescInit, blockDescInit_go_frame (Nat.zero_add 7) (by omega),
    Mem.setWord_of_not_mem (by omega), Mem.setWord_of_not_mem (by omega),
    Mem.setWord_of_not_mem (by omega), Mem.setWord_of_not_mem (by omega),
    Mem.setHalf_of_not_mem (by omega), Function.update_of_ne (by omega),
    Mem.setWord_of_not_mem (by omega), Mem.setWord_of_not_mem (by omega)]

end CopyPcb

section SysFork

structure ForkPages (env : ForkEnv) (parent child : Nat) : Prop extends Pcbs parent child where
  bitmap_child : env.vaddrBtmp + bitmapPgCnt * 4096 ≤ child ∨ child + 4096 ≤ env.vaddrBtmp
  bitmap_parent : env.vaddrBtmp + bitmapPgCnt * 4096 ≤ parent ∨ parent + 4096 ≤ env.vaddrBtmp

structure TagOk (env : ForkEnv) (parent child x : Nat) : Prop where
  child : x + 8 ≤ child ∨ child + 4096 ≤ x
  bitmap : x + 8 ≤ env.vaddrBtmp ∨ env.vaddrBtmp + bitmapPgCnt * 4096 ≤ x
  stack : x + 8 ≤ parent + 276 ∨ parent + 4096 ≤ x

structure TaskLists (env : ForkEnv) (parent child : Nat) (R A : Nat → Prop) (ready all : List Nat)
    (m : Mem) : Prop where
  ready : ListOf R m env.readyList ready
  all : ListOf A m env.allList all
  apart : Mem.Apart fun x => R x ∨ A x
  disjoint : ∀ x, R x → ¬ A x
  ok : ∀ x, R x ∨ A x → TagOk env parent child x

structure Forked (env : ForkEnv) (parent child : Nat) (m m' : Mem) : Prop where
  kstack : m'.word child = UInt32.ofNat (child + 4000)
  saved : ∀ i < 4, m'.word (child + 4000 + 4 * i) = 0
  ret : m'.word (child + 4016) = env.intrExit
  eax : m'.word (child + 4052) = 0
  frame : ∀ k, 4020 ≤ k → k < 4096 → k < 4052 ∨ 4056 ≤ k → m' (child + k) = m (parent + k)
  parent : ∀ k, 276 ≤ k → k < 4096 → m' (parent + k) = m (parent + k)
  pid : m'.half (child + Pcb.pid) = env.pid

theorem copyPcbVaddrbitmapStack0_run (hp : ForkPages env parent child) {u : Unit}
    (hrun : (copyPcbVaddrbitmapStack0 child parent env.pid env.vaddrBtmp).run m = .ok (u, m'))
    : (∀ k, 268 ≤ k → k < 4096 → m' (child + k) = m (parent + k)) ∧ m'.half (child + Pcb.pid)
        = env.pid
      ∧ ∀ a, (a < child ∨ child + 4096 ≤ a)
          → (a < env.vaddrBtmp ∨ env.vaddrBtmp + bitmapPgCnt * 4096 ≤ a) →
          m' a = m a := by
  have hbc := hp.bitmap_child
  simp only [copyPcbVaddrbitmapStack0, Cmd.bind_run, Cmd.modify_run, Cmd.get_run] at hrun
  obtain ⟨_, m1, h1, _, m2, h2, _, m3, h3, _, _, h4, h5⟩ := hrun
  cases h1
  cases h2
  cases h3
  cases h4
  split at h5
  . exact absurd h5 Cmd.throw_run
  . next len hlen =>
    rw [Cmd.modify_run] at h5
    cases h5
    have hlen' : len < 11 := List.mem_range.mp (List.mem_of_find?_eq_some hlen)
    -- behind the assignments of `copy_pcb` only `bits`, `name` and the bitmap are written to
    have hrest : ∀ a, (a < child + 12 ∨ child + 96 ≤ a)
        → (a < env.vaddrBtmp ∨ env.vaddrBtmp + bitmapPgCnt * 4096 ≤ a) →
        strcatFork (((copyPcb child parent env.pid m).blit env.vaddrBtmp (bitmapPgCnt * 4096)
            (Mem.shift (copyPcb child parent env.pid m)
              ((copyPcb child parent env.pid m).word (child + Pcb.bits)).toNat)).setWord
                (child + Pcb.bits)
            (UInt32.ofNat env.vaddrBtmp)) (child + Pcb.name) len a
          = copyPcb child parent env.pid m a := by
      intro a h1 h2
      unfold strcatFork Pcb.name Pcb.bits
      rw [Mem.blit_of_not_mem (by omega), Mem.setWord_of_not_mem (by omega),
        Mem.blit_of_not_mem (by omega)]
    refine ⟨?_, ?_, ?_⟩
    . intro k hk1 hk2
      rw [hrest _ (by omega) (by omega)]
      exact copyPcb_stack hk1 hk2
    . apply (Mem.half_congr _).trans (@copyPcb_pid parent child env.pid m)
      intro i hi
      unfold Pcb.pid
      exact hrest _ (by omega) (by omega)
    . intro a h1 h2
      rw [hrest a (by omega) h2]
      exact copyPcb_frame h1

theorem buildChildStack_frame {intrExit : UInt32} (h1 : a < child ∨ child + 4 ≤ a)
    (h2 : a < child + 4000 ∨ child + 4020 ≤ a) (h3 : a < child + 4052 ∨ child + 4056 ≤ a)
    : buildChildStack child intrExit m a = m a := by
  unfold buildChildStack intrStackSize
  rw [Mem.setWord_of_not_mem (by omega), Mem.setWord_of_not_mem (by omega),
    Mem.setWord_of_not_mem (by omega), Mem.setWord_of_not_mem (by omega),
    Mem.setWord_of_not_mem (by omega), Mem.setWord_of_not_mem (by omega),
    Mem.setWord_of_not_mem (by omega)]

theorem buildChildStack_words {intrExit : UInt32}
    : (buildChildStack child intrExit m).word child = UInt32.ofNat (child + 4000)
      ∧ (∀ i < 4, (buildChildStack child intrExit m).word (child + 4000 + 4 * i) = 0)
      ∧ (buildChildStack child intrExit m).word (child + 4016) = intrExit
      ∧ (buildChildStack child intrExit m).word (child + 4052) = 0 := by
  have h1 : child + 4096 - 76 + 32 = child + 4052 := by omega
  have h2 : child + 4096 - 76 - 4 = child + 4016 := by omega
  have h3 : child + 4096 - 76 - 8 = child + 4012 := by omega
  have h4 : child + 4096 - 76 - 12 = child + 4008 := by omega
  have h5 : child + 4096 - 76 - 16 = child + 4004 := by omega
  have h6 : child + 4096 - 76 - 20 = child + 4000 := by omega
  unfold buildChildStack intrStackSize
  dsimp only
  rw [h1, h2, h3, h4, h5, h6]
  refine ⟨Mem.word_setWord_self, ?_, ?_, ?_⟩
  . intro i hi
    rw [Mem.word_setWord_of_disjoint (by omega)]
    interval_cases i
    . exact Mem.word_setWord_self
    . rw [Mem.word_setWord_of_disjoint (by omega)]
      exact Mem.word_setWord_self
    . rw [Mem.word_setWord_of_disjoint (by omega), Mem.word_setWord_of_disjoint (by omega)]
      exact Mem.word_setWord_self
    . rw [Mem.word_setWord_of_disjoint (by omega), Mem.word_setWord_of_disjoint (by omega),
        Mem.word_setWord_of_disjoint (by omega)]
      exact Mem.word_setWord_self
  . rw [Mem.word_setWord_of_disjoint (by omega), Mem.word_setWord_of_disjoint (by omega),
      Mem.word_setWord_of_disjoint (by omega), Mem.word_setWord_of_disjoint (by omega),
      Mem.word_setWord_of_disjoint (by omega)]
    exact Mem.word_setWord_self
  . rw [Mem.word_setWord_of_disjoint (by omega), Mem.word_setWord_of_disjoint (by omega),
      Mem.word_setWord_of_disjoint (by omega), Mem.word_setWord_of_disjoint (by omega),
      Mem.word_setWord_of_disjoint (by omega), Mem.word_setWord_of_disjoint (by omega)]
    exact Mem.word_setWord_self

theorem appendTag_run {S : Nat → Prop} {list : Nat} {l : List Nat} {u : Unit} (hS : Mem.Apart S)
    (hlist : ListOf S m list l) (hx : ∀ y, S y → y + 8 ≤ x ∨ x + 8 ≤ y) (hbound : x + 8 ≤ 2 ^ 32)
    (hrun : (appendTag list x).run m = .ok (u, m')) : Mem.SameOff (fun y => S y ∨ y = x) m m' := by
  simp only [appendTag, Cmd.bind_run, Cmd.get_run] at hrun
  obtain ⟨_, _, h1, h2⟩ := hrun
  cases h1
  split at h2
  . exact absurd h2 Cmd.throw_run
  . simp only [Cmd.bind_run, Cmd.assert_run, Cmd.modify_run] at h2
    obtain ⟨_, _, ⟨-, h3⟩, h4⟩ := h2
    cases h3
    cases h4
    have hS' : Mem.Apart fun y => S y ∨ y = x := by
      constructor
      . rintro y z (hy | rfl) (hz | rfl) hne
        . exact hS.apart y z hy hz hne
        . exact hx y hy
        . exact (hx z hz).symm
        . exact absurd rfl hne
      . rintro y (hy | rfl)
        . exact hS.bound y hy
        . exact hbound
    have ht : S (listTail list) := hlist.nodes _ (by simp)
    have hprev : S (m.links.prev (listTail list)) := by
      apply hlist.nodes
      rw [← List.cons_append]
      exact List.mem_append_left _ hlist.chain.prev_mem
    apply listInsertBefore_sameOff hS' (.inl ht) (.inr rfl) (.inl hprev)
    rintro rfl
    have := hx _ ht
    omega

theorem ListOf.of_bytes {S : Nat → Prop} {list : Nat} {l : List Nat} (h : ListOf S m list l)
    (hsame : ∀ x, S x → ∀ k < 8, m' (x + k) = m (x + k)) : ListOf S m' list l := by
  apply h.of_words
  intro x hx
  constructor
  . exact Mem.word_congr fun k hk => hsame x (h.nodes x hx) k (by omega)
  . apply Mem.word_congr
    intro k hk
    rw [Nat.add_assoc]
    exact hsame x (h.nodes x hx) _ (by omega)

theorem TaskLists.congr {R A : Nat → Prop} {ready all : List Nat}
    (hl : TaskLists env parent child R A ready all m)
    (hsame : ∀ a, (a < child ∨ child + 4096 ≤ a)
      → (a < env.vaddrBtmp ∨ env.vaddrBtmp + bitmapPgCnt * 4096 ≤ a) → m' a = m a)
    : TaskLists env parent child R A ready all m' := by
  have hnodes : ∀ x, R x ∨ A x → ∀ k < 8, m' (x + k) = m (x + k) := by
    intro x hx k hk
    have hok := hl.ok x hx
    have h1 := hok.child
    have h2 := hok.bitmap
    exact hsame _ (by omega) (by omega)
  exact {
    ready := hl.ready.of_bytes fun x hx => hnodes x (.inl hx)
    all := hl.all.of_bytes fun x hx => hnodes x (.inr hx)
    apart := hl.apart
    disjoint := hl.disjoint
    ok := hl.ok }

/-- The new task gets into the two lists, which are not on the stacks. -/
theorem appendTags_run {R A : Nat → Prop} {ready all : List Nat} {u u' : Unit} {m1 : Mem}
    (hle : child + 4096 ≤ 2 ^ 32) (hl : TaskLists env parent child R A ready all m)
    (h1 : (appendTag env.readyList (child + 68)).run m = .ok (u, m1))
    (h2 : (appendTag env.allList (child + 76)).run m1 = .ok (u', m'))
    {a : Nat} (ha : ∀ x, R x ∨ A x → a < x ∨ x + 8 ≤ a) (ha' : a < child + 68 ∨ child + 84 ≤ a)
    : m' a = m a := by
  have htag : ∀ x, R x ∨ A x → ∀ k, 60 ≤ k → k ≤ 80 → x + 8 ≤ child + k ∨ child + k + 8 ≤ x := by
    intro x hx k _ _
    have := (hl.ok x hx).child
    omega
  have hR : Mem.Apart R := hl.apart.mono fun x hx => .inl hx
  have hA : Mem.Apart A := hl.apart.mono fun x hx => .inr hx
  have hoff1 := appendTag_run hR hl.ready (fun y hy => htag y (.inl hy) 68 (by omega) (by omega))
    (by omega) h1
  have hall : ListOf A m1 env.allList all := by
    apply hl.all.of_bytes
    intro x hx k hk
    refine hoff1 (x + k) ?_
    rintro y (hy | rfl)
    . have hne : y ≠ x := by
        rintro rfl
        exact hl.disjoint y hy hx
      have := hl.apart.apart y x (.inl hy) (.inr hx) hne
      omega
    . have := htag x (.inr hx) 68 (by omega) (by omega)
      omega
  have hoff2 := appendTag_run hA hall (fun y hy => htag y (.inr hy) 76 (by omega) (by omega))
    (by omega) h2
  rw [hoff2 a, hoff1 a]
  . rintro y (hy | rfl)
    . exact ha y (.inl hy)
    . omega
  . rintro y (hy | rfl)
    . exact ha y (.inr hy)
    . omega

theorem sysFork_run {R A : Nat → Prop} {ready all : List Nat} {v : UInt16}
    (hp : ForkPages env parent child) (hl : TaskLists env parent child R A ready all m)
    (hrun : (sysFork child parent env).run m = .ok (v, m'))
    : v = env.pid ∧ Forked env parent child m m' := by
  simp only [sysFork, Cmd.bind_run, Cmd.modify_run, Cmd.get_run, Cmd.pure_run] at hrun
  obtain ⟨_, m1, h1, _, m2, h2, _, m3, h3, _, m4, h4, _, _, h5, _, _, h6, h7⟩ := hrun
  cases h2
  cases h3
  cases h6
  rw [Prod.mk.injEq] at h7
  obtain ⟨hv, rfl⟩ := h7
  obtain ⟨hstack, hpid, hframe⟩ := copyPcbVaddrbitmapStack0_run hp h1
  obtain ⟨hw1, hw2, hw3, hw4⟩ :=
    @buildChildStack_words child (m1.setWord (child + Pcb.pgdir) (UInt32.ofNat env.pgdir))
    env.intrExit
  generalize hm3 : buildChildStack child env.intrExit
      (m1.setWord (child + Pcb.pgdir) (UInt32.ofNat env.pgdir)) = m3 at h4 hw1 hw2 hw3 hw4
  have hcopied : ∀ a, (a < child ∨ child + 4 ≤ a) → (a < child + 84 ∨ child + 88 ≤ a)
      → (a < child + 4000 ∨ child + 4020 ≤ a) → (a < child + 4052 ∨ child + 4056 ≤ a)
      → m3 a = m1 a := by
    intro a ha1 ha2 ha3 ha4
    rw [← hm3, buildChildStack_frame ha1 ha3 ha4]
    unfold Pcb.pgdir
    exact Mem.setWord_of_not_mem ha2
  -- outside of the new pages nothing has happened yet
  have hbefore : ∀ a, (a < child ∨ child + 4096 ≤ a)
      → (a < env.vaddrBtmp ∨ env.vaddrBtmp + bitmapPgCnt * 4096 ≤ a) → m3 a = m a := by
    intro a ha1 ha2
    rw [hcopied a (by omega) (by omega) (by omega) (by omega)]
    exact hframe a ha1 ha2
  unfold Pcb.generalTag at h4
  unfold Pcb.allListTag at h5
  have hlists : ∀ a, (∀ x, R x ∨ A x → a < x ∨ x + 8 ≤ a) → (a < child + 68 ∨ child + 84 ≤ a)
      → m' a = m3 a :=
    fun a => appendTags_run hp.child_le (hl.congr hbefore) h4 h5
  have hchild : ∀ k, k < 68 ∨ 84 ≤ k → k < 4096 → m' (child + k) = m3 (child + k) := by
    intro k hk1 hk2
    apply hlists
    . intro x hx
      have := (hl.ok x hx).child
      omega
    . omega
  have hchildWord : ∀ k, k + 4 ≤ 68 ∨ 84 ≤ k → k + 4 ≤ 4096 → m'.word (child + k)
      = m3.word (child + k) := by
    intro k hk1 hk2
    apply Mem.word_congr
    intro i hi
    rw [Nat.add_assoc]
    exact hchild _ (by omega) (by omega)
  have hpid5 : m'.half (child + Pcb.pid) = env.pid := by
    rw [← hpid]
    apply Mem.half_congr
    intro i hi
    unfold Pcb.pid
    rw [Nat.add_assoc, hchild _ (by omega) (by omega),
      hcopied _ (by omega) (by omega) (by omega) (by omega)]
  refine ⟨hv.trans hpid5, ?_, ?_, ?_, ?_, ?_, ?_, hpid5⟩
  . exact (hchildWord 0 (by omega) (by omega)).trans hw1
  . intro i hi
    rw [Nat.add_assoc, hchildWord _ (by omega) (by omega), ← Nat.add_assoc]
    exact hw2 i hi
  . rw [hchildWord _ (by omega) (by omega)]
    exact hw3
  . rw [hchildWord _ (by omega) (by omega)]
    exact hw4
  . intro k hk1 hk2 hk3
    rw [hchild k (by omega) hk2, hcopied _ (by omega) (by omega) (by omega) (by omega)]
    exact hstack k (by omega) hk2
  . intro k hk1 hk2
    have happ := hp.apart
    have hbp := hp.bitmap_parent
    rw [hlists, hbefore]
    . omega
    . omega
    . intro x hx
      have := (hl.ok x hx).stack
      omega
    . omega

end SysFork

end RogOS
