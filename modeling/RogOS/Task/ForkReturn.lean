import RogOS.Task.Impl.Cpu
import RogOS.Task.Lemmas.Fork

/-!
`fork` returns twice: what `syscall_handler` saves is what `intr_exit` restores, in the parent and
in the child.
-/

namespace RogOS

variable {parent child top base k : Nat} {c : Cpu} {m m' : Mem} {env : ForkEnv} {user kernel : Regs}

section Stack

theorem UInt32.ofNat_sub_four {n : Nat} (h : 4 ≤ n)
    : UInt32.ofNat n - 4 = UInt32.ofNat (n - 4) := by
  rw [UInt32.ofNat_sub h]
  rfl

theorem foldl_push {vs : List UInt32} (hesp : c.esp = UInt32.ofNat top) (hlen : 4 * vs.length ≤ top)
    (htop : top ≤ 2 ^ 32)
    : (vs.foldl Cpu.push c).esp = UInt32.ofNat (top - 4 * vs.length)
      ∧ (∀ i (hi : i < vs.length), (vs.foldl Cpu.push c).mem.word (top - 4 * (i + 1)) = vs[i])
      ∧ ∀ a, (a < top - 4 * vs.length ∨ top ≤ a) → (vs.foldl Cpu.push c).mem a = c.mem a := by
  induction vs generalizing c top with
  | nil =>
    refine ⟨hesp, ?_, fun _ _ => rfl⟩
    intro i hi
    contradiction
  | cons v vs ih =>
    rw [List.length_cons] at hlen
    have hesp' : (c.push v).esp = UInt32.ofNat (top - 4) := by
      rw [← UInt32.ofNat_sub_four (by omega), ← hesp]
      rfl
    have haddr : (c.esp - 4).toNat = top - 4 := by
      rw [hesp, UInt32.ofNat_sub_four (by omega), UInt32.toNat_ofNat']
      omega
    have hmem : (c.push v).mem = c.mem.setWord (top - 4) v := by
      rw [← haddr]
      rfl
    obtain ⟨h1, h2, h3⟩ := ih hesp' (by omega) (by omega)
    rw [List.foldl_cons]
    refine ⟨?_, ?_, ?_⟩
    . rw [h1, List.length_cons]
      congr 1
      omega
    . intro i hi
      cases i with
      | zero =>
        rw [List.getElem_cons_zero]
        have hword : ((c.push v).mem).word (top - 4) = v := by
          rw [hmem]
          exact Mem.word_setWord_self
        refine Eq.trans (Mem.word_congr ?_) hword
        intro j hj
        exact h3 (top - 4 + j) (by omega)
      | succ i =>
        rw [List.getElem_cons_succ, ← h2 i (by simpa using hi)]
        congr 1
        omega
    . intro a ha
      rw [List.length_cons] at ha
      rw [h3 a (by omega), hmem, Mem.setWord_of_not_mem (by omega)]

end Stack

section Frame

def Regs.ofIntrStack (m : Mem) (base : Nat) : Regs where
  gpr
    | .edi => m.word (base + 4)
    | .esi => m.word (base + 8)
    | .ebp => m.word (base + 12)
    | .ebx => m.word (base + 20)
    | .edx => m.word (base + 24)
    | .ecx => m.word (base + 28)
    | .eax => m.word (base + 32)
    | .esp => m.word (base + 68)
  seg
    | .gs => (m.word (base + 36)).toUInt16
    | .fs => (m.word (base + 40)).toUInt16
    | .es => (m.word (base + 44)).toUInt16
    | .ds => (m.word (base + 48)).toUInt16
  eip := m.word (base + 56)
  cs := (m.word (base + 60)).toUInt16
  eflags := m.word (base + 64)
  ss := (m.word (base + 72)).toUInt16

theorem intrExit_regs (hesp : c.esp = UInt32.ofNat base) (hbase : base + 76 ≤ 2 ^ 32)
    : (c.run intrExit).regs = Regs.ofIntrStack c.mem base := by
  have hword : ∀ n < 73, c.mem.word (UInt32.ofNat (base + n)).toNat = c.mem.word (base + n) := by
    intro n hn
    rw [UInt32.toNat_ofNat', Nat.mod_eq_of_lt (by omega)]
  have hadd : ∀ n, UInt32.ofNat (base + n) + 4 = UInt32.ofNat (base + (n + 4)) := by
    intro n
    rw [← Nat.add_assoc, UInt32.ofNat_add (base + n) 4]
    rfl
  have h0 : UInt32.ofNat base = UInt32.ofNat (base + 0) := rfl
  rw [h0] at hesp
  apply Regs.ext
  case gpr =>
    funext x
    cases x <;> simp (disch := omega) only [Cpu.run, intrExit, List.foldl, Instr.exec, Cpu.popReg,
      Cpu.popSeg, Cpu.setReg, Cpu.drop, Cpu.top, Cpu.esp, Regs.set, Regs.ofIntrStack,
      Function.update_apply,
        reduceCtorEq, ↓reduceIte,
      hesp, hadd, hword, Nat.reduceAdd]
  case seg =>
    funext x
    cases x <;> simp (disch := omega) only [Cpu.run, intrExit, List.foldl, Instr.exec, Cpu.popReg,
      Cpu.popSeg, Cpu.setReg, Cpu.drop, Cpu.top, Cpu.esp, Regs.set, Regs.ofIntrStack,
      Function.update_apply,
        reduceCtorEq, ↓reduceIte,
      hesp, hadd, hword, Nat.reduceAdd]
  all_goals
    simp (disch := omega) only [Cpu.run, intrExit, List.foldl, Instr.exec, Cpu.popReg, Cpu.popSeg,
      Cpu.setReg, Cpu.drop, Cpu.top, Cpu.esp, Regs.set, Regs.ofIntrStack, Function.update_apply,
      reduceCtorEq, ↓reduceIte, hesp, hadd, hword, Nat.reduceAdd]

def syscallWords (esp0 : UInt32) (user : Regs) : List UInt32 :=
  [user.ss.toUInt32, user.gpr .esp, user.eflags, user.cs.toUInt32, user.eip, 0,
    (user.seg .ds).toUInt32,
    (user.seg .es).toUInt32, (user.seg .fs).toUInt32, (user.seg .gs).toUInt32, user.gpr .eax,
      user.gpr .ecx,
    user.gpr .edx, user.gpr .ebx, esp0 - 4 - 4 - 4 - 4 - 4 - 4 - 4 - 4 - 4 - 4, user.gpr .ebp,
      user.gpr .esi,
    user.gpr .edi, 0x80, user.gpr .edx, user.gpr .ecx, user.gpr .ebx]

def syscallEntry (pcb : Nat) (user kernel : Regs) (m : Mem) : Cpu :=
  ((Cpu.mk user m).interrupt (UInt32.ofNat (pcb + 4096)) kernel).run syscallHandler

theorem syscallEntry_eq
    : (syscallEntry parent user kernel m).esp
        = ((syscallWords (UInt32.ofNat (parent + 4096)) user).foldl Cpu.push
            ((Cpu.mk user m).setReg .esp (UInt32.ofNat (parent + 4096)))).esp
      ∧ (syscallEntry parent user kernel m).mem
        = ((syscallWords (UInt32.ofNat (parent + 4096)) user).foldl Cpu.push
            ((Cpu.mk user m).setReg .esp (UInt32.ofNat (parent + 4096)))).mem := by
  constructor
  all_goals
    simp only [syscallEntry, Cpu.run, syscallHandler, syscallWords, List.foldl, Instr.exec,
      Cpu.interrupt, Cpu.push, Cpu.setReg, Cpu.esp, Regs.set, Function.update_apply, reduceCtorEq,
      ↓reduceIte]

theorem toUInt16_toUInt32 (x : UInt16) : x.toUInt32.toUInt16 = x := by
  rw [← UInt16.toNat_inj, UInt32.toNat_toUInt16, UInt16.toNat_toUInt32, Nat.mod_eq_of_lt x.toNat_lt]

theorem syscallEntry_spec (hpar : parent + 4096 ≤ 2 ^ 32)
    : (syscallEntry parent user kernel m).esp = UInt32.ofNat (parent + 4008)
      ∧ Regs.ofIntrStack (syscallEntry parent user kernel m).mem (parent + 4020) = user := by
  obtain ⟨h1, h2⟩ := @syscallEntry_eq parent m user kernel
  have hlen : (syscallWords (UInt32.ofNat (parent + 4096)) user).length = 22 := rfl
  obtain ⟨h3, h4, -⟩ :=
    @foldl_push (parent + 4096) ((Cpu.mk user m).setReg .esp (UInt32.ofNat (parent + 4096)))
    (syscallWords (UInt32.ofNat (parent + 4096)) user) rfl (by omega) hpar
  rw [← h1, hlen] at h3
  refine ⟨h3, ?_⟩
  rw [← h2] at h4
  -- the words in the order of the structure
  have hword : ∀ i (hi : i < 19),
      (syscallEntry parent user kernel m).mem.word (parent + 4020 + (72 - 4 * i))
      = (syscallWords (UInt32.ofNat (parent + 4096)) user)[i] := by
    intro i hi
    rw [← h4 i (by omega)]
    congr 1
    omega
  apply Regs.ext
  case gpr =>
    funext x
    cases x
    . exact hword 10 (by omega)
    . exact hword 11 (by omega)
    . exact hword 12 (by omega)
    . exact hword 13 (by omega)
    . exact hword 1 (by omega)
    . exact hword 15 (by omega)
    . exact hword 16 (by omega)
    . exact hword 17 (by omega)
  case seg =>
    funext x
    cases x
    . exact (congrArg _ (hword 6 (by omega))).trans (toUInt16_toUInt32 _)
    . exact (congrArg _ (hword 7 (by omega))).trans (toUInt16_toUInt32 _)
    . exact (congrArg _ (hword 8 (by omega))).trans (toUInt16_toUInt32 _)
    . exact (congrArg _ (hword 9 (by omega))).trans (toUInt16_toUInt32 _)
  case eip => exact hword 4 (by omega)
  case cs => exact (congrArg _ (hword 3 (by omega))).trans (toUInt16_toUInt32 _)
  case eflags => exact hword 2 (by omega)
  case ss => exact (congrArg _ (hword 0 (by omega))).trans (toUInt16_toUInt32 _)

end Frame

section Switch

structure AtSwitch (cur next : Nat) (c : Cpu) : Prop where
  stack : cur + 20 ≤ c.esp.toNat
  args : c.esp.toNat + 12 ≤ cur + 4096
  cur : c.mem.word (c.esp.toNat + 4) = UInt32.ofNat cur
  next : c.mem.word (c.esp.toNat + 8) = UInt32.ofNat next

theorem toNat_ofNat_of_lt {n : Nat} (h : n < 2 ^ 32) : (UInt32.ofNat n).toNat = n := by
  rw [UInt32.toNat_ofNat']
  omega

theorem switchTo_spec {cur next kstack : Nat} (hp : Pcbs cur next) (hc : AtSwitch cur next c)
    (hk : c.mem.word next = UInt32.ofNat kstack) (h1 : next ≤ kstack)
    (h2 : kstack + 20 ≤ next + 4096)
    : (c.run switchTo).regs.eip = c.mem.word (kstack + 16) ∧ (c.run switchTo).esp
        = UInt32.ofNat (kstack + 20)
      ∧ ∀ a, next ≤ a → a < next + 4096 → (c.run switchTo).mem a = c.mem a := by
  have hap := hp.apart
  have hcur := hp.parent_le
  have hnext := hp.child_le
  have hstack := hc.stack
  have hargs := hc.args
  generalize hE : c.esp.toNat = E at hstack hargs
  have hesp : c.esp = UInt32.ofNat E := by
    rw [← hE, UInt32.ofNat_toNat]
  -- the registers of `cur` are saved
  obtain ⟨h3, -, h5⟩ := @foldl_push E c [c.regs.gpr .esi, c.regs.gpr .edi, c.regs.gpr .ebx,
      c.regs.gpr .ebp] hesp
    (by simp only [List.length_cons, List.length_nil]; omega) (by omega)
  simp only [List.length_cons, List.length_nil] at h3 h5
  generalize hc4 : [c.regs.gpr .esi, c.regs.gpr .edi, c.regs.gpr .ebx,
      c.regs.gpr .ebp].foldl Cpu.push c = c4 at h3 h5
  rw [Cpu.esp] at h3
  have hrun : c.run switchTo = c4.run [.load .eax .esp 20, .store .eax 0 .esp, .load .eax .esp 24,
      .load .esp .eax 0,
      .pop .ebp, .pop .ebx, .pop .edi, .pop .esi, .ret] := by
    rw [← hc4]
    simp only [Cpu.run, switchTo, List.foldl, Instr.exec, Cpu.push, Cpu.esp, Regs.set,
      Function.update_apply, reduceCtorEq, ↓reduceIte]
  have hcur4 : c4.mem.word (c4.regs.gpr .esp + 20).toNat = UInt32.ofNat cur := by
    have haddr : (c4.regs.gpr .esp + 20).toNat = E + 4 := by
      rw [h3, UInt32.toNat_add, toNat_ofNat_of_lt (by omega)]
      simp only [UInt32.reduceToNat]
      omega
    rw [haddr, ← hc.cur, hE]
    exact Mem.word_congr fun i hi => h5 _ (by omega)
  -- the store of the stack pointer of `cur`
  generalize hm5 : c4.mem.setWord cur (c4.regs.gpr .esp) = m5
  have hsame : ∀ a, (a < cur ∨ cur + 4 ≤ a) → (a < E - 16 ∨ E ≤ a) → m5 a = c.mem a := by
    intro a ha1 ha2
    rw [← hm5, Mem.setWord_of_not_mem (by omega)]
    exact h5 a (by omega)
  have hnext5 : m5.word (c4.regs.gpr .esp + 24).toNat = UInt32.ofNat next := by
    have haddr : (c4.regs.gpr .esp + 24).toNat = E + 8 := by
      rw [h3, UInt32.toNat_add, toNat_ofNat_of_lt (by omega)]
      simp only [UInt32.reduceToNat]
      omega
    rw [haddr, ← hc.next, hE]
    exact Mem.word_congr fun i hi => hsame _ (by omega) (by omega)
  have hk5 : m5.word next = UInt32.ofNat kstack := by
    rw [← hk]
    exact Mem.word_congr fun i hi => hsame _ (by omega) (by omega)
  have hcurNat : (UInt32.ofNat cur).toNat = cur := toNat_ofNat_of_lt (by omega)
  have hnextNat : (UInt32.ofNat next).toNat = next := toNat_ofNat_of_lt (by omega)
  have hadd : ∀ n, UInt32.ofNat (kstack + n) + 4 = UInt32.ofNat (kstack + (n + 4)) := by
    intro n
    rw [← Nat.add_assoc, UInt32.ofNat_add (kstack + n) 4]
    rfl
  have h0 : UInt32.ofNat kstack = UInt32.ofNat (kstack + 0) := rfl
  rw [h0] at hk5
  rw [hrun]
  refine ⟨?_, ?_, ?_⟩
  . simp only [Cpu.run, List.foldl, Instr.exec, Cpu.popReg, Cpu.setReg, Cpu.drop, Cpu.top, Cpu.esp,
      Regs.set, Function.update_apply, reduceCtorEq, ↓reduceIte, hcur4, UInt32.add_zero, hcurNat,
      hm5, hnext5, hnextNat, hk5, hadd, Nat.reduceAdd]
    rw [toNat_ofNat_of_lt (by omega)]
    exact Mem.word_congr fun i hi => hsame _ (by omega) (by omega)
  . simp only [Cpu.run, List.foldl, Instr.exec, Cpu.popReg, Cpu.setReg, Cpu.drop, Cpu.top, Cpu.esp,
      Regs.set, Function.update_apply, reduceCtorEq, ↓reduceIte, hcur4, UInt32.add_zero, hcurNat,
      hm5, hnext5, hnextNat, hk5, hadd, Nat.reduceAdd]
  . intro a ha1 ha2
    simp only [Cpu.run, List.foldl, Instr.exec, Cpu.popReg, Cpu.setReg, Cpu.drop, Cpu.top, Cpu.esp,
      Regs.set, Function.update_apply, reduceCtorEq, ↓reduceIte, hcur4, UInt32.add_zero, hcurNat,
      hm5]
    exact hsame a (by omega) (by omega)

end Switch

section Fork

def Undisturbed (child : Nat) (m m' : Mem) : Prop :=
  (∀ k < 4, m' (child + k) = m (child + k)) ∧ ∀ k, 4000 ≤ k → k < 4096
    → m' (child + k) = m (child + k)

theorem Regs.ofIntrStack_congr {base' : Nat}
    (h : ∀ k, 4 ≤ k → k < 76 → m' (base' + k) = m (base + k))
    : Regs.ofIntrStack m' base' = Regs.ofIntrStack m base := by
  have hword : ∀ k, 4 ≤ k → k + 4 ≤ 76 → m'.word (base' + k) = m.word (base + k) := by
    intro k hk1 hk2
    rw [← Mem.word_shift, ← Mem.word_shift]
    apply Mem.word_congr
    intro i hi
    rw [Mem.shift_apply, Mem.shift_apply]
    exact h _ (by omega) (by omega)
  unfold Regs.ofIntrStack
  simp (disch := omega) only [hword]

theorem Regs.ofIntrStack_eq_set {base' : Nat}
    (hword : ∀ k, 4 ≤ k → k + 4 ≤ 76 → k ≠ 32 → k % 4 = 0 → m'.word (base' + k) = m.word (base + k))
    : Regs.ofIntrStack m' base' = (Regs.ofIntrStack m base).set .eax (m'.word (base' + 32)) := by
  apply Regs.ext
  case gpr =>
    funext x
    cases x
    case eax => rfl
    all_goals exact hword _ (by omega) (by omega) (by omega) (by omega)
  case seg =>
    funext x
    cases x
    . exact congrArg UInt32.toUInt16 (hword 48 (by omega) (by omega) (by omega) (by omega))
    . exact congrArg UInt32.toUInt16 (hword 44 (by omega) (by omega) (by omega) (by omega))
    . exact congrArg UInt32.toUInt16 (hword 40 (by omega) (by omega) (by omega) (by omega))
    . exact congrArg UInt32.toUInt16 (hword 36 (by omega) (by omega) (by omega) (by omega))
  case eip => exact hword 56 (by omega) (by omega) (by omega) (by omega)
  case cs => exact congrArg UInt32.toUInt16 (hword 60 (by omega) (by omega) (by omega) (by omega))
  case eflags => exact hword 64 (by omega) (by omega) (by omega) (by omega)
  case ss => exact congrArg UInt32.toUInt16 (hword 72 (by omega) (by omega) (by omega) (by omega))

theorem Forked.ofIntrStack (hf : Forked env parent child m m')
    : Regs.ofIntrStack m' (child + 4020) = (Regs.ofIntrStack m (parent + 4020)).set .eax 0 := by
  rw [← hf.eax]
  apply Regs.ofIntrStack_eq_set
  intro k hk1 hk2 hne hmod
  rw [Nat.add_assoc, Nat.add_assoc, ← Mem.word_shift, ← Mem.word_shift]
  apply Mem.word_congr
  intro i hi
  rw [Mem.shift_apply, Mem.shift_apply]
  exact hf.frame _ (by omega) (by omega) (by omega)

theorem child_resumes {cur : Nat} (hp : Pcbs cur child) (hf : Forked env parent child m m')
    (hframe : Regs.ofIntrStack m (parent + 4020) = user) (hc : AtSwitch cur child c)
    (hmem : Undisturbed child m' c.mem)
    : (c.run switchTo).regs.eip = env.intrExit ∧ ((c.run switchTo).run intrExit).regs
        = user.set .eax 0 := by
  have hle := hp.child_le
  have hk : c.mem.word child = UInt32.ofNat (child + 4000) := by
    rw [← hf.kstack]
    exact Mem.word_congr fun i hi => hmem.1 i hi
  obtain ⟨h1, h2, h3⟩ := switchTo_spec hp hc hk (by omega) (by omega)
  constructor
  . rw [h1, ← hf.ret]
    apply Mem.word_congr
    intro i hi
    rw [Nat.add_assoc, Nat.add_assoc]
    exact hmem.2 _ (by omega) (by omega)
  . rw [intrExit_regs h2 (by omega), ← hframe, ← hf.ofIntrStack]
    apply Regs.ofIntrStack_congr
    intro k hk1 hk2
    rw [h3 _ (by omega) (by omega), Nat.add_assoc, Nat.add_assoc]
    exact hmem.2 _ (by omega) (by omega)

theorem parent_resumes (hpar : parent + 4096 ≤ 2 ^ 32) (hesp : c.esp = UInt32.ofNat (parent + 4008))
    (hframe : Regs.ofIntrStack c.mem (parent + 4020) = user)
    : (c.run syscallReturn).regs = user.set .eax (c.regs.gpr .eax) := by
  have hesp' : c.esp + 12 = UInt32.ofNat (parent + 4020) := by
    rw [hesp, show parent + 4020 = parent + 4008 + 12 from rfl, UInt32.ofNat_add (parent + 4008) 12]
    rfl
  have haddr : (UInt32.ofNat (parent + 4020) + 32).toNat = parent + 4052 := by
    rw [UInt32.toNat_add, toNat_ofNat_of_lt (by omega)]
    simp only [UInt32.reduceToNat]
    omega
  -- the two instructions in front of `intr_exit`
  generalize hc2 : c.run [.addEsp 12, .store .esp (8 * 4) .eax] = c2
  have hrun : c.run syscallReturn = c2.run intrExit := by
    rw [← hc2, Cpu.run, syscallReturn, List.foldl_append]
    rfl
  have hesp2 : c2.esp = UInt32.ofNat (parent + 4020) := by
    rw [← hesp', ← hc2]
    rfl
  have hmem2 : c2.mem = c.mem.setWord (parent + 4052) (c.regs.gpr .eax) := by
    rw [← haddr, ← hesp', ← hc2]
    rfl
  have hset : Regs.ofIntrStack c2.mem (parent + 4020)
      = (Regs.ofIntrStack c.mem (parent + 4020)).set .eax (c2.mem.word (parent + 4020 + 32)) := by
    apply Regs.ofIntrStack_eq_set
    intro k _ _ hne hmod
    rw [hmem2]
    exact Mem.word_setWord_of_disjoint (by omega)
  have heax : c2.mem.word (parent + 4020 + 32) = c.regs.gpr .eax := by
    rw [hmem2]
    exact Mem.word_setWord_self
  rw [hrun, intrExit_regs hesp2 (by omega), hset, heax, hframe]

/--
`fork` returns twice. `m₁` is the memory in which `sys_fork` runs, below the frame of
`syscall_handler`, and `m₂` that in which it returns. The child is entered with the registers of the
parent and 0, whichever task `cur` was running before; the parent with what `sys_fork` left in
`eax`, of which a `pid_t` is the lower half.
-/
theorem fork_returns_twice {m₁ m₂ : Mem} {R A : Nat → Prop} {ready all : List Nat} {v : UInt16}
    (hp : ForkPages env parent child)
    (hentry : ∀ k, 4020 ≤ k → k < 4096 → m₁ (parent + k) = (syscallEntry parent user kernel m).mem
      (parent + k))
    (hl : TaskLists env parent child R A ready all m₁)
    (hrun : (sysFork child parent env).run m₁ = .ok (v, m₂))
    : (∀ c cur, Pcbs cur child → AtSwitch cur child c → Undisturbed child m₂ c.mem →
        (c.run switchTo).regs.eip = env.intrExit ∧ ((c.run switchTo).run intrExit).regs
          = user.set .eax 0)
      ∧ ∀ c : Cpu, c.esp = (syscallEntry parent user kernel m).esp →
          (∀ k, 4020 ≤ k → k < 4096 → c.mem (parent + k) = m₂ (parent + k))
            → (c.regs.gpr .eax).toUInt16 = v →
          (c.run syscallReturn).regs = user.set .eax (c.regs.gpr .eax)
            ∧ (c.regs.gpr .eax).toUInt16 = m₂.half (child + Pcb.pid) := by
  have hpar := hp.parent_le
  obtain ⟨hv, hf⟩ := sysFork_run hp hl hrun
  obtain ⟨hesp, hframe⟩ := @syscallEntry_spec parent m user kernel hpar
  have hframe₁ : Regs.ofIntrStack m₁ (parent + 4020) = user := by
    rw [← hframe]
    apply Regs.ofIntrStack_congr
    intro k hk1 hk2
    rw [Nat.add_assoc]
    exact hentry _ (by omega) (by omega)
  constructor
  . intro c cur hcur hc hmem
    exact child_resumes hcur hf hframe₁ hc hmem
  . intro c hc hmem hret
    constructor
    . apply parent_resumes hpar (hc.trans hesp)
      rw [← hframe₁]
      apply Regs.ofIntrStack_congr
      intro k hk1 hk2
      rw [Nat.add_assoc, hmem _ (by omega) (by omega)]
      exact hf.parent _ (by omega) (by omega)
    . rw [hret, hv, hf.pid]

def forkUser : Regs where
  gpr x := if x = .esp then 0xbffffff0 else 7
  seg _ := 0x33
  eip := 0x8048100
  cs := 0x2b
  eflags := 0x202
  ss := 0x33

def forkEnv : ForkEnv where
  vaddrBtmp := 0xc0110000
  pgdir := 0xc0103000
  readyList := 0xc0010000
  allList := 0xc0010100
  intrExit := 0xc0001800
  pid := 5

def forkMem : Mem :=
  listInit (listInit (syscallEntry 0xc0101000 forkUser forkUser Mem.zero).mem 0xc0010000) 0xc0010100

def forkSwitch : Cpu where
  regs := forkUser.set .esp 0xc0101f00
  mem := ((Cmd.after (sysFork 0xc0102000 0xc0101000 forkEnv) forkMem).setWord 0xc0101f04
    0xc0101000).setWord 0xc0101f08
    0xc0102000

theorem taskLists_forkMem
    : TaskLists forkEnv 0xc0101000 0xc0102000 (fun x => x = 0xc0010000 ∨ x = 0xc0010008)
        (fun x => x = 0xc0010100 ∨ x = 0xc0010108) [] [] forkMem := by
  refine ⟨?_, ?_, ⟨?_, ?_⟩, ?_, ?_⟩
  . exact .nil (by decide) (by decide +kernel) (by decide +kernel) (.inl rfl) (.inr rfl)
  . exact .nil (by decide) (by decide +kernel) (by decide +kernel) (.inl rfl) (.inr rfl)
  . intro x y hx hy hne
    omega
  . intro x hx
    omega
  . intro x hx
    omega
  . intro x hx
    have hbitmap : forkEnv.vaddrBtmp = 0xc0110000 := rfl
    exact ⟨by omega, by omega, by omega⟩

theorem fork_returns_twice_forkSwitch
    : (forkSwitch.run switchTo).regs.eip = 0xc0001800
      ∧ ((forkSwitch.run switchTo).run intrExit).regs = forkUser.set .eax 0 := by
  obtain ⟨v, hrun, -⟩ := Cmd.run_of_returns (x := sysFork 0xc0102000 0xc0101000 forkEnv) (s :=
      forkMem) (p := fun _ => true)
    (by decide +kernel)
  have hpages : ForkPages forkEnv 0xc0101000 0xc0102000 :=
    ⟨⟨by decide, by decide, by decide, by decide, by decide⟩, by decide, by decide⟩
  have hentry : ∀ k, 4020 ≤ k → k < 4096 → forkMem (0xc0101000 + k)
      = (syscallEntry 0xc0101000 forkUser forkUser Mem.zero).mem (0xc0101000 + k) := by
    intro k _ _
    unfold forkMem listInit listTail
    rw [Mem.setWord_of_not_mem (by omega), Mem.setWord_of_not_mem (by omega),
      Mem.setWord_of_not_mem (by omega), Mem.setWord_of_not_mem (by omega),
      Mem.setWord_of_not_mem (by omega), Mem.setWord_of_not_mem (by omega),
      Mem.setWord_of_not_mem (by omega), Mem.setWord_of_not_mem (by omega)]
  apply (fork_returns_twice hpages hentry taskLists_forkMem hrun).1 forkSwitch 0xc0101000
    hpages.toPcbs
  . exact ⟨by decide +kernel, by decide +kernel, by decide +kernel, by decide +kernel⟩
  . constructor
    . intro k hk
      unfold forkSwitch
      dsimp only
      rw [Mem.setWord_of_not_mem (by omega), Mem.setWord_of_not_mem (by omega)]
    . intro k _ _
      unfold forkSwitch
      dsimp only
      rw [Mem.setWord_of_not_mem (by omega), Mem.setWord_of_not_mem (by omega)]

end Fork

end RogOS
