import RogOS.Basic
import RogOS.Lib.Cmd
import RogOS.Memory.Impl.List

/-!
The heap of `memory.c`: `sys_malloc` and `sys_free` on the bytes of one address space. `malloc_page`
is represented by the pages that it grants.
-/

namespace RogOS

structure HeapEnv where
  -- `mem_bytes_total` of `mem_init`
  allMem : UInt32
  -- `running_thread()->pgdir == NULL`
  kernel : Bool
  -- `k_block_descs` or `u_block_desc`
  descs : Nat

def kernelFreePages (allMem : UInt32)
    : UInt16 := ((allMem - (4096 * 256 + 0x100000)) / 4096).toUInt16 / 2

def userFreePages (allMem : UInt32) : UInt16 :=
  ((allMem - (4096 * 256 + 0x100000)) / 4096).toUInt16 - kernelFreePages allMem

def HeapEnv.poolSize (env : HeapEnv) : UInt32 :=
  (if env.kernel then kernelFreePages env.allMem else userFreePages env.allMem).toUInt32 * 4096

/-- The memory of an address space, and the pages of it that were granted and not given back. -/
structure Heap where
  mem : Mem
  held : Nat → Bool

abbrev HeapM := Cmd Fault Heap

namespace Heap

def setMem (h : Heap) (m : Mem) : Heap := { h with mem := m }

def setPages (h : Heap) (page cnt : Nat) (value : Bool) : Heap :=
  { h with held := fun p => if page ≤ p ∧ p < page + cnt then value else h.held p }

end Heap

def modifyMem (f : Mem → Mem) : HeapM Unit := modify fun h => h.setMem (f h.mem)

def loadWord (a : Nat) : HeapM UInt32 := do
  let h ← get
  pure (h.mem.word a)

def mallocPage (grant : Option Nat) (pgCnt : Nat) : HeapM (Option Nat) := do
  Cmd.assert .panic (0 < pgCnt ∧ pgCnt < 3840)
  match grant with
  | none => pure none
  | some page =>
    modify fun h => h.setPages page pgCnt true
    pure (some (4096 * page))

def mfreePage (vaddr pgCnt : Nat) : HeapM Unit := do
  Cmd.assert .panic (1 ≤ pgCnt ∧ vaddr % 4096 = 0)
  let h ← get
  Cmd.assert .panic ((List.range pgCnt).all fun i => h.held (vaddr / 4096 + i))
  modify fun h => h.setPages (vaddr / 4096) pgCnt false

def memsetZero (dst size : Nat) : HeapM Unit := modifyMem fun m => m.blit dst size Mem.zero

def arenaSize : Nat := 12

def descSize : Nat := 24

def freeList (desc : Nat) : Nat := desc + 8

def blockDescInit.go (descArray : Nat) : (n descIdx : Nat) → (blockSize : UInt16) → Mem → Mem
  | 0, _, _, m => m
  | n + 1, descIdx, blockSize, m =>
    let desc := descArray + descSize * descIdx
    let m := m.setWord desc blockSize.toUInt32
    let m := m.setWord (desc + 4) ((4096 - UInt32.ofNat arenaSize) / blockSize.toUInt32)
    go descArray n (descIdx + 1) (blockSize * 2) (listInit m (freeList desc))

def blockDescInit (descArray : Nat) (m : Mem) : Mem := blockDescInit.go descArray 7 0 16 m

def arena2block (m : Mem) (a idx : Nat)
    : Nat := a + arenaSize + idx * (m.word (m.word a).toNat).toNat

def block2arena (b : Nat) : Nat := b / 4096 * 4096

def appendBlocks (a : Nat) : (n blockIdx : Nat) → HeapM Unit
  | 0, _ => pure ()
  | n + 1, blockIdx => do
    let h ← get
    let b := arena2block h.mem a blockIdx
    let list := freeList (h.mem.word a).toNat
    match elemFind h.mem list b with
    | none => throw .hang
    | some found =>
      Cmd.assert .panic (found = false)
      modifyMem fun m => listAppend m list b
      appendBlocks a n (blockIdx + 1)

def removeBlocks (a : Nat) : (n blockIdx : Nat) → HeapM Unit
  | 0, _ => pure ()
  | n + 1, blockIdx => do
    let h ← get
    let b := arena2block h.mem a blockIdx
    match elemFind h.mem (freeList (h.mem.word a).toNat) b with
    | none => throw .hang
    | some found =>
      Cmd.assert .panic (found = true)
      modifyMem fun m => listRemove m b
      removeBlocks a n (blockIdx + 1)

def findDesc (m : Mem) (descs : Nat) (size : UInt32) : (n descIdx : Nat) → Nat
  | 0, descIdx => descIdx
  | n + 1, descIdx =>
    if size ≤ m.word (descs + descSize * descIdx) then descIdx
      else findDesc m descs size n (descIdx + 1)

def largePages (size : UInt32) : UInt32 := (size + UInt32.ofNat arenaSize + 4096 - 1) / 4096

def mallocLarge (grant : Option Nat) (size : UInt32) : HeapM Nat := do
  let pageCnt := largePages size
  match ← mallocPage grant pageCnt.toNat with
  | none => pure 0
  | some a =>
    memsetZero a (pageCnt * 4096).toNat
    modifyMem fun m => m.setWord a 0
    modifyMem fun m => m.setWord (a + 4) pageCnt
    modifyMem fun m => m.setWord (a + 8) 1
    pure (a + arenaSize)

/--
The part of `sys_malloc` that creates an arena if the free list of the descriptor is empty; `false`
if there is no page for it
-/
def newArena (grant : Option Nat) (desc : Nat) : HeapM Bool := do
  let h ← get
  if listEmpty h.mem (freeList desc) then
    match ← mallocPage grant 1 with
    | none => pure false
    | some a =>
      memsetZero a 4096
      modifyMem fun m => m.setWord a (UInt32.ofNat desc)
      modifyMem fun m => m.setWord (a + 8) 0
      let blocksPerArena ← loadWord (desc + 4)
      modifyMem fun m => m.setWord (a + 4) blocksPerArena
      appendBlocks a blocksPerArena.toNat 0
      pure true
  else
    pure true

def takeBlock (desc : Nat) : HeapM Nat := do
  let h ← get
  let (b, m) := listPop h.mem (freeList desc)
  modifyMem fun _ => m
  let blockSize ← loadWord desc
  memsetZero b blockSize.toNat
  let a := block2arena b
  modifyMem fun m => m.setWord (a + 4) (m.word (a + 4) - 1)
  pure b

def sysMalloc (env : HeapEnv) (grant : Option Nat) (size : UInt32) : HeapM Nat := do
  if ¬ (0 < size ∧ size < env.poolSize) then
    pure 0
  else if 1024 < size then
    mallocLarge grant size
  else
    let h ← get
    let descIdx := findDesc h.mem env.descs size 7 0
    Cmd.assert .overrun (descIdx < 7)
    let desc := env.descs + descSize * descIdx
    if ← newArena grant desc then
      takeBlock desc
    else
      pure 0

def sysFree (env : HeapEnv) (ptr : Nat) : HeapM Unit := do
  Cmd.assert .panic (ptr ≠ 0)
  Cmd.assert .panic (env.kernel = true → 0xc0100000 < ptr)
  let a := block2arena ptr
  let h ← get
  let desc := (h.mem.word a).toNat
  let large := h.mem.word (a + 8)
  Cmd.assert .panic (large = 0 ∨ large = 1)
  if desc = 0 ∧ large = 1 then
    mfreePage a (h.mem.word (a + 4)).toNat
  else
    Cmd.assert .badPtr (desc ≠ 0)
    modifyMem fun m => listAppend m (freeList desc) ptr
    modifyMem fun m => m.setWord (a + 4) (m.word (a + 4) + 1)
    let cnt ← loadWord (a + 4)
    let blocksPerArena ← loadWord (desc + 4)
    if cnt = blocksPerArena then
      removeBlocks a blocksPerArena.toNat 0
      mfreePage a 1
    else
      pure ()

end RogOS
