import RogOS.Lib.Cmd
import RogOS.Memory.Impl.Heap

/-!
`fork.c` on the kernel memory: the PCBs of the parent and of the child, the bitmap of the virtual
addresses and the lists of tasks. The pages that `get_kernel_pages` returns are parameters. The
address space of the child and the open files are not in the PCBs.
-/

namespace RogOS

abbrev TaskM := Cmd Fault Mem

namespace Pcb

def parentPid : Nat := 4
def pid : Nat := 6
def status : Nat := 8
def name : Nat := 12
def priority : Nat := 28
def ticks : Nat := 29
def elapsedTicks : Nat := 32
def generalTag : Nat := 68
def allListTag : Nat := 76
def pgdir : Nat := 84
def bits : Nat := 92
def uBlockDesc : Nat := 100

end Pcb

def taskReady : UInt32 := 1

def intrStackSize : Nat := 76

def strlenLt (m : Mem) (s n : Nat) : Option Nat := (List.range n).find? fun i => m (s + i) == 0

def forkSuffix : List UInt8 := [95, 102, 111, 114, 107]

def strcatFork (m : Mem) (s len : Nat) : Mem := m.blit (s + len) 6 fun i => forkSuffix.getD i 0

def bitmapPgCnt : Nat := ((0xc0000000 - 0x8048000) / 4096 / 8 + 4096 - 1) / 4096

section Fork

variable (child parent : Nat)

def copyPcb (pid : UInt16) (m : Mem) : Mem :=
  let m := m.blit child 4096 (m.shift parent)
  let m := m.setHalf (child + Pcb.pid) pid
  let m := m.setWord (child + Pcb.elapsedTicks) 0
  let m := m.setWord (child + Pcb.status) taskReady
  let m : Mem := Function.update m (child + Pcb.ticks) (m (child + Pcb.priority))
  let m := m.setHalf (child + Pcb.parentPid) (m.half (parent + Pcb.pid))
  let m := (m.setWord (child + Pcb.generalTag + 4) 0).setWord (child + Pcb.generalTag) 0
  let m := (m.setWord (child + Pcb.allListTag + 4) 0).setWord (child + Pcb.allListTag) 0
  blockDescInit (child + Pcb.uBlockDesc) m

def copyPcbVaddrbitmapStack0 (pid : UInt16) (vaddrBtmp : Nat) : TaskM Unit := do
  modify (copyPcb child parent pid)
  modify fun m => m.blit vaddrBtmp (bitmapPgCnt * 4096) (m.shift (m.word (child + Pcb.bits)).toNat)
  modify fun m => m.setWord (child + Pcb.bits) (UInt32.ofNat vaddrBtmp)
  let m ← get
  match strlenLt m (child + Pcb.name) 11 with
  | none => throw .panic
  | some len => modify fun m => strcatFork m (child + Pcb.name) len

def buildChildStack (intrExit : UInt32) (m : Mem) : Mem :=
  let intr0Stack := child + 4096 - intrStackSize
  let m := m.setWord (intr0Stack + 32) 0
  let m := m.setWord (intr0Stack - 4) intrExit
  let m := m.setWord (intr0Stack - 8) 0
  let m := m.setWord (intr0Stack - 12) 0
  let m := m.setWord (intr0Stack - 16) 0
  let m := m.setWord (intr0Stack - 20) 0
  m.setWord child (UInt32.ofNat (intr0Stack - 20))

def appendTag (list tag : Nat) : TaskM Unit := do
  let m ← get
  match elemFind m list tag with
  | none => throw .hang
  | some found =>
    Cmd.assert .panic (found = false)
    modify fun m => listAppend m list tag

structure ForkEnv where
  vaddrBtmp : Nat
  pgdir : Nat
  readyList : Nat
  allList : Nat
  intrExit : UInt32
  pid : UInt16

def sysFork (env : ForkEnv) : TaskM UInt16 := do
  copyPcbVaddrbitmapStack0 child parent env.pid env.vaddrBtmp
  modify fun m => m.setWord (child + Pcb.pgdir) (UInt32.ofNat env.pgdir)
  modify (buildChildStack child env.intrExit)
  appendTag env.readyList (child + Pcb.generalTag)
  appendTag env.allList (child + Pcb.allListTag)
  let m ← get
  pure (m.half (child + Pcb.pid))

end Fork

end RogOS
