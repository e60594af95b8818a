import RogOS.Fs.Impl.Fork
import RogOS.Memory.Impl.Paging
import RogOS.Task.Impl.Fork

/-!
`process.c` and `fork.c` on the pages: where the PCBs, the bitmaps and the page directories of the
processes come from. The stacks of a new process and the switch to it are left out.
-/

namespace RogOS

def userBtmpBytesLen : Nat := (0xc0000000 - 0x8048000) / 4096 / 8

structure Procs where
  mem : Paging
  fs : Fs
  nextPid : UInt16
  -- `intr_get_status() == INTR_ON`
  intrOn : Bool
  -- `pgdir` and `userprog_vaddr` in the PCB at an address
  taskMem : UInt32 → TaskMem
  -- `running_thread()`
  running : UInt32
  threadReadyList : List UInt32
  threadAllList : List UInt32

abbrev ProcsM := Cmd Fault Procs

namespace Procs

def onMem {α : Type} (x : PagingM α)
    : ProcsM α := Cmd.zoom Procs.mem (fun p m => { p with mem := m }) x

def onFs {α : Type} (x : FsM α) : ProcsM α := Cmd.zoom Procs.fs (fun p s => { p with fs := s }) x

def setTaskMem (thread : UInt32) (f : TaskMem → TaskMem) : ProcsM Unit :=
  modify fun p => { p with taskMem := Function.update p.taskMem thread (f (p.taskMem thread)) }

def modifyPage (page : UInt32) (f : Mem → Mem) : PagingM Unit := do
  let s ← get
  Paging.writeRange page 4096 ((f s.virt).shift page.toNat)

def createPageDir : PagingM (Option UInt32) := do
  match ← Paging.getKernelPages 1 with
  | none => pure none
  | some pageDirVaddr =>
    Paging.copyRange (pageDirVaddr + 768 * 4) (0xfffff000 + 768 * 4) (255 * 4)
    let newPageDirPhyAddr ← Paging.addrV2p pageDirVaddr
    Paging.writeWord (pageDirVaddr + 1023 * 4) (newPageDirPhyAddr ||| 7)
    pure (some pageDirVaddr)

def pageDirActivate (t : TaskMem) : PagingM Unit := do
  if t.pgdir ≠ 0 then
    let pagedirPhyAddr ← Paging.addrV2p t.pgdir
    modify fun s => { s with cr3 := pagedirPhyAddr }
  else
    modify fun s => { s with cr3 := 0x100000 }

def appendThread (thread : UInt32) : ProcsM Unit := do
  let p ← get
  Cmd.assert .panic (thread ∉ p.threadReadyList)
  modify fun p => { p with threadReadyList := p.threadReadyList ++ [thread] }
  let p ← get
  Cmd.assert .panic (thread ∉ p.threadAllList)
  modify fun p => { p with threadAllList := p.threadAllList ++ [thread] }

section Fork

variable (childThread parentThread : UInt32)

def copyPcbVaddrbitmapStack0 : ProcsM Bool := do
  modify fun p => { p with nextPid := p.nextPid + 1 }
  let p ← get
  onMem (modifyPage childThread (copyPcb childThread.toNat parentThread.toNat p.nextPid))
  setTaskMem childThread fun _ => p.taskMem parentThread
  modify fun p =>
    { p with fs.tasks :=
    Function.update p.fs.tasks childThread.toNat (p.fs.tasks parentThread.toNat) }
  match ← onMem (Paging.getKernelPages (UInt32.ofNat bitmapPgCnt)) with
  | none => pure false
  | some vaddrBtmp =>
    onMem (Paging.copyPages bitmapPgCnt vaddrBtmp (p.taskMem parentThread).bits)
    setTaskMem childThread fun t => { t with bits := vaddrBtmp }
    onMem (modifyPage childThread fun m => m.setWord (childThread.toNat + Pcb.bits) vaddrBtmp)
    let p ← get
    match strlenLt p.mem.virt (childThread.toNat + Pcb.name) 11 with
    | none => throw .panic
    | some len =>
      onMem (modifyPage childThread fun m => strcatFork m (childThread.toNat + Pcb.name) len)
      pure true

variable (child parent : TaskMem) (bufPage : UInt32)

def copyUserPage (progVaddr : UInt32) : PagingM Unit := do
  Paging.copyRange bufPage progVaddr 4096
  pageDirActivate child
  let _ ← Paging.getAPageWithoutOpvaddrbitmap .user progVaddr
  Paging.copyRange progVaddr bufPage 4096
  pageDirActivate parent

def copyBodyBits (idxByte : Nat) : (n idxBit : Nat) → PagingM Unit
  | 0, _ => pure ()
  | n + 1, idxBit => do
    let s ← get
    if (1 <<< UInt8.ofNat idxBit) &&& s.virt (parent.bits.toNat + idxByte) ≠ 0 then
      copyUserPage child parent bufPage
        (UInt32.ofNat (idxByte * 8 + idxBit) * 4096 + parent.vaddrStart)
    copyBodyBits idxByte n (idxBit + 1)

def copyBodyBytes : (n idxByte : Nat) → PagingM Unit
  | 0, _ => pure ()
  | n + 1, idxByte => do
    let s ← get
    if s.virt (parent.bits.toNat + idxByte) ≠ 0 then
      copyBodyBits child parent bufPage idxByte 8 0
    copyBodyBytes n (idxByte + 1)

def copyBodyStack3 : PagingM Unit := copyBodyBytes child parent bufPage parent.btmpBytesLen 0

def copyProcess (intrExit : UInt32) : ProcsM Bool := do
  match ← onMem (Paging.getKernelPages 1) with
  | none => pure false
  | some bufPage =>
    if ← copyPcbVaddrbitmapStack0 childThread parentThread then
      match ← onMem createPageDir with
      | none =>
        setTaskMem childThread fun t => { t with pgdir := 0 }
        pure false
      | some pgdir =>
        setTaskMem childThread fun t => { t with pgdir := pgdir }
        onMem (modifyPage childThread fun m => m.setWord (childThread.toNat + Pcb.pgdir) pgdir)
        let p ← get
        onMem (copyBodyStack3 (p.taskMem childThread) (p.taskMem parentThread) bufPage)
        onMem (modifyPage childThread (buildChildStack childThread.toNat intrExit))
        onFs (updateInodeOpenCnts childThread.toNat)
        onMem (Paging.mfreePage .kernel bufPage 1)
        pure true
    else
      pure false

end Fork

def sysFork (intrExit : UInt32) : ProcsM (Option UInt16) := do
  let p ← get
  let parentThread := p.running
  match ← onMem (Paging.getKernelPages 1) with
  | none => pure none
  | some childThread =>
    Cmd.assert .panic (p.intrOn = false ∧ (p.taskMem parentThread).pgdir ≠ 0)
    if ← copyProcess childThread parentThread intrExit then
      appendThread childThread
      let p ← get
      pure (some (p.mem.virt.half (childThread.toNat + Pcb.pid)))
    else
      pure none

end Procs

end RogOS
