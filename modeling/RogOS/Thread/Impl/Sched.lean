import Mathlib.Data.Fintype.Card
import RogOS.Thread.Impl.Sync
import RogOS.Lib.DLists

/-!
`thread.c`, `sync.c` and `timer.c` on the links of the task lists. A task is its PCB; the elements
of the lists are the tags inside of the PCBs. A step ends where another task goes on, in
`switch_to`.
-/

namespace RogOS

/-- The lists of tasks: `thread_ready_list`, `thread_all_list`, and the waiters of each semaphore -/
inductive TaskList (S : Type) where
  | ready
  | all
  | waiters (psema : S)
  deriving DecidableEq

inductive TaskElem (T S : Type) where
  | null
  | head (plist : TaskList S)
  | tail (plist : TaskList S)
  -- `general_tag` of a task
  | generalTag (pthread : T)
  -- `all_list_tag` of a task
  | allListTag (pthread : T)
  deriving DecidableEq

structure TaskStruct where
  status : TaskStatus
  priority : UInt8
  ticks : UInt8
  elapsedTicks : UInt32
  stackMagic : UInt32

def stackMagic : UInt32 := 0x19870916

def defaultPrio : UInt8 := 31

def initThread (prio : UInt8) : TaskStruct := ⟨.ready, prio, prio, 0, stackMagic⟩

def TaskStruct.copyPcb (parent : TaskStruct) : TaskStruct := { parent with
  elapsedTicks := 0
  status := .ready
  ticks := parent.priority }

structure Sched (T S W : Type) where
  links : Links (TaskElem T S)
  pcb : T → TaskStruct
  -- `value` of each semaphore
  value : S → UInt8
  -- `consumer` and `producer` of each `struct ioqueue`
  waiter : W → Option T
  -- `running_thread()`
  cur : T
  idleThread : T
  ticks : UInt32
  -- `intr_get_status() == INTR_ON`
  intrOn : Bool
  -- The tasks that were created
  tasks : List T

abbrev SchedM (T S W : Type) := Cmd Fault (Sched T S W)

namespace Sched

variable {T S W : Type} [DecidableEq T] [DecidableEq S] [DecidableEq W]

section List

def listInit (k : Links (TaskElem T S)) (plist : TaskList S) : Links (TaskElem T S) where
  next := Function.update (Function.update k.next (.head plist) (.tail plist)) (.tail plist) .null
  prev := Function.update (Function.update k.prev (.head plist) .null) (.tail plist) (.head plist)

def listPush (plist : TaskList S) (elem : TaskElem T S) : SchedM T S W Unit :=
  modify fun s => { s with links := s.links.insertBefore (s.links.next (.head plist)) elem }

def listAppend (plist : TaskList S) (elem : TaskElem T S) : SchedM T S W Unit :=
  modify fun s => { s with links := s.links.insertBefore (.tail plist) elem }

def listPop (plist : TaskList S) : SchedM T S W (TaskElem T S) := do
  let s ← get
  let elem := s.links.next (.head plist)
  modify fun s => { s with links := s.links.remove elem }
  pure elem

def listEmpty (s : Sched T S W) (plist : TaskList S)
    : Bool := s.links.next (.head plist) = .tail plist

def elem2entry (elem : TaskElem T S) : SchedM T S W T :=
  match elem with
  | .generalTag pthread => pure pthread
  | _ => throw .badPtr

variable [Fintype T]

def elemFind (plist : TaskList S) (objElem : TaskElem T S) : SchedM T S W Bool := do
  let s ← get
  match s.links.find (Fintype.card T + 1) (s.links.next (.head plist)) (.tail plist) objElem with
  | some found => pure found
  | none => throw .hang

def assertNotFound (plist : TaskList S) (elem : TaskElem T S) : SchedM T S W Unit := do
  let found ← elemFind plist elem
  Cmd.assert .panic (found = false)

def elems (s : Sched T S W) (plist : TaskList S) : List (TaskElem T S) :=
  s.links.walk (Fintype.card T + 1) (.head plist) (.tail plist)

end List

def modifyPcb (pthread : T) (f : TaskStruct → TaskStruct) : SchedM T S W Unit :=
  modify fun s => { s with pcb := Function.update s.pcb pthread (f (s.pcb pthread)) }

def setStatus (pthread : T) (stat : TaskStatus) : SchedM T S W Unit :=
  modifyPcb pthread fun p => { p with status := stat }

def intrDisable : SchedM T S W Unit := modify fun s => { s with intrOn := false }

variable [Fintype T]

def threadUnblock (pthread : T) : SchedM T S W Unit := do
  let s ← get
  Cmd.assert .panic ((s.pcb pthread).status.stopped = true)
  if (s.pcb pthread).status ≠ .ready then
    if ← elemFind .ready (.generalTag pthread) then
      throw .panic
    listPush .ready (.generalTag pthread)
    setStatus pthread .ready

def wakeIdle : SchedM T S W Unit := do
  let s ← get
  if listEmpty s .ready then
    threadUnblock s.idleThread

def switchNext : SchedM T S W Unit := do
  let s ← get
  Cmd.assert .panic (listEmpty s .ready = false)
  let threadTag ← listPop .ready
  let next ← elem2entry threadTag
  setStatus next .running
  modify fun s => { s with cur := next }

def scheduleNext : SchedM T S W Unit := do
  wakeIdle
  switchNext

def schedule : SchedM T S W Unit := do
  let s ← get
  Cmd.assert .panic (s.intrOn = false)
  if (s.pcb s.cur).status = .running then
    assertNotFound .ready (.generalTag s.cur)
    listAppend .ready (.generalTag s.cur)
    modifyPcb s.cur fun p => { p with ticks := p.priority, status := .ready }
  scheduleNext

def threadBlock (stat : TaskStatus) : SchedM T S W Unit := do
  Cmd.assert .panic (stat.stopped = true)
  intrDisable
  let s ← get
  setStatus s.cur stat
  schedule

def threadYield : SchedM T S W Unit := do
  intrDisable
  let s ← get
  assertNotFound .ready (.generalTag s.cur)
  listAppend .ready (.generalTag s.cur)
  setStatus s.cur .ready
  schedule

def semaDown (psema : S) : SchedM T S W Unit := do
  intrDisable
  let s ← get
  if s.value psema = 0 then
    assertNotFound (.waiters psema) (.generalTag s.cur)
    listAppend (.waiters psema) (.generalTag s.cur)
    threadBlock .blocked
  else
    modify fun s => { s with value := Function.update s.value psema (s.value psema - 1) }
    let s ← get
    Cmd.assert .panic (s.value psema = 0)

def semaUp (psema : S) : SchedM T S W Unit := do
  let s ← get
  Cmd.assert .panic (s.value psema = 0)
  if listEmpty s (.waiters psema) = false then
    let elem ← listPop (.waiters psema)
    let threadBlocked ← elem2entry elem
    threadUnblock threadBlocked
  modify fun s => { s with value := Function.update s.value psema (s.value psema + 1) }
  let s ← get
  Cmd.assert .panic (s.value psema = 1)

def ioqueueWait (waiter : W) : SchedM T S W Unit := do
  let s ← get
  Cmd.assert .panic (s.waiter waiter = none)
  modify fun s => { s with waiter := Function.update s.waiter waiter (some s.cur) }
  threadBlock .blocked

def wakeup (waiter : W) : SchedM T S W Unit := do
  let s ← get
  match s.waiter waiter with
  | none => throw .panic
  | some pthread =>
    threadUnblock pthread
    modify fun s => { s with waiter := Function.update s.waiter waiter none }

def addTask (thread : T) : SchedM T S W Unit := do
  assertNotFound .ready (.generalTag thread)
  listAppend .ready (.generalTag thread)
  assertNotFound .all (.allListTag thread)
  listAppend .all (.allListTag thread)
  modify fun s => { s with tasks := s.tasks ++ [thread] }

def threadStart (thread : T) (prio : UInt8) : SchedM T S W Unit := do
  modifyPcb thread fun _ => initThread prio
  addTask thread

def processExecute (thread : T) : SchedM T S W Unit := do
  modifyPcb thread fun _ => initThread defaultPrio
  addTask thread

def sysFork (childThread : T) : SchedM T S W Unit := do
  let s ← get
  modifyPcb childThread fun _ => (s.pcb s.cur).copyPcb
  addTask childThread

def intrTimerHandler : SchedM T S W Unit := do
  intrDisable
  let s ← get
  Cmd.assert .panic ((s.pcb s.cur).stackMagic = stackMagic)
  modifyPcb s.cur fun p => { p with elapsedTicks := p.elapsedTicks + 1 }
  modify fun s => { s with ticks := s.ticks + 1 }
  if (s.pcb s.cur).ticks = 0 then
    schedule
  else
    modifyPcb s.cur fun p => { p with ticks := p.ticks - 1 }

def makeMainThread : SchedM T S W Unit := do
  let s ← get
  modifyPcb s.cur fun _ => { initThread 31 with status := .running }
  assertNotFound .all (.allListTag s.cur)
  listAppend .all (.allListTag s.cur)
  modify fun s => { s with tasks := s.tasks ++ [s.cur] }

def threadInit (init idle : T) : SchedM T S W Unit := do
  modify fun s => { s with links := listInit s.links .ready }
  modify fun s => { s with links := listInit s.links .all }
  processExecute init
  makeMainThread
  threadStart idle 10
  modify fun s => { s with idleThread := idle }

end Sched

end RogOS
