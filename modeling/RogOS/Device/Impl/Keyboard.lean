import RogOS.Device.Impl.Ioqueue

/-!
`keyboard.c`: the handler of the keyboard interrupt, and the bytes that the keys send.
-/

namespace RogOS

def shiftLMake : UInt16 := 0x2a
def shiftRMake : UInt16 := 0x36
def altLMake : UInt16 := 0x38
def altRMake : UInt16 := 0xe038
def ctrlLMake : UInt16 := 0x1d
def ctrlRMake : UInt16 := 0xe01d
def capsLockMake : UInt16 := 0x3a

structure Keyboard where
  ctrlStatus : Bool
  shiftStatus : Bool
  altStatus : Bool
  capsLockStatus : Bool
  -- The last byte was `0xe0`.
  extScancode : Bool
  deriving DecidableEq, Repr

def keymap : Array (UInt8 × UInt8) :=
  #[(0, 0), (27, 27), (49, 33), (50, 64), (51, 35), (52, 36), (53, 37), (54, 94),
    (55, 38), (56, 42), (57, 40), (48, 41), (45, 95), (61, 43), (8, 8), (9, 9),
    (113, 81), (119, 87), (101, 69), (114, 82), (116, 84), (121, 89), (117, 85), (105, 73),
    (111, 79), (112, 80), (91, 123), (93, 125), (13, 13), (0, 0), (97, 65), (115, 83),
    (100, 68), (102, 70), (103, 71), (104, 72), (106, 74), (107, 75), (108, 76), (59, 58),
    (39, 34), (96, 126), (0, 0), (92, 124), (122, 90), (120, 88), (99, 67), (118, 86),
    (98, 66), (110, 78), (109, 77), (44, 60), (46, 62), (47, 63), (0, 0), (42, 42),
    (0, 0), (32, 32), (0, 0)]

def isTwoChars (scancode : UInt16) : Bool :=
  scancode < 0x0e || scancode = 0x29 || scancode = 0x1a || scancode = 0x1b || scancode = 0x2b
    || scancode = 0x27
    || scancode = 0x28 || scancode = 0x33 || scancode = 0x34 || scancode = 0x35

def shiftColumn (scancode : UInt16) (shiftDownLast capsLockLast : Bool) : Bool :=
  if isTwoChars scancode then
    shiftDownLast
  else if shiftDownLast && capsLockLast then
    false
  else
    shiftDownLast || capsLockLast

def curChar (index : UInt16) (shift : Bool) : UInt8 :=
  let row := keymap.getD index.toNat (0, 0)
  if shift then row.2 else row.1

def shortcut (ctrlDownLast : Bool) (c : UInt8) : UInt8 :=
  if (ctrlDownLast && c == 108) || (ctrlDownLast && c == 117) then c - 97 else c

structure Key where
  ext : Bool
  code : UInt8
  pos : 0 < code
  lt : code < 0x80
  -- The break code is not `0xe0`.
  ne : code ≠ 0x60
  deriving DecidableEq

namespace Key

def shiftL : Key := ⟨false, 0x2a, by decide, by decide, by decide⟩
def shiftR : Key := ⟨false, 0x36, by decide, by decide, by decide⟩
def altL : Key := ⟨false, 0x38, by decide, by decide, by decide⟩
def altR : Key := ⟨true, 0x38, by decide, by decide, by decide⟩
def ctrlL : Key := ⟨false, 0x1d, by decide, by decide, by decide⟩
def ctrlR : Key := ⟨true, 0x1d, by decide, by decide, by decide⟩
def capsLock : Key := ⟨false, 0x3a, by decide, by decide, by decide⟩

def makeCode (k : Key) : List UInt8 := (if k.ext then [0xe0] else []) ++ [k.code]

def breakCode (k : Key) : List UInt8 := (if k.ext then [0xe0] else []) ++ [k.code ||| 0x80]

end Key

structure KbdSys (T : Type) where
  kbd : Keyboard
  -- `kbd_buf`, and the status of the tasks
  kbdBuf : IoqState T
  held : Key → Bool
  capsPresses : Nat

abbrev KbdM (T : Type) := Cmd Fault (KbdSys T)

namespace KbdSys

variable {T : Type} [DecidableEq T]

def setKbd (f : Keyboard → Keyboard) : KbdM T Unit := modify fun s => { s with kbd := f s.kbd }

def onBuf {α : Type} (x : IoqM T α)
    : KbdM T α := Cmd.zoom KbdSys.kbdBuf (fun s q => { s with kbdBuf := q }) x

def breakHandler (scancode : UInt16) : KbdM T Unit := do
  let makeCode := scancode &&& 0xff7f
  if makeCode = ctrlLMake ∨ makeCode = ctrlRMake then
    setKbd fun k => { k with ctrlStatus := false }
  else if makeCode = shiftLMake ∨ makeCode = shiftRMake then
    setKbd fun k => { k with shiftStatus := false }
  else if makeCode = altLMake ∨ makeCode = altRMake then
    setKbd fun k => { k with altStatus := false }

def makeHandler (t : T) (scancode : UInt16) : KbdM T Unit := do
  let s ← get
  if (0 < scancode ∧ scancode < 0x3b) ∨ scancode = altRMake ∨ scancode = ctrlRMake then
    let shift := shiftColumn scancode s.kbd.shiftStatus s.kbd.capsLockStatus
    let scancode := scancode &&& 0x00ff
    Cmd.assert .overrun (scancode.toNat < keymap.size)
    if curChar scancode shift ≠ 0 then
      if ¬ ioqueueFull s.kbdBuf.ioq then
        let _ ← onBuf (ioqueuePutchar t (shortcut s.kbd.ctrlStatus (curChar scancode shift)))
    else if scancode = ctrlLMake ∨ scancode = ctrlRMake then
      setKbd fun k => { k with ctrlStatus := true }
    else if scancode = shiftLMake ∨ scancode = shiftRMake then
      setKbd fun k => { k with shiftStatus := true }
    else if scancode = capsLockMake then
      setKbd fun k => { k with capsLockStatus := !k.capsLockStatus }

def intrKeyboardHandler (t : T) (byte : UInt8) : KbdM T Unit := do
  let s ← get
  if byte.toUInt16 = 0xe0 then
    setKbd fun k => { k with extScancode := true }
  else
    let scancode := if s.kbd.extScancode then 0xe000 ||| byte.toUInt16 else byte.toUInt16
    setKbd fun k => { k with extScancode := false }
    if scancode &&& 0x0080 ≠ 0 then
      breakHandler scancode
    else
      makeHandler t scancode

def interrupts (t : T) : List UInt8 → KbdM T Unit
  | [] => pure ()
  | b :: bs => do
    intrKeyboardHandler t b
    interrupts t bs

end KbdSys

inductive KbdOp (T : Type) where
  -- A key is pressed while the task is running.
  | press (t : T) (k : Key)
  | release (t : T) (k : Key)
  -- The tasks have used the queue.
  | tasks (kbdBuf : IoqState T)

namespace KbdSys

variable {T : Type} [DecidableEq T]

def exec : KbdOp T → KbdM T Unit
  | .press t k => do
    interrupts t k.makeCode
    modify fun s => { s with
      held := Function.update s.held k true
      capsPresses := if k = Key.capsLock then s.capsPresses + 1 else s.capsPresses }
  | .release t k => do
    interrupts t k.breakCode
    modify fun s => { s with held := Function.update s.held k false }
  | .tasks kbdBuf => modify fun s => { s with kbdBuf := kbdBuf }

def Allowed (s : KbdSys T) : KbdOp T → Prop
  | .press _ k => s.held k = false
  | .release _ k => s.held k = true
  | .tasks _ => True

def start (kbdBuf : IoqState T)
    : KbdSys T := ⟨⟨false, false, false, false, false⟩, kbdBuf, fun _ => false, 0⟩

end KbdSys

end RogOS
