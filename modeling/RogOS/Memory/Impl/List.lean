import RogOS.Lib.DList

/-!
`list.c`: a `struct list_elem` is two words, `prev` and `next`; a `struct list` is the element
`head` followed by the element `tail`.
-/

namespace RogOS

variable (m : Mem)

def listTail (plist : Nat) : Nat := plist + 8

def listInit (list : Nat) : Mem :=
  let m := m.setWord list 0
  let m := m.setWord (list + 4) (UInt32.ofNat (listTail list))
  let m := m.setWord (listTail list) (UInt32.ofNat list)
  m.setWord (listTail list + 4) 0

def listInsertBefore (before elem : Nat) : Mem :=
  let m := m.setWord elem (m.word before)
  let m := m.setWord (elem + 4) (UInt32.ofNat before)
  let m := m.setWord ((m.word before).toNat + 4) (UInt32.ofNat elem)
  m.setWord before (UInt32.ofNat elem)

def listAppend (plist elem : Nat) : Mem := listInsertBefore m (listTail plist) elem

def listPush (plist elem : Nat) : Mem := listInsertBefore m (m.word (plist + 4)).toNat elem

def listRemove (pelem : Nat) : Mem :=
  let m := m.setWord ((m.word pelem).toNat + 4) (m.word (pelem + 4))
  m.setWord (m.word (pelem + 4)).toNat (m.word pelem)

def listPop (plist : Nat) : Nat × Mem :=
  let elem := (m.word (plist + 4)).toNat
  (elem, listRemove m elem)

def elemFind (plist objElem : Nat) : Option Bool :=
  m.links.find (2 ^ 32) (m.word (plist + 4)).toNat (listTail plist) objElem

def listEmpty (plist : Nat) : Bool := (m.word (plist + 4)).toNat == listTail plist

def listLen.go (tail : Nat) : (fuel : Nat) → (elem : Nat) → (length : UInt32) → Option UInt32
  | 0, _, _ => none
  | fuel + 1, elem, length =>
    if elem ≠ tail then
      go tail fuel (m.word (elem + 4)).toNat (length + 1)
    else
      some length

def listLen (plist : Nat)
    : Option UInt32 := listLen.go m (listTail plist) (2 ^ 32) (m.word (plist + 4)).toNat 0

abbrev ListFunction := (elem : Nat) → (arg : UInt32) → Mem → Bool × Mem

def listTraversal.go (func : ListFunction) (arg : UInt32) (tail : Nat)
    : (fuel : Nat) → (elem : Nat) → Mem →
    Option (Option Nat × Mem)
  | 0, _, _ => none
  | fuel + 1, elem, m =>
    if elem ≠ tail then
      match func elem arg m with
      | (true, m) => some (some elem, m)
      | (false, m) => go func arg tail fuel (m.word (elem + 4)).toNat m
    else
      some (none, m)

def listTraversal (plist : Nat) (func : ListFunction) (arg : UInt32) : Option (Option Nat × Mem) :=
  if listEmpty m plist then
    some (none, m)
  else
    listTraversal.go func arg (listTail plist) (2 ^ 32) (m.word (plist + 4)).toNat m

def listElems (plist : Nat) : List Nat := m.links.walk (2 ^ 32) plist (listTail plist)

end RogOS
