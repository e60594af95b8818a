import RogOS.Lib.Mem

/-!
`print.S`: the registers that a label reads are the arguments of its function, and a jump is a call.
The 16-bit registers are as wide as they are there.
-/

namespace RogOS

structure Vga where
  mem : Mem
  index : UInt8
  crt : UInt8 → UInt8

def videoBase : Nat := 0xc00b8000

namespace Vga

def outb (v : Vga) (port : UInt16) (al : UInt8) : Vga :=
  if port = 0x03d4 then
    { v with index := al }
  else if port = 0x03d5 then
    { v with crt := Function.update v.crt v.index al }
  else
    v

def inb (v : Vga) : UInt8 := v.crt v.index

def movByte (v : Vga) (bx : UInt16) (al : UInt8)
    : Vga := { v with mem := Function.update v.mem (videoBase + bx.toNat) al }

def movWord (v : Vga) (ebx : Nat) (ax : UInt16)
    : Vga := { v with mem := v.mem.setHalf (videoBase + ebx) ax }

def jl (bx n : UInt16) : Bool := bx.toInt16 < n.toInt16

def setCursor (v : Vga) (bx : UInt16) : Vga :=
  let v := v.outb 0x03d4 0x0e
  let v := v.outb 0x03d5 (bx >>> 8).toUInt8
  let v := v.outb 0x03d4 0x0f
  v.outb 0x03d5 bx.toUInt8

def movsd : (ecx : Nat) → (esi edi : Nat) → Mem → Mem
  | 0, _, _, m => m
  | ecx + 1, esi, edi, m => movsd ecx (esi + 4) (edi + 4) (m.setWord edi (m.word esi))

def cls : (ecx : Nat) → (ebx : Nat) → Vga → Vga
  | 0, _, v => v
  | ecx + 1, ebx, v => cls ecx (ebx + 2) (v.movWord ebx 0x0720)

def rollScreen (v : Vga) : Vga :=
  let v := { v with mem := movsd 960 0xc00b80a0 0xc00b8000 v.mem }
  let v := cls 80 3840 v
  v.setCursor 1920

def isCarriageReturn (v : Vga) (bx : UInt16) : Vga :=
  let dx := bx % 80
  let bx := bx - dx
  let bx := bx + 80
  if jl bx 2000 then
    v.setCursor bx
  else
    v.rollScreen

def putOther (v : Vga) (bx : UInt16) (cl : UInt8) : Vga :=
  let bx := bx <<< 1
  let v := v.movByte bx cl
  let bx := bx + 1
  let v := v.movByte bx 0x07
  let bx := bx + 1
  let bx := bx >>> 1
  if jl bx 2000 then
    v.setCursor bx
  else
    v.isCarriageReturn bx

def isBackspace (v : Vga) (bx : UInt16) : Vga :=
  if bx = 0 then
    v.setCursor bx
  else
    let bx := bx - 1
    let bx := bx <<< 1
    let v := v.movWord bx.toNat 0x0720
    let bx := bx >>> 1
    v.setCursor bx

def putChar (v : Vga) (cl : UInt8) : Vga :=
  let v := v.outb 0x03d4 0x0e
  let ah := v.inb
  let v := v.outb 0x03d4 0x0f
  let al := v.inb
  let bx := ah.toUInt16 <<< 8 ||| al.toUInt16
  if cl = 0x0d then
    v.isCarriageReturn bx
  else if cl = 0x0a then
    v.isCarriageReturn bx
  else if cl = 0x08 then
    v.isBackspace bx
  else
    v.putOther bx cl

def putStr.go : (fuel : Nat) → (ebx : Nat) → Vga → Option Vga
  | 0, _, _ => none
  | fuel + 1, ebx, v => if v.mem ebx = 0 then some v else go fuel (ebx + 1) (v.putChar (v.mem ebx))

def putStr (v : Vga) (message : Nat) : Option Vga := putStr.go (2 ^ 32) message v

def putInt.digits (ebx : Nat) : (ecx : Nat) → (eax edx edi : UInt32) → Mem → Mem × UInt32
  | 0, _, _, edi, m => (m, edi)
  | ecx + 1, eax, edx, edi, m =>
    let edx := edx &&& 0x0000000f
    let edx := if edx.toInt32 > 9 then edx - 10 + 65 else edx + 48
    let m := Function.update m (ebx + edi.toNat) edx.toUInt8
    let edi := edi - 1
    let eax := eax >>> 4
    digits ebx ecx eax eax edi m

def putInt.skipPrefix (ebx : Nat) (m : Mem)
    : (fuel : Nat) → (edi : UInt32) → Option (UInt8 × UInt32)
  | 0, _ => none
  | fuel + 1, edi =>
    if edi = 8 then
      some (48, edi)
    else
      let cl := m (ebx + edi.toNat)
      let edi := edi + 1
      if cl = 48 then skipPrefix ebx m fuel edi else some (cl, edi - 1)

def putInt.putEachNum (ebx : Nat) : (fuel : Nat) → (cl : UInt8) → (edi : UInt32) → Vga → Option Vga
  | 0, _, _, _ => none
  | fuel + 1, cl, edi, v =>
    let v := v.putChar cl
    let edi := edi + 1
    let cl := v.mem (ebx + edi.toNat)
    if edi.toInt32 < 8 then putEachNum ebx fuel cl edi v else some v

def putInt (putIntBuffer : Nat) (v : Vga) (num : UInt32) : Option Vga :=
  let (m, edi) := putInt.digits putIntBuffer 8 num num 7 v.mem
  let v := { v with mem := m }
  let edi := edi + 1
  match putInt.skipPrefix putIntBuffer m 9 edi with
  | none => none
  | some (cl, edi) => putInt.putEachNum putIntBuffer 9 cl edi v

end Vga

end RogOS
