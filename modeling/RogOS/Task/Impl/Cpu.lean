import RogOS.Lib.DList

/-!
The instructions that `kernel.S` and `switch.S` are made of, and the routines written with them.
-/

namespace RogOS

inductive Reg where
  | eax
  | ecx
  | edx
  | ebx
  | esp
  | ebp
  | esi
  | edi
  deriving DecidableEq

inductive Seg where
  | ds
  | es
  | fs
  | gs
  deriving DecidableEq

@[ext]
structure Regs where
  gpr : Reg → UInt32
  seg : Seg → UInt16
  eip : UInt32
  cs : UInt16
  eflags : UInt32
  ss : UInt16

def Regs.set (r : Regs) (x : Reg) (v : UInt32) : Regs := { r with gpr := Function.update r.gpr x v }

structure Cpu where
  regs : Regs
  mem : Mem

namespace Cpu

variable (c : Cpu)

abbrev esp : UInt32 := c.regs.gpr .esp

def setReg (x : Reg) (v : UInt32) : Cpu := { c with regs := c.regs.set x v }

def push (v : UInt32) : Cpu :=
  let esp := c.esp - 4
  { regs := c.regs.set .esp esp, mem := c.mem.setWord esp.toNat v }

def top : UInt32 := c.mem.word c.esp.toNat

def drop : Cpu := c.setReg .esp (c.esp + 4)

def popReg (x : Reg) : Cpu := c.drop.setReg x c.top

def popSeg (s : Seg)
    : Cpu := { c.drop with
        regs := { c.drop.regs with seg := Function.update c.regs.seg s c.top.toUInt16 } }

end Cpu

inductive Instr where
  | push (x : Reg)
  | pushSeg (s : Seg)
  | pushImm (v : UInt32)
  | pushad
  | pop (x : Reg)
  | popSeg (s : Seg)
  | popad
  -- `add esp, n`
  | addEsp (n : UInt32)
  -- `mov dst, [base + off]`
  | load (dst base : Reg) (off : UInt32)
  -- `mov [base + off], src`
  | store (base : Reg) (off : UInt32) (src : Reg)
  | ret
  | iretd

def Instr.exec (c : Cpu) : Instr → Cpu
  | .push x => c.push (c.regs.gpr x)
  | .pushSeg s => c.push (c.regs.seg s).toUInt32
  | .pushImm v => c.push v
  | .pushad =>
    [.eax, .ecx, .edx, .ebx, .esp, .ebp, .esi, .edi].foldl (fun c' x => c'.push (c.regs.gpr x)) c
  | .pop x => c.popReg x
  | .popSeg s => c.popSeg s
  | .popad =>
    let c := [Reg.edi, .esi, .ebp].foldl Cpu.popReg c
    [Reg.ebx, .edx, .ecx, .eax].foldl Cpu.popReg c.drop
  | .addEsp n => c.setReg .esp (c.esp + n)
  | .load dst base off => c.setReg dst (c.mem.word (c.regs.gpr base + off).toNat)
  | .store base off src =>
    { c with mem := c.mem.setWord (c.regs.gpr base + off).toNat (c.regs.gpr src) }
  | .ret => { c.drop with regs := { c.drop.regs with eip := c.top } }
  | .iretd =>
    let eip := c.top
    let c := c.drop
    let cs := c.top.toUInt16
    let c := c.drop
    let eflags := c.top
    let c := c.drop
    let esp := c.top
    let c := c.drop
    { c with regs := { c.regs.set .esp esp with
      eip := eip, cs := cs, eflags := eflags, ss := c.top.toUInt16 } }

def Cpu.run (c : Cpu) (code : List Instr) : Cpu := code.foldl Instr.exec c

/--
`int 0x80` in user mode: the stack of `tss.esp0` gets the context that `iretd` takes from it.
`kernel` are the registers that the gate and the TSS determine: `cs`, `ss`, `eip` and the flags.
-/
def Cpu.interrupt (c : Cpu) (esp0 : UInt32) (kernel : Regs) : Cpu :=
  let user := c.regs
  let c := c.setReg .esp esp0
  let c := c.push user.ss.toUInt32
  let c := c.push (user.gpr .esp)
  let c := c.push user.eflags
  let c := c.push user.cs.toUInt32
  let c := c.push user.eip
  { c with regs := { c.regs with
    eip := kernel.eip, cs := kernel.cs, eflags := kernel.eflags, ss := kernel.ss } }

section Routines

def syscallHandler : List Instr :=
  [.pushImm 0, .pushSeg .ds, .pushSeg .es, .pushSeg .fs, .pushSeg .gs, .pushad, .pushImm 0x80,
    .push .edx, .push .ecx,
    .push .ebx]

def intrExit : List Instr :=
  [.addEsp 4, .popad, .popSeg .gs, .popSeg .fs, .popSeg .es, .popSeg .ds, .addEsp 4, .iretd]

def syscallReturn : List Instr := [.addEsp 12, .store .esp (8 * 4) .eax] ++ intrExit

def switchTo : List Instr :=
  [.push .esi, .push .edi, .push .ebx, .push .ebp, .load .eax .esp 20, .store .eax 0 .esp,
    .load .eax .esp 24,
    .load .esp .eax 0, .pop .ebp, .pop .ebx, .pop .edi, .pop .esi, .ret]

end Routines

end RogOS
