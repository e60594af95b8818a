import RogOS.Fs.Impl.Syscall

/-!
`exec.c`: the loader of ELF files.
-/

namespace RogOS

structure Elf32Ehdr where
  bytes : Mem

namespace Elf32Ehdr

variable (h : Elf32Ehdr)

def size : Nat := 52

def eType : UInt16 := h.bytes.half 16
def eMachine : UInt16 := h.bytes.half 18
def eVersion : UInt32 := h.bytes.word 20
def eEntry : UInt32 := h.bytes.word 24
def ePhoff : UInt32 := h.bytes.word 28
def ePhentsize : UInt16 := h.bytes.half 42
def ePhnum : UInt16 := h.bytes.half 44

def magic : List UInt8 := [0x7f, 69, 76, 70, 1, 1, 1]

def ok : Bool :=
  (List.range 7).map h.bytes == magic && h.eType == 2 && h.eMachine == 3 && h.eVersion == 1
    && decide (h.ePhnum ≤ 1024)
    && h.ePhentsize == 32

end Elf32Ehdr

structure Elf32Phdr where
  bytes : Mem

namespace Elf32Phdr

variable (h : Elf32Phdr)

def size : Nat := 32

def pType : UInt32 := h.bytes.word 0
def pOffset : UInt32 := h.bytes.word 4
def pVaddr : UInt32 := h.bytes.word 8
def pFilesz : UInt32 := h.bytes.word 16
def pMemsz : UInt32 := h.bytes.word 20

end Elf32Phdr

def ptLoad : UInt32 := 1

structure Proc where
  fs : Fs
  -- The pages that are present
  mapped : Nat → Bool
  -- `userprog_vaddr.vaddr_bitmap.bits`
  vaddrBits : Mem
  -- The virtual memory; a page that is not present holds what is left in the frame that it will
  -- get. The kernel works with the other members, whatever is written to its part of the memory.
  mem : Mem
  -- The number of frames in the pool of user frames
  frames : Nat
  name : Mem

abbrev ProcM := Cmd Fault Proc

namespace Proc

def onFs {α : Type} (x : FsM α) : ProcM α := Cmd.zoom Proc.fs (fun p s => { p with fs := s }) x

end Proc

def getAPage (vaddr : UInt32) : ProcM Bool := do
  let bitIdx := (vaddr - 0x8048000) / 4096
  Cmd.assert .panic (0 < bitIdx)
  Cmd.assert .overrun (bitIdx.toNat < (0xc0000000 - 0x8048000) / 4096)
  modify fun p => { p with vaddrBits := p.vaddrBits.setBit bitIdx.toNat true }
  let p ← get
  Cmd.assert .panic (0 < p.frames)
  modify fun p =>
    { p with mapped := Function.update p.mapped (vaddr.toNat / 4096) true, frames := p.frames - 1 }
  pure true

namespace segmentLoad

def occupyPages (filesz vaddr : UInt32) : UInt32 :=
  let sizeInFirstPage := 4096 - (vaddr &&& 0xfff)
  if sizeInFirstPage < filesz then
    let leftSize := filesz - sizeInFirstPage
    (leftSize + 4096 - 1) / 4096 + 1
  else
    1

def mapPages : (n : Nat) → (vaddrPage : UInt32) → ProcM Bool
  | 0, _ => pure true
  | n + 1, vaddrPage => do
    let p ← get
    if p.mapped (vaddrPage.toNat / 4096) = false then
      if ← getAPage vaddrPage then
        mapPages n (vaddrPage + 4096)
      else
        pure false
    else
      mapPages n (vaddrPage + 4096)

end segmentLoad

def Proc.present (p : Proc) (a len : Nat) : Bool :=
  (List.range ((a % 4096 + len + 4095) / 4096)).all fun k => p.mapped (a / 4096 + k)

structure ExecContext where
  ebx : UInt32
  ecx : UInt32
  eip : UInt32
  esp : UInt32

def Proc.cstr (p : Proc) (a : UInt32)
    : CStr := ⟨p.mem.chars a.toNat (2 ^ 32), Mem.zero_not_mem_chars⟩

section Load

variable (task : Nat) (kbd : Mem)

def readToUser (fd : Int) (vaddr count : UInt32) : ProcM Unit := do
  let p ← get
  let r ← Proc.onFs (sysRead task kbd fd (p.mem.shift vaddr.toNat) count)
  Cmd.assert .badPtr (p.present vaddr.toNat r.1.toNat)
  modify fun p => { p with mem := p.mem.blit vaddr.toNat r.1.toNat r.2 }

def segmentLoad (fd : Int) (offset filesz vaddr : UInt32) : ProcM Bool := do
  if ← segmentLoad.mapPages (segmentLoad.occupyPages filesz vaddr).toNat (vaddr &&& 0xfffff000) then
    let _ ← Proc.onFs (sysLseek task fd offset.toInt32 seekSet)
    readToUser task kbd fd vaddr filesz
    pure true
  else
    pure false

def loadHeaders (fd : Int) : (n : Nat) → (progHeaderOffset : UInt32) → ProcM Bool
  | 0, _ => pure true
  | n + 1, progHeaderOffset => do
    let _ ← Proc.onFs (sysLseek task fd progHeaderOffset.toInt32 seekSet)
    let (k, bytes) ← Proc.onFs (sysRead task kbd fd Mem.zero 32)
    if k ≠ Elf32Phdr.size then
      pure false
    else
      let progHeader : Elf32Phdr := ⟨bytes⟩
      if progHeader.pType = ptLoad then
        if ← segmentLoad task kbd fd progHeader.pOffset progHeader.pFilesz progHeader.pVaddr then
          loadHeaders fd n (progHeaderOffset + 32)
        else
          pure false
      else
        loadHeaders fd n (progHeaderOffset + 32)

def loadFile (fd : Int) : ProcM Int := do
  let (k, bytes) ← Proc.onFs (sysRead task kbd fd Mem.zero 52)
  if k ≠ Elf32Ehdr.size then
    pure (-1)
  else
    let elfHeader : Elf32Ehdr := ⟨bytes⟩
    if elfHeader.ok then
      if ← loadHeaders task kbd fd elfHeader.ePhnum.toNat elfHeader.ePhoff then
        pure elfHeader.eEntry.toInt32.toInt
      else
        pure (-1)
    else
      pure (-1)

variable (part : Partition) (junk : UInt32)

def load (pathname : CStr) : ProcM Int := do
  let fd ← Proc.onFs (sysOpen part task junk pathname 0)
  if fd = -1 then
    pure (-1)
  else
    let ret ← loadFile task kbd fd
    let _ ← Proc.onFs (sysClose task fd)
    pure ret

/--
The loop of `sys_execv` over `argv`; without a null pointer it goes round the address space for
ever.
-/
def argcFrom (argv : UInt32) : (fuel : Nat) → (argc : UInt32) → ProcM UInt32
  | 0, _ => throw .hang
  | fuel + 1, argc => do
    let p ← get
    let a := (argv + 4 * argc).toNat
    Cmd.assert .badPtr (p.present a 4)
    if p.mem.word a = 0 then
      pure argc
    else
      argcFrom argv fuel (argc + 1)

def sysExecv (pathname argv : UInt32) : ProcM (Option ExecContext) := do
  let argc ← argcFrom argv (2 ^ 30) 0
  let p ← get
  let path := p.cstr pathname
  Cmd.assert .badPtr (p.present pathname.toNat (path.chars.length + 1))
  let entryPoint ← load task kbd part junk path
  if entryPoint = -1 then
    pure none
  else
    let p ← get
    Cmd.assert .badPtr (p.present pathname.toNat 16)
    modify fun p =>
      { p with name := (p.name.blit 0 16 (p.mem.shift pathname.toNat)).blit 15 1 Mem.zero }
    pure (some ⟨argv, argc, (Int32.ofInt entryPoint).toUInt32, 0xc0000000⟩)

end Load

end RogOS
