import RogOS.Fs.Impl.Bitmap
import RogOS.Lib.Mmu
import RogOS.Memory.Impl.Heap

/-!
The pages of `memory.c`: the pools of frames, the bitmap of the kernel heap and the page tables in
physical memory. Virtual addresses are translated by the tables of the directory in `cr3`; an access
to an address that is not mapped does not return. The locks of the pools are left out.
-/

namespace RogOS

structure Pool where
  poolBitmap : Bitmap
  phyAddrStart : UInt32

structure VirtualAddr where
  vaddrBitmap : Bitmap
  vaddrStart : UInt32

structure TaskMem where
  pgdir : UInt32
  vaddrStart : UInt32
  btmpBytesLen : Nat
  bits : UInt32
  deriving DecidableEq

structure Paging where
  phys : Mem
  cr3 : UInt32
  kernelPool : Pool
  userPool : Pool
  kernelVaddr : VirtualAddr
  -- `running_thread()`
  cur : TaskMem

inductive PoolFlags where
  | kernel
  | user
  deriving DecidableEq

abbrev PagingM := Cmd Fault Paging

namespace Paging

def pool (s : Paging) : PoolFlags → Pool
  | .kernel => s.kernelPool
  | .user => s.userPool

def setPool (s : Paging) (p : Pool) : PoolFlags → Paging
  | .kernel => { s with kernelPool := p }
  | .user => { s with userPool := p }

def setPhys (s : Paging) (m : Mem) : Paging := { s with phys := m }

def walk (s : Paging) (vaddr : UInt32) : Option Nat := Mmu.walk s.phys (Mmu.frame s.cr3) vaddr

def virt (s : Paging) : Mem := fun a =>
  match s.walk (UInt32.ofNat a) with
  | none => 0
  | some p => s.phys p

def translate (vaddr : UInt32) : PagingM Nat := do
  let s ← get
  match s.walk vaddr with
  | none => throw .badPtr
  | some a => pure a

def readWord (vaddr : UInt32) : PagingM UInt32 := do
  let a ← translate vaddr
  let s ← get
  pure (s.phys.word a)

def writeWord (vaddr : UInt32) (w : UInt32) : PagingM Unit := do
  let a ← translate vaddr
  modify fun s => s.setPhys (s.phys.setWord a w)

def writeRange (dst : UInt32) (len : Nat) (src : Mem) : PagingM Unit := do
  let a ← translate dst
  modify fun s => s.setPhys (s.phys.blit a len src)

def copyRange (dst src : UInt32) (len : Nat) : PagingM Unit := do
  let a ← translate src
  let s ← get
  writeRange dst len (s.phys.shift a)

def copyPages : (n : Nat) → (dst src : UInt32) → PagingM Unit
  | 0, _, _ => pure ()
  | n + 1, dst, src => do
    copyRange dst src 4096
    copyPages n (dst + 4096) (src + 4096)

def zeroPages : (n : Nat) → (dst : UInt32) → PagingM Unit
  | 0, _ => pure ()
  | n + 1, dst => do
    writeRange dst 4096 Mem.zero
    zeroPages n (dst + 4096)

def memset (dst : UInt32) (len : Nat) : PagingM Unit := do
  zeroPages (len / 4096) dst
  if len % 4096 ≠ 0 then
    writeRange (dst + UInt32.ofNat (len / 4096 * 4096)) (len % 4096) Mem.zero

def userBitmap (s : Paging) : Bitmap := ⟨s.cur.btmpBytesLen, s.virt.shift s.cur.bits.toNat⟩

def userBitmapSet (bitIdx : Nat) (value : Bool) : PagingM Unit := do
  let s ← get
  let a ← translate (s.cur.bits + UInt32.ofNat (bitIdx / 8))
  modify fun s => s.setPhys (s.phys.setBit (8 * a + bitIdx % 8) value)

def userBitmapSetAll (bitIdx : Nat) (value : Bool) : (n : Nat) → PagingM Unit
  | 0 => pure ()
  | n + 1 => do
    userBitmapSet bitIdx value
    userBitmapSetAll (bitIdx + 1) value n

def kernelBitmapSet (bitIdx n : Nat) (value : Bool) : PagingM Unit := do
  let s ← get
  Cmd.assert .overrun (bitIdx + n ≤ 8 * (s.kernelVaddr.vaddrBitmap.btmpBytesLen + 1))
  modify fun s =>
    { s with kernelVaddr.vaddrBitmap.bits := s.kernelVaddr.vaddrBitmap.bits.setBits bitIdx value n }

def vaddrGet (pf : PoolFlags) (pgCnt : UInt32) : PagingM (Option UInt32) := do
  let s ← get
  match pf with
  | .kernel =>
    match ← bitmapScan s.kernelVaddr.vaddrBitmap pgCnt with
    | none => pure none
    | some bitIdxStart =>
      kernelBitmapSet bitIdxStart pgCnt.toNat true
      pure (some (s.kernelVaddr.vaddrStart + UInt32.ofNat bitIdxStart * 4096))
  | .user =>
    match ← bitmapScan s.userBitmap pgCnt with
    | none => pure none
    | some bitIdxStart =>
      userBitmapSetAll bitIdxStart true pgCnt.toNat
      let vaddrStart := s.cur.vaddrStart + UInt32.ofNat bitIdxStart * 4096
      Cmd.assert .panic (vaddrStart < 0xc0000000 - 4096)
      pure (some vaddrStart)

def pdeIdx (addr : UInt32) : UInt32 := (addr &&& 0xffc00000) >>> 22

def pteIdx (addr : UInt32) : UInt32 := (addr &&& 0x003ff000) >>> 12

def ptePtr (vaddr : UInt32)
    : UInt32 := (0xffc00000 : UInt32) + ((vaddr &&& 0xffc00000) >>> 10) + pteIdx vaddr * 4

def pdePtr (vaddr : UInt32) : UInt32 := 0xfffff000 + pdeIdx vaddr * 4

def palloc (pf : PoolFlags) : PagingM (Option UInt32) := do
  let s ← get
  match ← bitmapScan (s.pool pf).poolBitmap 1 with
  | none => pure none
  | some bitIdx =>
    let b ← bitmapSet (s.pool pf).poolBitmap bitIdx true
    modify fun s => s.setPool { s.pool pf with poolBitmap := b } pf
    pure (some ((s.pool pf).phyAddrStart + UInt32.ofNat bitIdx * 4096))

def pageTableAdd (vaddr pagePhyaddr : UInt32) : PagingM Unit := do
  let pde ← readWord (pdePtr vaddr)
  if pde &&& 1 ≠ 0 then
    let pte ← readWord (ptePtr vaddr)
    Cmd.assert .panic (pte &&& 1 = 0)
    writeWord (ptePtr vaddr) (pagePhyaddr ||| 7)
  else
    -- the table is a frame of the kernel, and it is reached by the new entry of the directory
    let pdePhyaddr ← palloc .kernel
    writeWord (pdePtr vaddr) (pdePhyaddr.getD 0 ||| 7)
    writeRange (ptePtr vaddr &&& 0xfffff000) 4096 Mem.zero
    let pte ← readWord (ptePtr vaddr)
    Cmd.assert .panic (pte &&& 1 = 0)
    writeWord (ptePtr vaddr) (pagePhyaddr ||| 7)

def mapPages (pf : PoolFlags) : (n : Nat) → (vaddr : UInt32) → PagingM Bool
  | 0, _ => pure true
  | n + 1, vaddr => do
    match ← palloc pf with
    | none => pure false
    | some pagePhyaddr =>
      pageTableAdd vaddr pagePhyaddr
      mapPages pf n (vaddr + 4096)

def mallocPage (pf : PoolFlags) (pgCnt : UInt32) : PagingM (Option UInt32) := do
  Cmd.assert .panic (0 < pgCnt ∧ pgCnt < 3840)
  match ← vaddrGet pf pgCnt with
  | none => pure none
  | some vaddrStart =>
    if ← mapPages pf pgCnt.toNat vaddrStart then
      pure (some vaddrStart)
    else
      pure none

def getKernelPages (pgCnt : UInt32) : PagingM (Option UInt32) := do
  match ← mallocPage .kernel pgCnt with
  | none => pure none
  | some vaddr =>
    memset vaddr (pgCnt * 4096).toNat
    pure (some vaddr)

def getAPage (pf : PoolFlags) (vaddr : UInt32) : PagingM (Option UInt32) := do
  let s ← get
  if s.cur.pgdir ≠ 0 ∧ pf = .user then
    let bitIdx := (vaddr - s.cur.vaddrStart) / 4096
    Cmd.assert .panic (0 < bitIdx)
    userBitmapSet bitIdx.toNat true
  else if s.cur.pgdir = 0 ∧ pf = .kernel then
    let bitIdx := (vaddr - s.kernelVaddr.vaddrStart) / 4096
    Cmd.assert .panic (0 < bitIdx)
    kernelBitmapSet bitIdx.toNat 1 true
  else
    throw .panic
  match ← palloc pf with
  | none => pure none
  | some pagePhyaddr =>
    pageTableAdd vaddr pagePhyaddr
    pure (some vaddr)

def getAPageWithoutOpvaddrbitmap (pf : PoolFlags) (vaddr : UInt32) : PagingM (Option UInt32) := do
  match ← palloc pf with
  | none => pure none
  | some pagePhyaddr =>
    pageTableAdd vaddr pagePhyaddr
    pure (some vaddr)

def addrV2p (vaddr : UInt32) : PagingM UInt32 := do
  let pte ← readWord (ptePtr vaddr)
  pure ((pte &&& 0xfffff000) + (vaddr &&& 0x00000fff))

def pfree (pgPhyAddr : UInt32) : PagingM Unit := do
  let s ← get
  let pf := if s.userPool.phyAddrStart ≤ pgPhyAddr then PoolFlags.user else PoolFlags.kernel
  let bitIdx := (pgPhyAddr - (s.pool pf).phyAddrStart) / 4096
  let b ← bitmapSet (s.pool pf).poolBitmap bitIdx.toNat false
  modify fun s => s.setPool { s.pool pf with poolBitmap := b } pf

def pageTablePteRemove (vaddr : UInt32) : PagingM Unit := do
  let pte ← readWord (ptePtr vaddr)
  writeWord (ptePtr vaddr) (pte &&& ~~~1)

def vaddrRemove (pf : PoolFlags) (vaddr : UInt32) (pgCnt : UInt32) : PagingM Unit := do
  let s ← get
  match pf with
  | .kernel => kernelBitmapSet ((vaddr - s.kernelVaddr.vaddrStart) / 4096).toNat pgCnt.toNat false
  | .user => userBitmapSetAll ((vaddr - s.cur.vaddrStart) / 4096).toNat false pgCnt.toNat

def InPool (s : Paging) (pf : PoolFlags) (pgPhyAddr : UInt32) : Prop :=
  match pf with
  | .user => pgPhyAddr % 4096 = 0 ∧ s.userPool.phyAddrStart ≤ pgPhyAddr
  | .kernel => pgPhyAddr % 4096 = 0 ∧ s.kernelPool.phyAddrStart ≤ pgPhyAddr
      ∧ pgPhyAddr < s.userPool.phyAddrStart

instance inPoolDecidable (s : Paging) (pf : PoolFlags) (pgPhyAddr : UInt32)
    : Decidable (s.InPool pf pgPhyAddr) :=
  match pf with
  | .user => inferInstanceAs (Decidable (_ ∧ _))
  | .kernel => inferInstanceAs (Decidable (_ ∧ _))

def unmapPages (pool : PoolFlags) : (n : Nat) → (vaddr : UInt32) → PagingM Unit
  | 0, _ => pure ()
  | n + 1, vaddr => do
    let pgPhyAddr ← addrV2p vaddr
    let s ← get
    Cmd.assert .panic (s.InPool pool pgPhyAddr)
    pfree pgPhyAddr
    pageTablePteRemove vaddr
    unmapPages pool n (vaddr + 4096)

def mfreePage (pf : PoolFlags) (vaddr : UInt32) (pgCnt : UInt32) : PagingM Unit := do
  Cmd.assert .panic (1 ≤ pgCnt ∧ vaddr % 4096 = 0)
  let pgPhyAddr ← addrV2p vaddr
  Cmd.assert .panic (pgPhyAddr % 4096 = 0 ∧ 0x102000 ≤ pgPhyAddr)
  let s ← get
  unmapPages (if s.userPool.phyAddrStart ≤ pgPhyAddr then .user else .kernel) pgCnt.toNat vaddr
  vaddrRemove pf vaddr pgCnt

def initBitmap (len : Nat) (bits : Mem) : Bitmap := ⟨len, bits.blit 0 len Mem.zero⟩

def memPoolInit (allMem : UInt32) (s : Paging) : Paging :=
  let kbmLength := (kernelFreePages allMem / 8).toNat
  let ubmLength := (userFreePages allMem / 8).toNat
  let kpStart : UInt32 := 4096 * 256 + 0x100000
  let upStart := kpStart + (kernelFreePages allMem).toUInt32 * 4096
  { s with
    kernelPool := ⟨initBitmap kbmLength s.kernelPool.poolBitmap.bits, kpStart⟩
    userPool := ⟨initBitmap ubmLength s.userPool.poolBitmap.bits, upStart⟩
    kernelVaddr := ⟨initBitmap kbmLength s.kernelVaddr.vaddrBitmap.bits, 0xc0100000⟩ }

end Paging

end RogOS
