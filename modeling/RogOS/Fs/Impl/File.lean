import RogOS.Fs.Impl.Inode

/-!
`file_write` and `file_read` of `file.c`. The open inode and the position of the file are passed in
and returned with the changes made to them.
-/

namespace RogOS

variable (part : Partition)

namespace fileWrite

/--
The loops of the three situations that allocate the blocks `blockIdx .. blockIdx + n - 1`. In the
first situation every index is below 12, in the third one none is. `false` is a failed allocation.
-/
def allocBlocks (alloc : VolM (Option UInt32))
    : (n blockIdx : Nat) → (blocks : Nat → UInt32) → (inode : Inode)
      → VolM (Bool × (Nat → UInt32) × Inode)
  | 0, _, blocks, inode => pure (true, blocks, inode)
  | n + 1, blockIdx, blocks, inode => do
    match ← alloc with
    | none => pure (false, blocks, inode)
    | some lba =>
      if blockIdx < 12 then
        Cmd.assert .panic (inode.sector blockIdx = 0)
        bitmapSync part (part.blockIdx lba) .block
        allocBlocks alloc n (blockIdx + 1) (Function.update blocks blockIdx lba)
          (inode.setSector blockIdx lba)
      else
        bitmapSync part (part.blockIdx lba) .block
        allocBlocks alloc n (blockIdx + 1) (Function.update blocks blockIdx lba) inode

def firstBlock (alloc : VolM (Option UInt32)) (inode : Inode) : VolM (Bool × Inode) := do
  if inode.sector 0 = 0 then
    match ← alloc with
    | none => pure (false, inode)
    | some lba =>
      Cmd.assert .panic (part.blockIdx lba ≠ 0)
      bitmapSync part (part.blockIdx lba) .block
      pure (true, inode.setSector 0 lba)
  else
    pure (true, inode)

def noBlocks : Nat → UInt32 := fun _ => 0

def readTable (blocks : Nat → UInt32) (inode : Inode) : VolM (Nat → UInt32) := do
  let table ← ideRead (inode.sector 12) 1
  pure fun i => if i < 12 then blocks i else table.word (4 * (i - 12))

def tableOf (blocks : Nat → UInt32) : Mem := Mem.ofWords fun i => blocks (i + 12)

def collect (alloc : VolM (Option UInt32)) (hasUsed willUse : UInt32) (inode : Inode)
    : VolM (Bool × (Nat → UInt32) × Inode) := do
  let last := hasUsed.toNat - 1
  let n := willUse.toNat - hasUsed.toNat
  if willUse - hasUsed = 0 then
    if hasUsed ≤ 12 then
      pure (true, Function.update noBlocks last (inode.sector last), inode)
    else
      Cmd.assert .panic (inode.sector 12 ≠ 0)
      let blocks ← readTable noBlocks inode
      pure (true, blocks, inode)
  else if willUse ≤ 12 then
    -- a sum that wrapped around may leave `willUse` below `hasUsed`
    Cmd.assert .overrun (last < 13)
    Cmd.assert .panic (inode.sector last ≠ 0)
    allocBlocks part alloc n hasUsed.toNat (Function.update noBlocks last (inode.sector last)) inode
  else if hasUsed ≤ 12 then
    match ← alloc with
    | none => pure (false, noBlocks, inode)
    | some lba =>
      Cmd.assert .panic (inode.sector 12 = 0)
      let blocks := Function.update noBlocks last (inode.sector last)
      match ← allocBlocks part alloc n hasUsed.toNat blocks (inode.setSector 12 lba) with
      | (false, blocks, inode) => pure (false, blocks, inode)
      | (true, blocks, inode) =>
        ideWrite lba (tableOf blocks) 1
        pure (true, blocks, inode)
  else
    Cmd.assert .panic (inode.sector 12 ≠ 0)
    let blocks ← readTable noBlocks inode
    match ← allocBlocks part alloc n hasUsed.toNat blocks inode with
    | (false, blocks, inode) => pure (false, blocks, inode)
    | (true, blocks, inode) =>
      ideWrite (inode.sector 12) (tableOf blocks) 1
      pure (true, blocks, inode)

structure Cursor where
  bytesWritten : UInt32
  fdPos : UInt32
  inode : Inode

def loadBlock (firstWriteBlock : Bool) (secLba : UInt32) : VolM Mem :=
  if firstWriteBlock then ideRead secLba 1 else pure Mem.zero

def writeChunk (blocks : Nat → UInt32) (buf : Mem) (count : UInt32) (firstWriteBlock : Bool)
    (c : Cursor) : VolM Cursor := do
  let secIdx := (c.inode.iSize / 512).toNat
  Cmd.assert .overrun (secIdx < 140)
  let secLba := blocks secIdx
  let secOffBytes := c.inode.iSize % 512
  let secLeftBytes := 512 - secOffBytes
  let sizeLeft := count - c.bytesWritten
  let chunkSize := if sizeLeft < secLeftBytes then sizeLeft else secLeftBytes
  let ioBuf ← loadBlock firstWriteBlock secLba
  let src := buf.shift c.bytesWritten.toNat
  ideWrite secLba (ioBuf.blit secOffBytes.toNat chunkSize.toNat src) 1
  pure {
    bytesWritten := c.bytesWritten + chunkSize
    fdPos := c.fdPos + chunkSize
    inode := c.inode.grow chunkSize
  }

def writeLoop (blocks : Nat → UInt32) (buf : Mem) (count : UInt32)
    : (fuel : Nat) → (firstWriteBlock : Bool) → Cursor → VolM Cursor
  | 0, _, _ => throw .hang
  | fuel + 1, firstWriteBlock, c =>
    if c.bytesWritten < count then do
      let c ← writeChunk blocks buf count firstWriteBlock c
      writeLoop blocks buf count fuel false c
    else
      pure c

end fileWrite

/--
`file_write`, `alloc` standing for `block_bitmap_alloc`. The result is the returned value, the new
position of the file and its inode. Every pass of the write loop but the last fills a block, so that
after 141 passes the index of the block has left `all_blocks`.
-/
def fileWriteWith (alloc : VolM (Option UInt32)) (fdPos : UInt32) (inode : Inode) (buf : Mem)
    (count : UInt32) : VolM (Int × UInt32 × Inode) := do
  if 512 * 140 < inode.iSize + count then
    pure (-1, fdPos, inode)
  else
    match ← fileWrite.firstBlock part alloc inode with
    | (false, inode) => pure (-1, fdPos, inode)
    | (true, inode) =>
      let hasUsed := inode.iSize / 512 + 1
      let willUse := (inode.iSize + count) / 512 + 1
      Cmd.assert .panic (willUse ≤ 140)
      match ← fileWrite.collect part alloc hasUsed willUse inode with
      | (false, _, inode) => pure (-1, fdPos, inode)
      | (true, blocks, inode) =>
        let c ← fileWrite.writeLoop blocks buf count 142 true ⟨0, inode.iSize - 1, inode⟩
        inodeSync part 512 c.inode
        pure (c.bytesWritten.toNat, c.fdPos, c.inode)

def fileWrite (fdPos : UInt32) (inode : Inode) (buf : Mem) (count : UInt32)
    : VolM (Int × UInt32 × Inode) :=
  fileWriteWith part (blockBitmapAlloc part) fdPos inode buf count

namespace fileRead

def collect (startIdx endIdx : Nat) (inode : Inode) : VolM (Nat → UInt32) := do
  if startIdx = endIdx then
    if endIdx < 12 then
      pure (Function.update fileWrite.noBlocks endIdx (inode.sector endIdx))
    else
      fileWrite.readTable fileWrite.noBlocks inode
  else if endIdx < 12 then
    pure fun i => if startIdx ≤ i ∧ i ≤ endIdx then inode.sector i else 0
  else if startIdx < 12 then
    Cmd.assert .panic (inode.sector 12 ≠ 0)
    fileWrite.readTable (fun i => if startIdx ≤ i then inode.sector i else 0) inode
  else
    Cmd.assert .panic (inode.sector 12 ≠ 0)
    fileWrite.readTable fileWrite.noBlocks inode

structure Cursor where
  bytesRead : UInt32
  fdPos : UInt32
  buf : Mem

def readChunk (blocks : Nat → UInt32) (size : UInt32) (c : Cursor) : VolM Cursor := do
  let secIdx := (c.fdPos / 512).toNat
  Cmd.assert .overrun (secIdx < 140)
  let secOffBytes := c.fdPos % 512
  let secLeftBytes := 512 - secOffBytes
  let sizeLeft := size - c.bytesRead
  let chunkSize := if sizeLeft < secLeftBytes then sizeLeft else secLeftBytes
  let ioBuf ← ideRead (blocks secIdx) 1
  pure {
    bytesRead := c.bytesRead + chunkSize
    fdPos := c.fdPos + chunkSize
    buf := c.buf.blit c.bytesRead.toNat chunkSize.toNat (ioBuf.shift secOffBytes.toNat)
  }

def readLoop (blocks : Nat → UInt32) (size : UInt32) : (fuel : Nat) → Cursor → VolM Cursor
  | 0, _ => throw .hang
  | fuel + 1, c =>
    if c.bytesRead < size then do
      let c ← readChunk blocks size c
      readLoop blocks size fuel c
    else
      pure c

end fileRead

def fileRead (fdPos : UInt32) (inode : Inode) (buf : Mem) (count : UInt32)
    : VolM (Int × Mem × UInt32) := do
  let size := if inode.iSize < fdPos + count then inode.iSize - fdPos else count
  if inode.iSize < fdPos + count ∧ size = 0 then
    pure (-1, buf, fdPos)
  else
    let blockReadStartIdx := (fdPos / 512).toNat
    let blockReadEndIdx := ((fdPos + size) / 512).toNat
    Cmd.assert .panic (blockReadStartIdx < 139 ∧ blockReadEndIdx < 139)
    let blocks ← fileRead.collect blockReadStartIdx blockReadEndIdx inode
    let c ← fileRead.readLoop blocks size 142 ⟨0, fdPos, buf⟩
    pure (c.bytesRead.toNat, c.buf, c.fdPos)

end RogOS
