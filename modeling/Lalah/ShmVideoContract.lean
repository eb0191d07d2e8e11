import Lalah.ShmContract

/-! The video sub-region: its own 128-byte header behind the first 16 MiB, a ring of frame
slots, and its operations, one program per operation. A frame is copied in 64-bit words and
then byte by byte; each of these is one access. -/
namespace ShmVideoContract

open InteractionProgram ByteMemory ShmContract

/-- With video, audio has the first 16 MiB of the mapping. -/
def audioRegionBytes : ℕ := 16 * 1024 * 1024

def videoMagic : ℕ := 0x4C414C4156484431
def videoVersion : ℕ := 1
def videoMinSlots : ℕ := 3

inductive VideoField where
  | magic | version | headerSize | width | height | stride | fourcc | frameSize | slotCount
  | frameSeq
  deriving DecidableEq, Repr

/-- Two 64-byte lines: configuration and geometry, then the producer's frame count. -/
def shmVideoHeader : Layout VideoField where
  offset
    | .magic => 0 | .version => 8 | .headerSize => 12 | .width => 16 | .height => 20
    | .stride => 24 | .fourcc => 28 | .frameSize => 32 | .slotCount => 36 | .frameSeq => 64
  width
    | .magic | .frameSeq => 8
    | .version | .headerSize | .width | .height | .stride | .fourcc | .frameSize | .slotCount => 4
  size := 128
  inside := by intro f; cases f <;> decide
  disjoint := by intro f g; cases f <;> cases g <;> decide

structure VideoFormat where
  width : UInt32
  height : UInt32
  stride : UInt32
  fourcc : UInt32
  frameSize : UInt32
  deriving DecidableEq, Repr

def alignUp64 (n : ℕ) : ℕ := (n + 63) / 64 * 64

/-- The bytes behind the audio region, if there is room for more than a header. -/
def videoRegion (base total : ℕ) : Option (ℕ × ℕ) :=
  if total ≤ audioRegionBytes + shmVideoHeader.size then none
  else some (base + audioRegionBytes, total - audioRegionBytes)

/-- A handle with the geometry it has cached, zero until then. -/
structure ShmVideoBuffer where
  hdr : ℕ
  regionLen : ℕ
  frameSize : ℕ
  slotStride : ℕ
  slotCount : ℕ
  deriving DecidableEq, Repr

def ShmVideoBuffer.payload (self : ShmVideoBuffer) : ℕ := self.hdr + shmVideoHeader.size

section Operations

variable (self : ShmVideoBuffer)

def ShmVideoBuffer.load (f : VideoField) : MemProg ℕ := shmVideoHeader.load self.hdr f

def ShmVideoBuffer.store (f : VideoField) (v : ℕ) : MemProg Unit :=
  shmVideoHeader.store self.hdr f v

/-- Producer or consumer: the published geometry, into the handle as well; `none` while
the gate is zero. -/
def ShmVideoBuffer.refreshGeometry : MemProg (ShmVideoBuffer × Option VideoFormat) := do
  let fs ← self.load .frameSize
  if fs = 0 then return (self, none)
  let slotCount ← self.load .slotCount
  let width ← self.load .width
  let height ← self.load .height
  let stride ← self.load .stride
  let fourcc ← self.load .fourcc
  return ({ self with frameSize := fs, slotStride := alignUp64 fs, slotCount := slotCount },
    some ⟨.ofNat width, .ofNat height, .ofNat stride, .ofNat fourcc, .ofNat fs⟩)

/-- Producer: computes the slot count for the region and publishes the geometry, the gate
last. The count is cast to 32 bits before it is checked. -/
def ShmVideoBuffer.setGeometry (vf : VideoFormat) :
    MemProg (ShmVideoBuffer × Except String ℕ) := do
  let frameSize := vf.frameSize.toNat
  if frameSize = 0 then return (self, .error "zero frame_size")
  let slotStride := alignUp64 frameSize
  let usable := self.regionLen - shmVideoHeader.size
  let slotCount := usable / slotStride % 2 ^ 32
  if slotCount < videoMinSlots then
    return (self, .error "video region too small for >= 3 frame slots")
  self.store .width vf.width.toNat
  self.store .height vf.height.toNat
  self.store .stride vf.stride.toNat
  self.store .fourcc vf.fourcc.toNat
  self.store .slotCount slotCount
  self.store .frameSeq 0
  self.store .frameSize frameSize
  return ({ self with frameSize := frameSize, slotStride := slotStride, slotCount := slotCount },
    .ok slotCount)

def ShmVideoBuffer.frameCount : MemProg ℕ := self.load .frameSeq

end Operations

/-- Host side. `none` is a failed assertion; the geometry is left unset. -/
def ShmVideoBuffer.init (base regionLen : ℕ) : MemProg (Option ShmVideoBuffer) := do
  if regionLen ≤ shmVideoHeader.size then return none
  shmVideoHeader.store base .headerSize shmVideoHeader.size
  shmVideoHeader.store base .width 0
  shmVideoHeader.store base .height 0
  shmVideoHeader.store base .stride 0
  shmVideoHeader.store base .fourcc 0
  shmVideoHeader.store base .slotCount 0
  shmVideoHeader.store base .frameSeq 0
  shmVideoHeader.store base .frameSize 0
  shmVideoHeader.store base .version videoVersion
  shmVideoHeader.store base .magic videoMagic
  return some ⟨base, regionLen, 0, 0, 0⟩

def ShmVideoBuffer.attach (base regionLen : ℕ) : MemProg (Except String ShmVideoBuffer) := do
  if regionLen ≤ shmVideoHeader.size then return .error "video region smaller than header"
  let magic ← shmVideoHeader.load base .magic
  if magic ≠ videoMagic then return .error "bad video magic (region not initialized yet)"
  let version ← shmVideoHeader.load base .version
  if version ≠ videoVersion then return .error "video version mismatch"
  let headerSize ← shmVideoHeader.load base .headerSize
  if headerSize ≠ shmVideoHeader.size then return .error "video ABI/header_size mismatch"
  let (me, _) ← ShmVideoBuffer.refreshGeometry ⟨base, regionLen, 0, 0, 0⟩
  return .ok me

section Frames

/-- Eight bytes of the frame from byte `8 * i` on; zeros past the source's `n` bytes. -/
def frameWord (src : List UInt8) (n i : ℕ) : List UInt8 :=
  let start := i * 8
  if start < n then
    let avail := min (n - start) 8
    (src.drop start).take avail ++ List.replicate (8 - avail) 0
  else List.replicate 8 0

def writeWords (dst : ℕ) (src : List UInt8) (n : ℕ) : ℕ → ℕ → MemProg Unit
  | _, 0 => return ()
  | i, left + 1 => do
    ByteMemory.store 8 (dst + i * 8) (wordOf (frameWord src n i))
    writeWords dst src n (i + 1) left

def writeTail (dst : ℕ) (src : List UInt8) (n : ℕ) : ℕ → ℕ → MemProg Unit
  | _, 0 => return ()
  | j, left + 1 => do
    ByteMemory.store 1 (dst + j) (if j < n then src.getD j 0 else 0).toNat
    writeTail dst src n (j + 1) left

/-- Exactly `frameSize` bytes from `dst`: the source, cut or padded with zeros. -/
def volatileWriteFrame (dst : ℕ) (src : List UInt8) (frameSize : ℕ) : MemProg Unit := do
  let n := min src.length frameSize
  let words := frameSize / 8
  writeWords dst src n 0 words
  writeTail dst src n (words * 8) (frameSize - words * 8)

def readWords (s : ℕ) : ℕ → MemProg (List UInt8)
  | 0 => return []
  | left + 1 => do
    let w ← ByteMemory.load 8 s
    let rest ← readWords (s + 8) left
    return bytesOf 8 w ++ rest

def volatileCopyFromWords (s len : ℕ) : MemProg (List UInt8) := do
  let words := len / 8
  let a ← readWords s words
  let b ← volatileCopyFrom (s + words * 8) (len - words * 8)
  return a ++ b

variable (self : ShmVideoBuffer)

def ShmVideoBuffer.pushFrame (src : List UInt8) : MemProg Unit := do
  if self.frameSize = 0 ∨ self.slotCount = 0 then return ()
  let seq ← self.load .frameSeq
  let slot := seq % self.slotCount
  let off := slot * self.slotStride
  volatileWriteFrame (self.payload + off) src self.frameSize
  self.store .frameSeq (wrappingAdd seq 1)

/-- Consumer: the newest frame into `out`, with its number, unless the writer may have
started on its slot again. -/
def ShmVideoBuffer.readFrame (out : List UInt8) : MemProg (Option ℕ × List UInt8) := do
  if self.frameSize = 0 ∨ self.slotCount = 0 then return (none, out)
  let s0 ← self.load .frameSeq
  if s0 = 0 then return (none, out)
  let newest := s0 - 1
  let slot := newest % self.slotCount
  let off := slot * self.slotStride
  let len := min self.frameSize out.length
  let live ← volatileCopyFromWords (self.payload + off) len
  let s1 ← self.load .frameSeq
  if wrappingSub s1 s0 ≤ self.slotCount - 2 then
    return (some newest, live ++ out.drop len)
  else
    return (none, live ++ out.drop len)

end Frames

end ShmVideoContract
