import Lalah.ByteMemory

/-! The cross-process audio contract: the 192-byte header, the ring handle and its
operations, one program per operation. Every header access is one access of the header
word, every payload byte one access of that byte. Addresses are offsets in the region. -/
namespace ShmContract

open InteractionProgram ByteMemory

def wrappingAdd (a b : ℕ) : ℕ := (a + b) % 2 ^ 64

def wrappingSub (a b : ℕ) : ℕ := (a + 2 ^ 64 - b) % 2 ^ 64

/-- `usize::is_power_of_two`: exactly one of the 64 bits is set. -/
def IsPowerOfTwo (n : ℕ) : Prop := ∃ k, k < 64 ∧ n = 2 ^ k

instance (n : ℕ) : Decidable (IsPowerOfTwo n) :=
  inferInstanceAs (Decidable (∃ k, k < 64 ∧ n = 2 ^ k))

theorem isPowerOfTwo_two : IsPowerOfTwo 2 := ⟨1, by decide, rfl⟩

def shmMagic : ℕ := 0x4C414C4148534D31
def shmVersion : ℕ := 1

inductive ShmField where
  | magic | version | headerSize | capacity
  | sampleRate | channels | format | frameBytes
  | tail | seq | head
  deriving DecidableEq, Repr

/-- Three 64-byte lines: configuration, producer-owned, consumer-owned. -/
def shmHeader : Layout ShmField where
  offset
    | .magic => 0 | .version => 8 | .headerSize => 12 | .capacity => 16
    | .sampleRate => 24 | .channels => 28 | .format => 32 | .frameBytes => 36
    | .tail => 64 | .seq => 72 | .head => 128
  width
    | .magic | .capacity | .tail | .seq | .head => 8
    | .version | .headerSize | .sampleRate | .channels | .format | .frameBytes => 4
  size := 192
  inside := by intro f; cases f <;> decide
  disjoint := by intro f g; cases f <;> cases g <;> decide

inductive SampleFormat where
  | s16Le | s32Le | f32Le
  deriving DecidableEq, Repr

def SampleFormat.toU32 : SampleFormat → ℕ
  | .s16Le => 0
  | .s32Le => 1
  | .f32Le => 2

def SampleFormat.fromU32 : ℕ → Option SampleFormat
  | 0 => some .s16Le
  | 1 => some .s32Le
  | 2 => some .f32Le
  | _ => none

def SampleFormat.bytesPerSample : SampleFormat → ℕ
  | .s16Le => 2
  | .s32Le => 4
  | .f32Le => 4

structure AudioFormat where
  sampleRate : UInt32
  channels : UInt32
  format : SampleFormat
  frameBytes : UInt32
  deriving DecidableEq, Repr

/-- A handle holds the header's address and the validated ring size. -/
structure ShmAudioBuffer where
  hdr : ℕ
  cap : ℕ
  pow2 : IsPowerOfTwo cap
  deriving DecidableEq

def ShmAudioBuffer.payload (self : ShmAudioBuffer) : ℕ := self.hdr + shmHeader.size

/-- Host side. `none` is a failed assertion; the magic is stored last. -/
def ShmAudioBuffer.init (ptr totalSize cap : ℕ) : MemProg (Option ShmAudioBuffer) := do
  if totalSize ≤ shmHeader.size then return none
  if h : IsPowerOfTwo cap then
    if cap > totalSize - shmHeader.size then return none
    shmHeader.store ptr .headerSize shmHeader.size
    shmHeader.store ptr .capacity cap
    shmHeader.store ptr .sampleRate 0
    shmHeader.store ptr .channels 0
    shmHeader.store ptr .format 0
    shmHeader.store ptr .frameBytes 0
    shmHeader.store ptr .head 0
    shmHeader.store ptr .tail 0
    shmHeader.store ptr .seq 0
    shmHeader.store ptr .version shmVersion
    shmHeader.store ptr .magic shmMagic
    return some ⟨ptr, cap, h⟩
  else return none

def ShmAudioBuffer.attach (ptr totalSize : ℕ) : MemProg (Except String ShmAudioBuffer) := do
  if totalSize ≤ shmHeader.size then return .error "region smaller than header"
  let magic ← shmHeader.load ptr .magic
  if magic ≠ shmMagic then return .error "bad magic (region not initialized yet)"
  let version ← shmHeader.load ptr .version
  if version ≠ shmVersion then return .error "version mismatch"
  let headerSize ← shmHeader.load ptr .headerSize
  if headerSize ≠ shmHeader.size then return .error "ABI/header_size mismatch"
  let cap ← shmHeader.load ptr .capacity
  if h : cap ≠ 0 ∧ IsPowerOfTwo cap ∧ cap ≤ totalSize - shmHeader.size then
    return .ok ⟨ptr, cap, h.2.1⟩
  else return .error "bad capacity"

section Handle

variable (self : ShmAudioBuffer)

def ShmAudioBuffer.load (f : ShmField) : MemProg ℕ := shmHeader.load self.hdr f

def ShmAudioBuffer.store (f : ShmField) (v : ℕ) : MemProg Unit := shmHeader.store self.hdr f v

def ShmAudioBuffer.pointers : MemProg (ℕ × ℕ) := do
  let head ← self.load .head
  let tail ← self.load .tail
  return (head, tail)

/-- Producer side; `frame_bytes` is the consumer's gate and is stored last. -/
def ShmAudioBuffer.setFormat (fmt : AudioFormat) : MemProg Unit := do
  self.store .sampleRate fmt.sampleRate.toNat
  self.store .channels fmt.channels.toNat
  self.store .format fmt.format.toU32
  self.store .frameBytes fmt.frameBytes.toNat

def ShmAudioBuffer.format : MemProg (Option AudioFormat) := do
  let frameBytes ← self.load .frameBytes
  if frameBytes = 0 then return none
  match SampleFormat.fromU32 (← self.load .format) with
  | none => return none
  | some format =>
    let sampleRate ← self.load .sampleRate
    let channels ← self.load .channels
    return some ⟨.ofNat sampleRate, .ofNat channels, format, .ofNat frameBytes⟩

def ShmAudioBuffer.mask (pos : ℕ) : ℕ := pos &&& (self.cap - 1)

def volatileCopyTo (dst : ℕ) : List UInt8 → MemProg Unit
  | [] => return ()
  | b :: src => do
    ByteMemory.store 1 dst b.toNat
    volatileCopyTo (dst + 1) src

def volatileCopyFrom (s : ℕ) : ℕ → MemProg (List UInt8)
  | 0 => return []
  | n + 1 => do
    let b ← ByteMemory.load 1 s
    let rest ← volatileCopyFrom (s + 1) n
    return .ofNat b :: rest

/-- Of a slice longer than the ring only the newest `cap` bytes are kept. -/
def ShmAudioBuffer.kept (src : List UInt8) : List UInt8 :=
  if src.length > self.cap then src.drop (src.length - self.cap) else src

def ShmAudioBuffer.copyIn (start : ℕ) (src : List UInt8) : MemProg Unit := do
  if start + src.length ≤ self.cap then
    volatileCopyTo (self.payload + start) src
  else
    let first := self.cap - start
    volatileCopyTo (self.payload + start) (src.take first)
    volatileCopyTo (self.payload + 0) (src.drop first)

def ShmAudioBuffer.copyOut (start wu : ℕ) : MemProg (List UInt8) := do
  if start + wu ≤ self.cap then
    volatileCopyFrom (self.payload + start) wu
  else
    let first := self.cap - start
    let a ← volatileCopyFrom (self.payload + start) first
    let b ← volatileCopyFrom (self.payload + 0) (wu - first)
    return a ++ b

def ShmAudioBuffer.pushOverwrite (src : List UInt8) : MemProg Unit := do
  let src := self.kept src
  let n := src.length
  if n = 0 then return ()
  let tail ← self.load .tail
  let s ← self.load .seq
  self.store .seq (wrappingAdd s 1)
  self.copyIn (self.mask tail) src
  self.store .tail (wrappingAdd tail n)
  self.store .seq (wrappingAdd s 2)

/-- What `read_quantum` has fixed before its loop, and the caller's buffer. -/
structure ReadLoop where
  frame : ℕ
  quantum : ℕ
  maxLatency : ℕ
  out : List UInt8
  deriving DecidableEq, Repr

/-- A pass of the loop either goes round again or returns. -/
inductive Pass where
  | again (l : ReadLoop)
  | done (n : ℕ) (out : List UInt8)
  deriving DecidableEq, Repr

def ShmAudioBuffer.readStart (out : List UInt8) (maxLatency : ℕ) : MemProg ReadLoop := do
  let frame := max (← self.load .frameBytes) 1
  return ⟨frame, out.length / frame * frame, maxLatency, out⟩

/-- Where a pass reads from and how much: the head clamped to the tail, moved forward to
the newest whole-frame budget when the backlog exceeds it, and whole frames of the rest. -/
def ReadLoop.aim (l : ReadLoop) (tail head : ℕ) : ℕ × ℕ :=
  let head := if head > tail then tail else head
  let avail := tail - head
  let budget := l.maxLatency / l.frame * l.frame
  let head := if avail > budget then tail - budget else head
  let want := min l.quantum (tail - head)
  (head, want / l.frame * l.frame)

def ShmAudioBuffer.readPass (l : ReadLoop) : MemProg Pass := do
  let s0 ← self.load .seq
  if s0 % 2 = 1 then return .again l
  let tail ← self.load .tail
  let head ← self.load .head
  let (head, want) := l.aim tail head
  let live ← self.copyOut (self.mask head) want
  let tail2 ← self.load .tail
  let s1 ← self.load .seq
  if s1 ≠ s0 ∨ wrappingSub tail2 head > self.cap then
    return .again { l with out := live ++ l.out.drop want }
  self.store .head (head + want)
  return .done want (live ++ List.replicate (l.out.length - want) 0)

/-- The loop of `read_quantum` with nobody else moving the region, for `fuel` passes. -/
def ShmAudioBuffer.readLoop : ℕ → ReadLoop → Memory → Option ((ℕ × List UInt8) × Memory)
  | 0, _, _ => none
  | fuel + 1, l, m =>
    match (self.readPass l).run access m with
    | (.done n out, m') => some ((n, out), m')
    | (.again l', m') => ShmAudioBuffer.readLoop fuel l' m'

def ShmAudioBuffer.readQuantum (fuel : ℕ) (out : List UInt8) (maxLatency : ℕ) (m : Memory) :
    Option ((ℕ × List UInt8) × Memory) :=
  let (l, m) := (self.readStart out maxLatency).run access m
  self.readLoop fuel l m

end Handle

section Copies

theorem wrappingSub_of_le {a b : ℕ} (h : b ≤ a) (ha : a < 2 ^ 64) : wrappingSub a b = a - b := by
  unfold wrappingSub
  omega

theorem storesOnly_copyFrom {A : ℕ → Prop} (s n : ℕ) :
    StoresOnly A (volatileCopyFrom s n) := by
  induction n generalizing s with
  | zero => trivial
  | succ n ih => exact ByteMemory.storesOnly_load fun _ => every_bind (ih _) fun _ => trivial

theorem run_copyFrom (s n : ℕ) (m : Memory) :
    (volatileCopyFrom s n).run access m = ((List.range n).map (fun i => m (s + i)), m) := by
  induction n generalizing s with
  | zero => rfl
  | succ n ih =>
    change (volatileCopyFrom (s + 1) n >>= fun rest =>
      .ret (UInt8.ofNat (loadWord m 1 s) :: rest)).run access m = _
    rw [run_bind, ih, run_ret, loadWord_one, List.range_succ_eq_map, List.map_cons, List.map_map]
    simp [Function.comp_def, Nat.add_assoc, Nat.add_comm 1]

theorem every_copyFrom {P : Access → Prop} {s n : ℕ} :
    (volatileCopyFrom s n).Every Fits P ↔ ∀ i < n, P (.load 1 (s + i)) := by
  induction n generalizing s with
  | zero => exact ⟨fun _ i hi => absurd hi (Nat.not_lt_zero i), fun _ => trivial⟩
  | succ n ih =>
    constructor
    · rintro ⟨hfirst, hrest⟩ i hi
      cases i with
      | zero => exact hfirst
      | succ i =>
        have hcopy := ih.mp (every_left (hrest 0 (Nat.pow_pos (Nat.succ_pos 255)))) i (by omega)
        rwa [Nat.add_right_comm, Nat.add_assoc] at hcopy
    · intro h
      refine ⟨h 0 (by omega), fun b _ => ?_⟩
      refine every_bind (p := volatileCopyFrom (s + 1) n) (ih.mpr fun i hi => ?_) fun _ => trivial
      have hnext := h (i + 1) (by omega)
      rwa [Nat.add_comm i 1, ← Nat.add_assoc] at hnext

theorem reach_copyFrom {mem : ℕ → Memory} {t u s n : ℕ} {bytes : List UInt8}
    (h : Reach access mem t (volatileCopyFrom s n) u (.ret bytes)) :
    t ≤ u ∧ bytes.length = n ∧
      ∀ i (hi : i < bytes.length), ∃ v, t ≤ v ∧ v < u ∧ bytes[i] = mem v (s + i) := by
  induction n generalizing s t bytes with
  | zero =>
    obtain ⟨rfl, rfl⟩ := Reach.ret_inv h
    exact ⟨Nat.le_refl _, rfl, fun i hi => absurd hi (by simp)⟩
  | succ n ih =>
    obtain ⟨v, hv, _, hr⟩ := Reach.act_inv h
    change Reach access mem (v + 1) (volatileCopyFrom (s + 1) n >>= fun rest =>
      .ret (UInt8.ofNat (loadWord (mem v) 1 s) :: rest)) u (.ret bytes) at hr
    obtain ⟨w, rest, hrest, hret⟩ := Reach.bind_inv hr
    obtain ⟨rfl, rfl⟩ := Reach.ret_inv hret
    obtain ⟨hle, hlen, hbytes⟩ := ih hrest
    refine ⟨by omega, by simp [hlen], fun i hi => ?_⟩
    cases i with
    | zero => exact ⟨v, hv, by omega, loadWord_one _ _⟩
    | succ i =>
      obtain ⟨x, hx, hxu, hb⟩ := hbytes i (by simpa using hi)
      refine ⟨x, by omega, hxu, ?_⟩
      rw [Nat.add_right_comm, Nat.add_assoc] at hb
      exact hb

end Copies

end ShmContract
