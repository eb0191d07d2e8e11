import Lalah.VideoRing

/-! The host's video thread: it waits for the geometry, opens the FIFO when a reader is
there, polls the frame count, reads the newest frame and offers it to the pipe. The loop is
cut at its program points; what the system calls answer is free, one answer at a step. -/
namespace VideoForwarder

open InteractionProgram RelyGuarantee ByteMemory ShmContract ShmVideoContract VideoRing

inductive Errno where
  | eagain | epipe | other
  deriving DecidableEq, Repr

inductive HostOp where
  | shm (op : Access)
  | sleep (micros : ℕ)
  | mkfifo
  | openFifo
  | setPipeSize (size : ℕ)
  | getPipeSize
  | fionread
  | write (bytes : List UInt8)
  | close
  deriving DecidableEq, Repr

/-- `openFifo` and `mkfifo` say whether they succeeded, `fionread` gives nothing when the
`ioctl` fails, `write` gives the number of bytes or the error. -/
@[reducible] def HostOp.Reply : HostOp → Type
  | .shm op => op.Reply
  | .sleep _ | .close => Unit
  | .mkfifo | .openFifo => Bool
  | .setPipeSize _ | .getPipeSize => ℤ
  | .fionread => Option ℕ
  | .write _ => Except Errno ℕ

abbrev HostProg := Prog HostOp HostOp.Reply

def call (op : HostOp) : HostProg op.Reply := perform op

def shm {α : Type} (p : MemProg α) : HostProg α := p.lift .shm fun _ r => r

inductive WriteOutcome where
  | wrote | dropped | readerGone
  deriving DecidableEq, Repr

def offer (frame : List UInt8) : HostProg WriteOutcome := do
  let n : Except Errno ℕ ← call (.write frame)
  match n with
  | .ok n => return if n = frame.length then .wrote else .dropped
  | .error .eagain => return .dropped
  | .error .epipe => return .readerGone
  | .error .other => return .dropped

/-- The free space is checked only if both calls that measure it succeed. -/
def writeFrame (frame : List UInt8) : HostProg WriteOutcome := do
  let pipeSz : ℤ ← call .getPipeSize
  if 0 < pipeSz then
    let queued : Option ℕ ← call .fionread
    match queued with
    | some queued => if pipeSz - queued < frame.length then return .dropped else offer frame
    | none => offer frame
  else offer frame

def setPipeSize (size : ℕ) : HostProg ℕ := do
  let r : ℤ ← call (.setPipeSize size)
  if 0 ≤ r then return r.toNat
  else
    let now : ℤ ← call .getPipeSize
    return now.toNat

structure Config where
  pipeSize : ℕ
  readDelayUs : ℕ

/-- The program points of `run_video`. `counting` is the match arm of a read that returned a
number, before the second `frame_count`; `writing` is behind it. -/
inductive Point where
  | geometry | fifo | disabled | starting
  | top | sizing | absent | polling | idle
  | reading (count : ℕ)
  | counting (newest : ℕ)
  | writing
  deriving DecidableEq, Repr

/-- The thread's variables; `connected` is `fd >= 0`. `handed` is not in the source: the
numbers of the frames that `write_frame` was called with. -/
structure VideoThread where
  point : Point
  vid : ShmVideoBuffer
  frame : List UInt8
  connected : Bool
  lastCount : ℕ
  dropped : ℕ
  handed : List ℕ
  deriving DecidableEq, Repr

def stagger (cfg : Config) : HostProg Unit :=
  if cfg.readDelayUs > 0 then call (.sleep cfg.readDelayUs) else .ret ()

def runVideo (cfg : Config) (v : VideoThread) : HostProg VideoThread :=
  match v.point with
  | .geometry => do
    let (vid, vf) ← shm v.vid.refreshGeometry
    match vf with
    | some vf =>
      return { v with point := .fifo, vid := vid, frame := List.replicate vf.frameSize.toNat 0 }
    | none =>
      call (.sleep 300000)
      return v
  | .fifo => do
    let made : Bool ← call .mkfifo
    return { v with point := if made then .starting else .disabled }
  | .disabled => return v
  | .starting => do
    let count ← shm v.vid.frameCount
    return { v with point := .top, lastCount := count }
  | .top =>
    if v.connected then return { v with point := .polling }
    else do
      let opened : Bool ← call .openFifo
      return { v with point := if opened then .sizing else .absent, connected := opened }
  | .sizing => do
    let _ ← setPipeSize cfg.pipeSize
    return { v with point := .polling }
  | .absent => do
    let count ← shm v.vid.frameCount
    call (.sleep 100000)
    return { v with point := .top, lastCount := count }
  | .polling => do
    let count ← shm v.vid.frameCount
    return { v with point := if count = v.lastCount then .idle else .reading count }
  | .idle => do
    call (.sleep 500)
    return { v with point := .top }
  | .reading count => do
    stagger cfg
    let (res, frame) ← shm (v.vid.readFrame v.frame)
    match res with
    | some newest => return { v with point := .counting newest, frame := frame }
    | none => return { v with point := .top, frame := frame, lastCount := count }
  | .counting newest => do
    let count ← shm v.vid.frameCount
    return { v with point := .writing, lastCount := count, handed := v.handed ++ [newest] }
  | .writing => do
    match ← writeFrame v.frame with
    | .wrote => return { v with point := .top }
    | .dropped => return { v with point := .top, dropped := v.dropped + 1 }
    | .readerGone =>
      call .close
      return { v with point := .top, connected := false }

structure Answer where
  made : Bool
  opened : Bool
  pipeSize : ℤ
  queued : Option ℕ
  written : Except Errno ℕ

/-- The region and the answers to come. `completed` and `openedAt` are not in the source: the
frames completed so far, and those completed when the FIFO was last opened. -/
structure World where
  mem : Memory
  answer : Answer
  completed : ℕ
  openedAt : ℕ

def hostAccess : (op : HostOp) → World → op.Reply × World
  | .shm op, w => ((access op w.mem).1, { w with mem := (access op w.mem).2 })
  | .sleep _, w => ((), w)
  | .mkfifo, w => (w.answer.made, w)
  | .openFifo, w =>
    (w.answer.opened, { w with openedAt := if w.answer.opened then w.completed else w.openedAt })
  | .setPipeSize _, w => (w.answer.pipeSize, w)
  | .getPipeSize, w => (w.answer.pipeSize, w)
  | .fionread, w => (w.answer.queued, w)
  | .write _, w => (w.answer.written, w)
  | .close, w => ((), w)

structure State where
  world : World
  producer : Party Access Access.Reply (List (List UInt8))
  thread : Party HostOp HostOp.Reply VideoThread

inductive Event where
  | push (src : List UInt8)
  | produce
  | forward (answer : Answer)

def startPush (buf : ShmVideoBuffer) (src : List UInt8) (pushed : List (List UInt8)) :
    MemProg (List (List UInt8)) :=
  buf.pushFrame src >>= fun _ => .ret (pushed ++ [src])

def next (buf : ShmVideoBuffer) (cfg : Config) : Event → State → State
  | .push src, s =>
    let p := s.producer.invoke (startPush buf src)
    { s with producer := p, world := { s.world with completed := p.ctl.length } }
  | .produce, s =>
    let (p, m) := s.producer.access access s.world.mem
    { s with producer := p, world := { s.world with mem := m, completed := p.ctl.length } }
  | .forward answer, s =>
    let (thread, world) :=
      s.thread.advance hostAccess (runVideo cfg) { s.world with answer := answer }
    { s with thread := thread, world := world }

/-- Any order of the steps of producer and video thread, from a `set_geometry` that returned
`Ok`; the thread may have been waiting for it. -/
structure Run where
  handle : ShmVideoBuffer
  vf : VideoFormat
  before : Memory
  buf : ShmVideoBuffer
  slots : ℕ
  start : Memory
  published : (handle.setGeometry vf).run access before = ((buf, .ok slots), start)
  attached : ShmVideoBuffer
  sameRegion : attached.hdr = handle.hdr
  cfg : Config
  answer : Answer
  event : ℕ → Event

def Run.state (r : Run) : ℕ → State
  | 0 => ⟨⟨r.start, r.answer, 0, 0⟩, .rest [],
      .rest ⟨.geometry, r.attached, [], false, 0, 0, []⟩⟩
  | t + 1 => next r.buf r.cfg (r.event t) (r.state t)

def Run.thread (r : Run) (t : ℕ) : VideoThread := (r.state t).thread.ctl

def Run.completed (r : Run) (t : ℕ) : ℕ := (r.state t).producer.ctl.length

end VideoForwarder
