import Lalah.CallProtocol
import Lalah.AudioFormatParse

/-! Exclusive capture of an endpoint: the probe for a format, the client that is opened with
it, the format published before the stream starts, and the loop that drains its packets. What
the system replies is free at every call. -/
namespace WasapiCapture

open InteractionProgram CallProtocol ShmContract AudioFormatParse

abbrev Hresult := UInt32

def sOk : Hresult := 0

/-- What the code takes from outside: the platform's headers, and the aligned period that it
computes in floating point from the rate and the number of frames. -/
structure Endpoint where
  platform : Platform
  deviceId : String
  unsupportedFormat : Hresult
  bufferSizeNotAligned : Hresult
  waitObject0 : UInt32
  alignedPeriod : UInt32 → UInt32 → ℤ

section Formats

/-- The storage of a wave format, with the fields that the parser does not read. -/
structure WaveFormatStorage extends WaveFormatExtensible where
  nAvgBytesPerSec : UInt32
  cbSize : UInt16
  wValidBitsPerSample : UInt16
  dwChannelMask : UInt32
  deriving DecidableEq, Repr

/-- Rate, channels, bits, and whether the samples are floats; best first. -/
def baseFormats : List (UInt32 × UInt16 × UInt16 × Bool) :=
  [(48000, 2, 16, false), (44100, 2, 16, false), (48000, 1, 16, false), (48000, 2, 32, false),
    (48000, 2, 32, true)]

structure Candidate where
  rate : UInt32
  channels : UInt16
  bits : UInt16
  isFloat : Bool
  extensible : Bool
  deriving DecidableEq, Repr

def candidates : List Candidate :=
  baseFormats.flatMap fun (rate, channels, bits, isFloat) =>
    [false, true].map fun extensible => ⟨rate, channels, bits, isFloat, extensible⟩

def makeWfx (p : Platform) (c : Candidate) : WaveFormatStorage :=
  let blockAlign := c.channels * (c.bits / 8)
  { format :=
      { wFormatTag :=
          if c.extensible then extensibleTag else if c.isFloat then ieeeFloatTag else pcmTag
        nChannels := c.channels
        nSamplesPerSec := c.rate
        nBlockAlign := blockAlign
        wBitsPerSample := c.bits }
    subFormat := if c.isFloat then p.subtypeIeeeFloat else p.subtypePcm
    nAvgBytesPerSec := c.rate * blockAlign.toUInt32
    cbSize := if c.extensible then 22 else 0
    wValidBitsPerSample := c.bits
    dwChannelMask := if 2 ≤ c.channels then 0x3 else 0x4 }

end Formats

section Calls

/-- A buffer of the capture client; `data` are the bytes behind its pointer. -/
structure Packet where
  data : ℕ → UInt8
  frames : UInt32
  flags : UInt32

def silentFlag : UInt32 := 2

inductive Request where
  | coInitializeEx | createEnumerator | getDevice (id : String) | activate | getDevicePeriod
  | init (duration : ℤ) (wfx : WaveFormatStorage)
  | getBufferSize | createEvent | setEventHandle | getService
  | start | getBuffer | releaseBuffer (frames : UInt32) | stop | closeHandle

@[reducible] def Request.Value : Request → Type
  | .getDevicePeriod => ℤ
  | .getBufferSize => UInt32
  | .getBuffer => Packet
  | _ => Unit

inductive CaptureOp where
  | request (r : Request)
  | isFormatSupported (wfx : WaveFormatStorage)
  | waitForSingleObject (ms : UInt32)
  | setFormat (fmt : AudioFormat)
  | pushOverwrite (src : List UInt8)

@[reducible] def CaptureOp.Reply : CaptureOp → Type
  | .request r => Except Hresult r.Value
  | .isFormatSupported _ => Hresult
  | .waitForSingleObject _ => UInt32
  | .setFormat _ | .pushOverwrite _ => Unit

abbrev CaptureProg := Prog CaptureOp CaptureOp.Reply

def call (op : CaptureOp) : CaptureProg op.Reply := perform op

abbrev Fallible := ExceptT Hresult CaptureProg

def attempt (r : Request) : Fallible r.Value := ExceptT.mk (call (.request r))

end Calls

section Open

variable (e : Endpoint)

/-- The first candidate for which the reply is `S_OK`. -/
def probe : List Candidate → CaptureProg (Option WaveFormatStorage)
  | [] => return none
  | c :: rest => do
    let wfx := makeWfx e.platform c
    let hr : Hresult ← call (.isFormatSupported wfx)
    if hr = sOk then return some wfx else probe rest

/-- The client is of no more use behind a period that is not aligned; a fresh one gets the
period that its buffer size asks for. -/
def initClient (wfx : WaveFormatStorage) (rate : UInt32) (minPeriod : ℤ) : Fallible Unit :=
  ExceptT.mk do
    let res : Except Hresult Unit ← call (.request (.init minPeriod wfx))
    match res with
    | .ok () => return .ok ()
    | .error err =>
      if err = e.bufferSizeNotAligned then
        (do
          let nFrames : UInt32 ← attempt .getBufferSize
          attempt .activate
          attempt (.init (e.alignedPeriod rate nFrames) wfx) : Fallible Unit).run
      else return .error err

def openStream : Fallible AudioFormat := do
  attempt .coInitializeEx
  attempt .createEnumerator
  attempt (.getDevice e.deviceId)
  attempt .activate
  let minPeriod : ℤ ← attempt .getDevicePeriod
  let chosen ← ExceptT.lift (probe e candidates)
  match chosen with
  | none => throw e.unsupportedFormat
  | some wfx =>
    match parseAudioFormat e.platform wfx.toWaveFormatExtensible with
    | none => throw e.unsupportedFormat
    | some fmt =>
      initClient e wfx fmt.sampleRate minPeriod
      attempt .createEvent
      attempt .setEventHandle
      let _ ← attempt .getBufferSize
      attempt .getService
      ExceptT.lift (call (.setFormat fmt))
      attempt .start
      return fmt

end Open

section Loop

inductive Point where
  | opening
  | waiting (fmt : AudioFormat)
  | draining (fmt : AudioFormat)
  | done (result : Except Hresult Unit)

/-- `silence` is the vector that silent packets are pushed from. -/
structure Capture where
  point : Point
  silence : List UInt8

def waitTimeoutMs : UInt32 := 2000

def Packet.silent (packet : Packet) : Bool := packet.flags &&& silentFlag ≠ 0

def Packet.bytes (packet : Packet) (fmt : AudioFormat) : ℕ :=
  packet.frames.toNat * fmt.frameBytes.toNat

def resize (silence : List UInt8) (bytes : ℕ) : List UInt8 :=
  if silence.length < bytes then silence ++ List.replicate (bytes - silence.length) 0 else silence

def teardown (v : Capture) (result : Except Hresult Unit) : CaptureProg Capture := do
  let _ ← call (.request .stop)
  let _ ← call (.request .closeHandle)
  return { v with point := .done result }

/-- `capture_exclusive` from one point to the next: the inner loop comes back to `draining`
with every packet. -/
def capture (e : Endpoint) (v : Capture) : CaptureProg Capture :=
  match v.point with
  | .opening => do
    match ← (openStream e).run with
    | .error err => return { v with point := .done (.error err) }
    | .ok fmt => return { v with point := .waiting fmt }
  | .waiting fmt => do
    let wait : UInt32 ← call (.waitForSingleObject waitTimeoutMs)
    if wait ≠ e.waitObject0 then teardown v (.ok ())
    else return { v with point := .draining fmt }
  | .draining fmt => do
    let buffer : Except Hresult Packet ← call (.request .getBuffer)
    match buffer with
    | .error err => teardown v (.error err)
    | .ok packet =>
      if packet.frames = 0 then return { v with point := .waiting fmt }
      let bytes := packet.bytes fmt
      let silence := if packet.silent then resize v.silence bytes else v.silence
      if packet.silent then call (.pushOverwrite (silence.take bytes))
      else call (.pushOverwrite ((List.range bytes).map packet.data))
      let released : Except Hresult Unit ← call (.request (.releaseBuffer packet.frames))
      match released with
      | .error err => teardown { v with silence := silence } (.error err)
      | .ok () => return { v with silence := silence }
  | .done _ => return v

end Loop

section Protocol

/-- The life of an audio client. `unaligned` is refused, but tells the size of its buffer. -/
inductive Client where
  | none | fresh | unaligned | refused | opened | armed | served | running | stopped
  deriving DecidableEq, Repr

inductive Handle where
  | none | open | closed
  deriving DecidableEq, Repr

/-- What the calls so far have come to: the formats that the probe has tried, the packet in
the buffer with whether the ring has it, and all packets and pushes so far. -/
structure Device where
  com : Bool
  client : Client
  event : Handle
  rejected : List WaveFormatStorage
  accepted : Option WaveFormatStorage
  published : Option AudioFormat
  held : Option (Packet × Bool)
  taken : List Packet
  pushes : List (List UInt8)

def blank : Device := ⟨false, .none, .none, [], none, none, none, [], []⟩

def Packet.payload (packet : Packet) (fmt : AudioFormat) : List UInt8 :=
  if packet.silent then List.replicate (packet.bytes fmt) 0
  else (List.range (packet.bytes fmt)).map packet.data

def Next (e : Endpoint) (wfx : WaveFormatStorage) (d : Device) : Prop :=
  ∃ pre c post, candidates = pre ++ c :: post ∧ d.rejected = pre.map (makeWfx e.platform) ∧
    wfx = makeWfx e.platform c

/-- A client is used in the order of its documentation; the candidates are tried in theirs; the
format is published once, before the stream starts, and it is the one that the client was opened
with; a packet is pushed once and whole, while the buffer is held, and released then. -/
def permits (e : Endpoint) : CaptureOp → Device → Prop
  | .request r, d => match r with
    | .coInitializeEx => True
    | .createEnumerator => d.com = true
    | .getDevice id => d.com = true ∧ id = e.deviceId
    | .activate => d.com = true ∧ (d.client = .none ∨ d.client = .unaligned)
    | .getDevicePeriod => d.client = .fresh
    | .init _ wfx => d.client = .fresh ∧ d.accepted = some wfx
    | .getBufferSize => d.client = .unaligned ∨ d.client = .opened ∨ d.client = .armed
    | .createEvent => d.event = .none
    | .setEventHandle => d.client = .opened ∧ d.event = .open
    | .getService => d.client = .armed
    | .start => d.client = .served ∧ d.published ≠ none
    | .getBuffer => d.client = .running ∧ d.held = none
    | .releaseBuffer frames => d.client = .running ∧
        ∃ packet, d.held = some (packet, true) ∧ frames = packet.frames
    | .stop => d.client = .running
    | .closeHandle => d.client ≠ .running ∧ d.event = .open
  | .isFormatSupported wfx, d => d.client = .fresh ∧ d.accepted = none ∧ Next e wfx d
  | .waitForSingleObject _, d => d.client = .running ∧ d.event = .open ∧ d.held = none
  | .setFormat fmt, d => d.client = .served ∧ d.published = none ∧
      ∃ wfx, d.accepted = some wfx ∧
        parseAudioFormat e.platform wfx.toWaveFormatExtensible = some fmt
  | .pushOverwrite src, d => d.client = .running ∧
      ∃ packet fmt, d.held = some (packet, false) ∧ d.published = some fmt ∧
        src = packet.payload fmt

def succeed (d : Device) : (r : Request) → r.Value → Device
  | .coInitializeEx, _ => { d with com := true }
  | .activate, _ => { d with client := .fresh }
  | .init _ _, _ => { d with client := .opened }
  | .createEvent, _ => { d with event := .open }
  | .setEventHandle, _ => { d with client := .armed }
  | .getService, _ => { d with client := .served }
  | .start, _ => { d with client := .running }
  | .getBuffer, packet =>
    if packet.frames = 0 then d
    else { d with held := some (packet, false), taken := d.taken ++ [packet] }
  | .releaseBuffer _, _ => { d with held := none }
  | _, _ => d

def after (e : Endpoint) : (op : CaptureOp) → op.Reply → Device → Device
  | .request .stop, _, d => { d with client := .stopped }
  | .request .closeHandle, _, d => { d with event := .closed }
  | .request (.init _ _), .error err, d =>
    { d with client := if err = e.bufferSizeNotAligned then .unaligned else .refused }
  | .request _, .error _, d => d
  | .request r, .ok a, d => succeed d r a
  | .isFormatSupported wfx, hr, d =>
    if hr = sOk then { d with accepted := some wfx } else { d with rejected := d.rejected ++ [wfx] }
  | .waitForSingleObject _, _, d => d
  | .setFormat fmt, _, d => { d with published := some fmt }
  | .pushOverwrite src, _, d =>
    { d with held := d.held.map fun h => (h.1, true), pushes := d.pushes ++ [src] }

def protocol (e : Endpoint) : Protocol CaptureOp CaptureOp.Reply Device := ⟨permits e, after e⟩

end Protocol

section Obedience

variable (e : Endpoint)

structure Streaming (fmt : AudioFormat) (d : Device) : Prop where
  running : d.client = .running
  event : d.event = .open
  published : d.published = some fmt
  held : d.held = none

/-- Nothing runs, and the event is closed exactly if something did. -/
structure Ended (d : Device) : Prop where
  idle : d.client ≠ .running
  event : d.event = .closed ↔ d.client = .stopped

def Between (v : Capture) (d : Device) : Prop :=
  (∀ b ∈ v.silence, b = 0) ∧
  match v.point with
  | .opening => d = blank
  | .waiting fmt | .draining fmt => Streaming fmt d
  | .done _ => Ended d

def Opened : Except Hresult AudioFormat → Device → Prop
  | .ok fmt, d => Streaming fmt d
  | .error _, d => Ended d

variable {e} {β : Type} {d : Device} {E : Except Hresult β → Device → Prop}

theorem obeys_attempt {r : Request} {f : r.Value → Fallible β} (hop : permits e (.request r) d)
    (herror : ∀ err, E (.error err) (after e (.request r) (.error err) d))
    (hok : ∀ a, Obeys (protocol e) E (f a).run (after e (.request r) (.ok a) d)) :
    Obeys (protocol e) E (attempt r >>= f).run d := by
  apply obeys_try
  refine obeys_fallible (P := protocol e) (CaptureOp.request r) id hop ?_ ?_
  · rintro _ err rfl
    exact herror err
  · rintro _ a rfl
    exact hok a

def Probed (d : Device) : Option WaveFormatStorage → Device → Prop
  | none, d' => d'.client = .fresh ∧ d'.event = d.event
  | some wfx, d' => ∃ rejected, d' = { d with rejected := rejected, accepted := some wfx }

/-- The probe tries the candidates in order and stops at the first that is taken. -/
theorem obeys_probe {rest pre : List Candidate} (hall : candidates = pre ++ rest)
    (hclient : d.client = .fresh) (haccepted : d.accepted = none)
    (hrejected : d.rejected = pre.map (makeWfx e.platform)) :
    Obeys (protocol e) (Probed d) (probe e rest) d := by
  induction rest generalizing pre d with
  | nil => exact ⟨hclient, rfl⟩
  | cons c rest ih =>
    refine ⟨⟨hclient, haccepted, pre, c, rest, hall, hrejected, rfl⟩, fun hr => ?_⟩
    change Obeys _ _ (if hr = sOk then Prog.ret (some (makeWfx e.platform c)) else probe e rest)
      (if hr = sOk then { d with accepted := some (makeWfx e.platform c) }
        else { d with rejected := d.rejected ++ [makeWfx e.platform c] })
    by_cases hok : hr = sOk
    · rw [if_pos hok, if_pos hok]
      exact ⟨d.rejected, rfl⟩
    · rw [if_neg hok, if_neg hok]
      have hmore : d.rejected ++ [makeWfx e.platform c] =
          (pre ++ [c]).map (makeWfx e.platform) := by simp [hrejected]
      have hrest := @ih { d with rejected := d.rejected ++ [makeWfx e.platform c] } (pre ++ [c])
        (by simp [hall]) hclient haccepted hmore
      apply obeys_mono _ hrest
      intro chosen d' hchosen
      cases chosen with
      | none => exact hchosen
      | some wfx => exact hchosen

structure Ready (wfx : WaveFormatStorage) (d : Device) : Prop where
  com : d.com = true
  client : d.client = .fresh
  event : d.event = .none
  accepted : d.accepted = some wfx
  published : d.published = none
  held : d.held = none

theorem obeys_initClient {wfx : WaveFormatStorage} {rate : UInt32} {minPeriod : ℤ}
    (h : Ready wfx d) : Obeys (protocol e) (fun r d' => match r with
      | .ok () => d' = { d with client := .opened }
      | .error _ => Ended d') (initClient e wfx rate minPeriod).run d := by
  have hended : ∀ c : Client, c ≠ .running → c ≠ .stopped → Ended { d with client := c } := by
    intro c hrunning hstopped
    refine ⟨hrunning, iff_of_false ?_ hstopped⟩
    rw [h.event]
    decide
  refine ⟨⟨h.client, h.accepted⟩, fun res => ?_⟩
  rcases (res : Except Hresult Unit) with err | ⟨⟩
  · change Obeys _ _ (if err = e.bufferSizeNotAligned then _ else Prog.ret (Except.error err))
      { d with client := if err = e.bufferSizeNotAligned then .unaligned else .refused }
    by_cases hunaligned : err = e.bufferSizeNotAligned
    · rw [if_pos hunaligned, if_pos hunaligned]
      apply obeys_attempt
      · exact Or.inl rfl
      · exact fun err => hended .unaligned (by decide) (by decide)
      intro nFrames
      apply obeys_attempt
      · exact ⟨h.com, Or.inr rfl⟩
      · exact fun err => hended .unaligned (by decide) (by decide)
      intro _
      refine ⟨⟨rfl, h.accepted⟩, fun res => ?_⟩
      rcases (res : Except Hresult Unit) with err | ⟨⟩
      · change Ended { d with
          client := if err = e.bufferSizeNotAligned then .unaligned else .refused }
        by_cases hagain : err = e.bufferSizeNotAligned
        · rw [if_pos hagain]
          exact hended .unaligned (by decide) (by decide)
        · rw [if_neg hagain]
          exact hended .refused (by decide) (by decide)
      · exact rfl
    · rw [if_neg hunaligned, if_neg hunaligned]
      exact hended .refused (by decide) (by decide)
  · exact rfl

theorem obeys_openStream : Obeys (protocol e) (Opened) (openStream e).run blank := by
  have hended : ∀ d : Device, d.client ≠ .running → d.client ≠ .stopped → d.event ≠ .closed →
      Ended d := fun d hrunning hstopped hevent => ⟨hrunning, iff_of_false hevent hstopped⟩
  apply obeys_attempt
  · trivial
  · exact fun _ => hended _ nofun nofun nofun
  intro _
  apply obeys_attempt
  · rfl
  · exact fun _ => hended _ nofun nofun nofun
  intro _
  apply obeys_attempt
  · exact ⟨rfl, rfl⟩
  · exact fun _ => hended _ nofun nofun nofun
  intro _
  apply obeys_attempt
  · exact ⟨rfl, Or.inl rfl⟩
  · exact fun _ => hended _ nofun nofun nofun
  intro _
  apply obeys_attempt
  · rfl
  · exact fun _ => hended _ nofun nofun nofun
  intro minPeriod
  apply obeys_infallible
  have hprobe := @obeys_probe e { blank with com := true, client := .fresh } candidates []
    rfl rfl rfl rfl
  apply obeys_mono _ hprobe
  intro chosen d hchosen
  cases chosen with
  | none =>
    apply hended
    · simp [hchosen.1]
    · simp [hchosen.1]
    · simp [hchosen.2, blank]
  | some wfx =>
    obtain ⟨rejected, rfl⟩ := hchosen
    dsimp only
    cases hparse : parseAudioFormat e.platform wfx.toWaveFormatExtensible with
    | none => exact hended _ nofun nofun nofun
    | some fmt =>
      apply obeys_try
      have hinit := @obeys_initClient e _ _ fmt.sampleRate minPeriod
        (⟨rfl, rfl, rfl, rfl, rfl, rfl⟩ : Ready wfx { blank with
          com := true, client := .fresh, rejected := rejected, accepted := some wfx })
      apply obeys_mono _ hinit
      intro r d hr
      cases r with
      | error err => exact hr
      | ok u =>
        obtain rfl := hr
        apply obeys_attempt
        · rfl
        · exact fun _ => hended _ nofun nofun nofun
        intro _
        apply obeys_attempt
        · exact ⟨rfl, rfl⟩
        · exact fun _ => hended _ nofun nofun nofun
        intro _
        apply obeys_attempt
        · exact Or.inr (Or.inr rfl)
        · exact fun _ => hended _ nofun nofun nofun
        intro _
        apply obeys_attempt
        · rfl
        · exact fun _ => hended _ nofun nofun nofun
        intro _
        apply obeys_infallible
        refine ⟨⟨rfl, rfl, _, rfl, hparse⟩, fun _ => ?_⟩
        apply obeys_attempt
        · exact ⟨rfl, Option.some_ne_none _⟩
        · exact fun _ => hended _ nofun nofun nofun
        intro _
        exact ⟨rfl, rfl, rfl, rfl⟩

theorem resize_zero {silence : List UInt8} (h : ∀ b ∈ silence, b = 0) (bytes : ℕ) :
    (∀ b ∈ resize silence bytes, b = 0) ∧
      (resize silence bytes).take bytes = List.replicate bytes 0 := by
  have hzero : ∀ b ∈ resize silence bytes, b = 0 := by
    intro b hb
    rw [resize] at hb
    split at hb
    · rcases List.mem_append.mp hb with hold | hnew
      · exact h b hold
      · exact List.eq_of_mem_replicate hnew
    · exact h b hb
  refine ⟨hzero, List.eq_replicate_iff.mpr ⟨?_, fun b hb => hzero b (List.mem_of_mem_take hb)⟩⟩
  rw [List.length_take, resize]
  split
  · simp
    omega
  · omega

theorem obeys_teardown {v : Capture} {result : Except Hresult Unit}
    (hsilence : ∀ b ∈ v.silence, b = 0) (hrunning : d.client = .running)
    (hevent : d.event = .open) :
    Obeys (protocol e) (Between) (teardown v result) d := by
  refine ⟨hrunning, fun stopped => ?_⟩
  refine ⟨⟨nofun, hevent⟩, fun closed => ?_⟩
  exact ⟨hsilence, nofun, iff_of_true rfl rfl⟩

theorem obeys_packet {silence src : List UInt8} {packet : Packet} {fmt : AudioFormat}
    (hstream : Streaming fmt d) (hsilence : ∀ b ∈ silence, b = 0)
    (hsrc : src = packet.payload fmt) :
    Obeys (protocol e) (Between) (do
      call (.pushOverwrite src)
      let released : Except Hresult Unit ← call (.request (.releaseBuffer packet.frames))
      match released with
      | .error err => teardown ⟨.draining fmt, silence⟩ (.error err)
      | .ok () => return ⟨.draining fmt, silence⟩)
      { d with held := some (packet, false), taken := d.taken ++ [packet] } := by
  refine ⟨⟨hstream.running, packet, fmt, rfl, hstream.published, hsrc⟩, fun pushed => ?_⟩
  refine ⟨⟨hstream.running, packet, rfl, rfl⟩, fun released => ?_⟩
  rcases (released : Except Hresult Unit) with err | ⟨⟩
  · exact obeys_teardown hsilence hstream.running hstream.event
  · exact ⟨hsilence, hstream.running, hstream.event, hstream.published, rfl⟩

/-- From any point every call down to the next point is permitted, whatever the replies. -/
theorem obeys_capture (v : Capture) (d : Device) (h : Between v d) :
    Obeys (protocol e) (Between) (capture e v) d := by
  obtain ⟨point, silence⟩ := v
  obtain ⟨hsilence, hpoint⟩ := h
  dsimp only at hsilence hpoint
  cases point with
  | opening =>
    obtain rfl := hpoint
    apply obeys_bind
    apply obeys_mono _ obeys_openStream
    intro r d hr
    cases r with
    | error err => exact ⟨hsilence, hr⟩
    | ok fmt => exact ⟨hsilence, hr⟩
  | waiting fmt =>
    have hstream : Streaming fmt d := hpoint
    refine ⟨⟨hstream.running, hstream.event, hstream.held⟩, fun wait => ?_⟩
    change Obeys _ _ (if wait ≠ e.waitObject0 then teardown _ _ else Prog.ret _) d
    split
    · exact obeys_teardown hsilence hstream.running hstream.event
    · exact ⟨hsilence, hstream⟩
  | draining fmt =>
    have hstream : Streaming fmt d := hpoint
    refine ⟨⟨hstream.running, hstream.held⟩, fun buffer => ?_⟩
    rcases (buffer : Except Hresult Packet) with err | packet
    · exact obeys_teardown hsilence hstream.running hstream.event
    · change Obeys _ _ (if packet.frames = 0 then _ else _)
        (if packet.frames = 0 then d
          else { d with held := some (packet, false), taken := d.taken ++ [packet] })
      by_cases hframes : packet.frames = 0
      · rw [if_pos hframes, if_pos hframes]
        exact ⟨hsilence, hstream⟩
      · rw [if_neg hframes, if_neg hframes]
        cases hsilent : packet.silent with
        | true =>
          obtain ⟨hzero, htake⟩ := resize_zero hsilence (packet.bytes fmt)
          apply obeys_packet hstream hzero
          rw [Packet.payload, if_pos hsilent]
          exact htake
        | false =>
          apply obeys_packet hstream hsilence
          rw [Packet.payload, if_neg (Bool.not_eq_true _ ▸ hsilent)]
  | done result => exact ⟨hsilence, hpoint⟩

end Obedience

section Ledger

variable (e : Endpoint)

def Device.unpushed (d : Device) (fmt : AudioFormat) : List (List UInt8) :=
  match d.held with
  | some (packet, false) => [packet.payload fmt]
  | _ => []

/-- The format is that of the first candidate that was taken, and the ring has been given every
packet of the stream, in order, but for the one in the buffer. -/
structure Booked (d : Device) : Prop where
  chosen : ∀ wfx, d.accepted = some wfx → Next e wfx d
  parsed : ∀ fmt, d.published = some fmt → ∃ wfx, d.accepted = some wfx ∧
    parseAudioFormat e.platform wfx.toWaveFormatExtensible = some fmt
  quiet : d.published = none → d.client ≠ .running ∧ d.held = none ∧ d.taken = [] ∧ d.pushes = []
  pushed : ∀ fmt, d.published = some fmt →
    d.taken.map (·.payload fmt) = d.pushes ++ d.unpushed fmt

variable {e} {d : Device}

theorem booked_blank : Booked e blank := ⟨nofun, nofun, fun _ => ⟨nofun, rfl, rfl, rfl⟩, nofun⟩

theorem booked_client {com : Bool} {client : Client} {event : Handle} (h : Booked e d)
    (hclient : d.published = none → client ≠ .running) :
    Booked e { d with com := com, client := client, event := event } :=
  ⟨h.chosen, h.parsed, fun hnone => ⟨hclient hnone, (h.quiet hnone).2⟩, h.pushed⟩

theorem booked_getBuffer {packet : Packet} (h : Booked e d) (hrunning : d.client = .running)
    (hheld : d.held = none) :
    Booked e { d with held := some (packet, false), taken := d.taken ++ [packet] } := by
  refine ⟨h.chosen, h.parsed, fun hnone => absurd hrunning (h.quiet hnone).1, fun fmt hfmt => ?_⟩
  have hpushed := h.pushed fmt hfmt
  simp only [Device.unpushed, hheld, List.append_nil] at hpushed
  simp [Device.unpushed, hpushed]

theorem booked_request (r : Request) (reply : Except Hresult r.Value)
    (hop : permits e (.request r) d) (h : Booked e d) :
    Booked e (after e (.request r) reply d) := by
  have hsame : d.published = none → d.client ≠ .running := fun hnone => (h.quiet hnone).1
  rcases reply with err | a
  · cases r with
    | init duration wfx =>
      apply booked_client h
      intro _
      split <;> decide
    | stop => exact booked_client h fun _ => by decide
    | closeHandle => exact booked_client h hsame
    | _ => exact h
  · cases r with
    | coInitializeEx => exact booked_client h hsame
    | activate => exact booked_client h fun _ => by decide
    | init duration wfx => exact booked_client h fun _ => by decide
    | createEvent => exact booked_client h hsame
    | setEventHandle => exact booked_client h fun _ => by decide
    | getService => exact booked_client h fun _ => by decide
    | start => exact booked_client h fun hnone => absurd hnone hop.2
    | stop => exact booked_client h fun _ => by decide
    | closeHandle => exact booked_client h hsame
    | getBuffer =>
      change Booked e (if _ then d else _)
      split
      · exact h
      · exact booked_getBuffer h hop.1 hop.2
    | releaseBuffer frames =>
      obtain ⟨hrunning, packet, hheld, _⟩ := hop
      refine ⟨h.chosen, h.parsed, fun hnone => absurd hrunning (hsame hnone), fun fmt hfmt => ?_⟩
      have hpushed := h.pushed fmt hfmt
      simp only [Device.unpushed, hheld] at hpushed
      exact hpushed
    | _ => exact h

theorem booked_after (op : CaptureOp) (reply : op.Reply) (d : Device)
    (hop : permits e op d) (h : Booked e d) : Booked e (after e op reply d) := by
  cases op with
  | request r => exact booked_request r reply hop h
  | isFormatSupported wfx =>
    obtain ⟨_, haccepted, hnext⟩ := hop
    have hunparsed : ∀ fmt, d.published ≠ some fmt := by
      intro fmt hfmt
      obtain ⟨wfx, hwfx, _⟩ := h.parsed fmt hfmt
      rw [haccepted] at hwfx
      cases hwfx
    change Booked e (if reply = sOk then { d with accepted := some wfx }
      else { d with rejected := d.rejected ++ [wfx] })
    split
    · refine ⟨?_, fun fmt hfmt => absurd hfmt (hunparsed fmt), h.quiet, h.pushed⟩
      intro wfx' hwfx'
      obtain rfl := Option.some.inj hwfx'
      exact hnext
    · refine ⟨?_, fun fmt hfmt => absurd hfmt (hunparsed fmt), h.quiet, h.pushed⟩
      intro wfx' hwfx'
      exact absurd hwfx' (haccepted ▸ nofun)
  | waitForSingleObject ms => exact h
  | setFormat fmt =>
    obtain ⟨_, hnone, wfx, haccepted, hparse⟩ := hop
    obtain ⟨_, hheld, htaken, hpushes⟩ := h.quiet hnone
    refine ⟨h.chosen, fun fmt' hfmt' => ?_, nofun, fun fmt' _ => ?_⟩
    · obtain rfl := Option.some.inj hfmt'
      exact ⟨wfx, haccepted, hparse⟩
    · change d.taken.map _ = d.pushes ++ d.unpushed fmt'
      rw [htaken, hpushes, Device.unpushed, hheld]
      rfl
  | pushOverwrite src =>
    obtain ⟨hrunning, packet, fmt, hheld, hpublished, rfl⟩ := hop
    refine ⟨h.chosen, h.parsed, fun hnone => absurd hrunning (h.quiet hnone).1, ?_⟩
    intro fmt' hfmt'
    have hpushed := h.pushed fmt' hfmt'
    obtain rfl : fmt = fmt' := Option.some.inj (hpublished.symm.trans hfmt')
    simp only [Device.unpushed, hheld] at hpushed
    simp [after, Device.unpushed, hheld, hpushed]

end Ledger

section Format

variable {p : Platform} {c : Candidate}

def Candidate.sampleFormat (c : Candidate) : SampleFormat :=
  if c.isFloat then .f32Le else if c.bits = 16 then .s16Le else .s32Le

def Candidate.format (c : Candidate) : AudioFormat :=
  ⟨c.rate, c.channels.toUInt32, c.sampleFormat, (c.channels * (c.bits / 8)).toUInt32⟩

/-- The parser reads back what the candidate was built from. -/
theorem parse_makeWfx (hp : p.subtypePcm ≠ p.subtypeIeeeFloat)
    (hbits : c.bits = 32 ∨ c.isFloat = false ∧ c.bits = 16) :
    parseAudioFormat p (makeWfx p c).toWaveFormatExtensible = some c.format := by
  obtain ⟨rate, channels, bits, isFloat, extensible⟩ := c
  have hpcm : pcmTag ≠ ieeeFloatTag := by decide
  have hext : extensibleTag ≠ ieeeFloatTag ∧ extensibleTag ≠ pcmTag := by decide
  rcases hbits with rfl | ⟨rfl, rfl⟩
  · cases isFloat <;> cases extensible <;>
      simp [parseAudioFormat, makeWfx, wireFormat, Candidate.format, Candidate.sampleFormat, hp,
        hpcm, hext]
  · cases extensible <;>
      simp [parseAudioFormat, makeWfx, wireFormat, Candidate.format, Candidate.sampleFormat, hp,
        hpcm, hext]

theorem candidates_carried : ∀ c ∈ candidates,
    (c.bits = 32 ∨ c.isFloat = false ∧ c.bits = 16) ∧
      c.format.frameBytes.toNat = c.format.channels.toNat * c.format.format.bytesPerSample ∧
      c.format.frameBytes.toNat ∈ [2, 4, 8] := by decide

/-- A published format is that of the first candidate that the device took: whole frames, and
one sample of every channel in each. -/
theorem booked_format {e : Endpoint} {d : Device} {fmt : AudioFormat} (h : Booked e d)
    (hp : e.platform.subtypePcm ≠ e.platform.subtypeIeeeFloat) (hfmt : d.published = some fmt) :
    ∃ pre c post, candidates = pre ++ c :: post ∧
      d.rejected = pre.map (makeWfx e.platform) ∧
      d.accepted = some (makeWfx e.platform c) ∧ fmt = c.format ∧
      fmt.frameBytes.toNat = fmt.channels.toNat * fmt.format.bytesPerSample ∧
      fmt.frameBytes.toNat ∈ [2, 4, 8] := by
  obtain ⟨wfx, haccepted, hparse⟩ := h.parsed fmt hfmt
  obtain ⟨pre, c, post, hall, hrejected, rfl⟩ := h.chosen wfx haccepted
  obtain ⟨hbits, hframe, hsize⟩ := candidates_carried c (by simp [hall])
  obtain rfl : fmt = c.format := Option.some.inj (hparse.symm.trans (parse_makeWfx hp hbits))
  exact ⟨pre, c, post, hall, hrejected, haccepted, rfl, hframe, hsize⟩

end Format

end WasapiCapture
