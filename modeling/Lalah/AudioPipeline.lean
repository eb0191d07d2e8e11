import Lalah.WasapiCapture
import Lalah.PlaybackDiagnosis

/-! The audio path as one system: the capture thread, whose calls the device answers as it
likes, the ring, and the player that waits for a format and then fills the buffers that the
sound server hands it, with the thread that prints its statistics. -/
namespace AudioPipeline

open InteractionProgram CallProtocol ByteMemory ShmContract AudioRing AudioRead
open AudioTearFreedom RestingRing PlaybackDiagnosis
open WasapiCapture hiding Next

section Model

/-- Waiting for a format, between two callbacks, and inside one: the pointers sampled, with the
backlog that they told, then the read in progress. -/
inductive Player where
  | waiting
  | resting (st : PlaybackState)
  | sampled (st : PlaybackState) (slice : List UInt8) (avail : ℕ)
  | reading (st : PlaybackState) (slice : List UInt8) (avail : ℕ)

/-- A buffer as it was handed over and as it went back; `head` is where in the stream the
`live` bytes of its window are from. -/
structure Play where
  slice : List UInt8
  window : ℕ
  budget : ℕ
  avail : ℕ
  head : ℕ
  live : ℕ
  data : Data
  deriving DecidableEq

/-- The loop of the statistics thread: `loaded` is its first load of the two. -/
structure Stats where
  lastUnderflows : UInt64
  lastOverflows : UInt64
  loaded : Option UInt64
  reports : List (UInt64 × UInt64)

structure State where
  thread : Party CaptureOp CaptureOp.Reply Capture
  device : Device
  ring : AudioTearFreedom.State
  player : Party Access Access.Reply Player
  plays : List Play
  stats : Stats

/-- `capture` is the next step of the capture thread, with what its call returns; `host` the
next access of the player; `process` a buffer from the server; `print` the next load of the
statistics thread. -/
inductive Event where
  | capture (reply : (op : CaptureOp) → op.Reply)
  | host
  | process (buffer : Option Data)
  | print

structure Config where
  endpoint : Endpoint
  latencyMs : UInt32

/-- The latency budget in bytes; both products are of 64 bits. -/
def latencyBytes (latencyMs : UInt32) (fmt : AudioFormat) : ℕ :=
  latencyMs.toNat * fmt.sampleRate.toNat % 2 ^ 64 * fmt.frameBytes.toNat % 2 ^ 64 / 1000

variable (cfg : Config) (ring : ShmAudioBuffer)

def Config.maxLatencyBytes (fmt : AudioFormat) : ℕ := latencyBytes cfg.latencyMs fmt

def Config.playback (fmt : AudioFormat) : PlaybackState :=
  ⟨ring, cfg.maxLatencyBytes fmt, fmt.frameBytes.toNat, 0, 0⟩

def poll : MemProg Player := do
  match ← ring.format with
  | none => return .waiting
  | some fmt => return .resting (cfg.playback ring fmt)

end Model

section Callback

variable (st : PlaybackState) (slice : List UInt8)

def window : ℕ := slice.length / st.stride * st.stride

def budget : ℕ := wrappingAdd (window st slice) st.maxLatencyBytes

def counted (avail : ℕ) : PlaybackState :=
  if avail > budget st slice then { st with overflows := st.overflows + 1 } else st

def finished (live : ℕ) : PlaybackState :=
  if live < window st slice then { st with underflows := st.underflows + 1 } else st

def sample : MemProg Player := do
  let (head, tail) ← st.ring.pointers
  return .sampled (counted st slice (tail - head)) slice (tail - head)

def played (avail live : ℕ) (out : List UInt8) (head : ℕ) : Play where
  slice := slice
  window := window st slice
  budget := budget st slice
  avail := avail
  head := head - live
  live := live
  data := ⟨some (out ++ slice.drop (window st slice)), st.chunk (window st slice)⟩

end Callback

section Steps

def Stats.print (s : Stats) (underflows overflows : UInt64) : Stats :=
  match s.loaded with
  | none => { s with loaded := some underflows }
  | some curr =>
    if curr ≠ s.lastUnderflows ∨ overflows ≠ s.lastOverflows then
      { lastUnderflows := curr
        lastOverflows := overflows
        loaded := none
        reports := s.reports ++ [(curr - s.lastUnderflows, overflows - s.lastOverflows)] }
    else { s with loaded := none }

def Player.shared : Player → Option PlaybackState
  | .waiting => none
  | .resting st | .sampled st _ _ | .reading st _ _ => some st

def returned (s : AudioTearFreedom.State) : Option (ℕ × List UInt8) :=
  match s.consumer.prog with
  | .ret (.idle last) => last
  | _ => none

variable (cfg : Config) (ring : ShmAudioBuffer)

def ringCall : CaptureOp → AudioTearFreedom.Event
  | .setFormat fmt => .setFormat fmt
  | .pushOverwrite src => .push src
  | _ => .produce

def State.capture (s : State) (reply : (op : CaptureOp) → op.Reply) : State :=
  match s.ring.producer.prog, s.thread.prog with
  | .act _ _, _ => { s with ring := AudioTearFreedom.next ring .produce s.ring }
  | .ret _, .ret _ => { s with thread := s.thread.invoke (WasapiCapture.capture cfg.endpoint) }
  | .ret _, .act op k =>
    { s with
      thread := settle s.thread.ctl (op :: s.thread.made) (k (reply op))
      device := after cfg.endpoint op (reply op) s.device
      ring := AudioTearFreedom.next ring (ringCall op) s.ring }

def State.host (s : State) : State :=
  match s.player.prog with
  | .act _ _ =>
    let (player, mem) := s.player.access access s.ring.mem
    { s with player := player, ring := { s.ring with mem := mem } }
  | .ret .waiting => { s with player := s.player.invoke fun _ => poll cfg ring }
  | .ret (.resting _) => s
  | .ret (.sampled st slice avail) =>
    { s with
      player := .rest (.reading st slice avail)
      ring := AudioTearFreedom.next ring
        (.read (slice.take (window st slice)) (budget st slice)) s.ring }
  | .ret (.reading st slice avail) =>
    let r := AudioTearFreedom.next ring .consume s.ring
    match returned r with
    | none => { s with ring := r }
    | some (live, out) =>
      { s with
        player := .rest (.resting (finished st slice live))
        ring := r
        plays := s.plays ++ [played st slice avail live out (word ring .head r.mem)] }

/-- A buffer that is not mapped goes back with an empty chunk; the server calls back for the
next one when it has the last. -/
def State.process (s : State) (buffer : Option Data) : State :=
  match s.player.prog, buffer with
  | .ret (.resting st), some ⟨some slice, _⟩ =>
    { s with player := s.player.invoke fun _ => sample st slice }
  | _, _ => s

def State.print (s : State) : State :=
  match s.player.ctl.shared with
  | none => s
  | some st => { s with stats := s.stats.print st.underflows st.overflows }

def next : Event → State → State
  | .capture reply, s => s.capture cfg ring reply
  | .host, s => s.host cfg ring
  | .process buffer, s => s.process buffer
  | .print, s => s.print

end Steps

/-- Any order of these steps, from a region that `init` has set up. -/
structure Run where
  cfg : Config
  ring : ShmAudioBuffer
  start : Memory
  initialized : ∃ before total,
    (ShmAudioBuffer.init ring.hdr total ring.cap).run access before = (some ring, start)
  event : ℕ → Event

def Run.state (r : Run) : ℕ → State
  | 0 => ⟨.rest ⟨.opening, []⟩, blank, ⟨r.start, .rest [], .rest (.idle none)⟩, .rest .waiting, [],
      ⟨0, 0, none, []⟩⟩
  | t + 1 => next r.cfg r.ring (r.event t) (r.state t)

def Run.mem (r : Run) (t : ℕ) : Memory := (r.state t).ring.mem

def Run.device (r : Run) (t : ℕ) : Device := (r.state t).device

def Run.plays (r : Run) (t : ℕ) : List Play := (r.state t).plays

section Ring

abbrev Loads (p : MemProg Player) : Prop :=
  p.Ensures (fun _ _ => True) (StoresIn fun _ => False) fun c =>
    ∀ st slice avail, c ≠ .reading st slice avail

structure Reading (q : AudioTearFreedom.State) : Prop where
  busy : q.consumer.Busy →
    q.consumer.prog.Ensures (fun _ _ => True) (fun _ => True) (· ≠ .idle none)
  rest : ∀ c, q.consumer.prog = .ret c → ∃ l, q.consumer = .rest (.reading l)

/-- The ring's reader is at rest between two callbacks, and inside a read behind its start. -/
structure Attuned (s : State) : Prop where
  player : s.player.Busy → Loads s.player.prog
  reading : ∀ st slice avail, s.player.prog = .ret (.reading st slice avail) → Reading s.ring
  idle : (∀ st slice avail, s.player.prog ≠ .ret (.reading st slice avail)) →
    ∃ last, s.ring.consumer = .rest (.idle last)

def State.stay (s : State) : AudioTearFreedom.Event :=
  match s.player.prog with
  | .ret (.reading _ _ _) => .read [] 0
  | _ => .consume

def State.ringEvent (s : State) : Event → AudioTearFreedom.Event
  | .capture _ =>
    match s.ring.producer.prog, s.thread.prog with
    | .ret _, .act op _ => ringCall op
    | _, _ => .produce
  | .host =>
    match s.player.prog with
    | .ret (.sampled st slice _) => .read (slice.take (window st slice)) (budget st slice)
    | _ => .consume
  | .process _ | .print => s.stay

variable {cfg : Config} {ring : ShmAudioBuffer} {s : State}

theorem produce_rest {q : AudioTearFreedom.State} {c : List (List UInt8)}
    (h : q.producer.prog = .ret c) : AudioTearFreedom.next ring .produce q = q := by
  simp only [AudioTearFreedom.next, access_rest h]

theorem consume_rest {q : AudioTearFreedom.State} {last : Option (ℕ × List UInt8)}
    (h : q.consumer = .rest (.idle last)) : AudioTearFreedom.next ring .consume q = q := by
  obtain ⟨mem, producer, consumer⟩ := q
  obtain rfl : consumer = _ := h
  rfl

theorem reading_active {q : AudioTearFreedom.State} (h : Reading q) : ¬ Idle q := by
  intro hidle
  unfold Idle at hidle
  split at hidle
  next last hp =>
    obtain ⟨l, hl⟩ := h.rest _ hp
    rw [hl] at hp
    cases hp
  next => exact hidle

theorem read_inside {q : AudioTearFreedom.State} (h : Reading q) (out : List UInt8)
    (maxLatency : ℕ) : AudioTearFreedom.next ring (.read out maxLatency) q = q := by
  obtain ⟨mem, producer, consumer⟩ := q
  have hstay : consumer.invoke (startRead ring out maxLatency) = consumer := by
    rcases busy_or_rest consumer with hb | ⟨c, hc⟩
    · exact invoke_busy hb
    · obtain ⟨l, hl⟩ := h.rest c hc
      obtain rfl : consumer = .rest (.reading l) := hl
      rfl
  simp only [AudioTearFreedom.next, hstay]

theorem reading_start {q : AudioTearFreedom.State} {last : Option (ℕ × List UInt8)}
    (h : q.consumer = .rest (.idle last)) (out : List UInt8) (maxLatency : ℕ) :
    Reading (AudioTearFreedom.next ring (.read out maxLatency) q) := by
  have hconsumer : (AudioTearFreedom.next ring (.read out maxLatency) q).consumer =
      settle (.idle last) [] (startRead ring out maxLatency (.idle last)) := invoke_rest (by rw [h]; rfl)
  constructor
  · intro _
    rw [hconsumer, settle_prog]
    exact ⟨trivial, fun _ _ => nofun⟩
  · intro c hc
    rw [hconsumer] at hc
    cases hc

/-- A step inside a read stays inside it, or is its end. -/
theorem reading_consume {q : AudioTearFreedom.State} (h : Reading q) :
    Reading (AudioTearFreedom.next ring .consume q) ∨ ∃ live out,
      (AudioTearFreedom.next ring .consume q).consumer = .rest (.idle (some (live, out))) := by
  have hpass : ∀ l, (readOn ring (.reading l)).Ensures (fun _ _ => True) (fun _ => True)
      (· ≠ .idle none) := by
    intro l
    apply ensures_bind (every_iff_ensures.mp (every_mono (storesOnly_readPass l) fun _ _ => trivial))
    intro p _
    cases p <;> nofun
  rcases busy_or_rest q.consumer with ⟨op, k, hp⟩ | ⟨c, hc⟩
  · have hconsumer : (AudioTearFreedom.next ring .consume q).consumer =
        settle q.consumer.ctl (op :: q.consumer.made) (k (access op q.mem).1) := by
      simp only [AudioTearFreedom.next, advance_busy ⟨op, k, hp⟩, access_act hp]
    have hrest := h.busy ⟨op, k, hp⟩
    rw [hp] at hrest
    have hnext := hrest.2 (access op q.mem).1 trivial
    cases hk : k (access op q.mem).1 with
    | act op' k' =>
      rw [hk] at hnext hconsumer
      refine Or.inl ⟨fun _ => hconsumer ▸ hnext, fun c hc => ?_⟩
      rw [hconsumer] at hc
      cases hc
    | ret c =>
      rw [hk] at hnext hconsumer
      rcases c with (_ | ⟨live, out⟩) | l
      · exact absurd rfl hnext
      · exact Or.inr ⟨live, out, hconsumer⟩
      · have hend : (AudioTearFreedom.next ring .consume q).consumer.prog = .ret (.reading l) := by
          rw [hconsumer]
          rfl
        exact Or.inl ⟨fun hb => absurd hb (not_busy hend), fun c hc => ⟨l, hconsumer⟩⟩
  · obtain ⟨l, hl⟩ := h.rest c hc
    have hconsumer : (AudioTearFreedom.next ring .consume q).consumer =
        settle (.reading l) [] (readOn ring (.reading l)) := by
      simp only [AudioTearFreedom.next, hl]
      rfl
    refine Or.inl ⟨fun _ => ?_, fun c hc => ?_⟩
    · rw [hconsumer, settle_prog]
      exact hpass l
    · rw [hconsumer] at hc
      cases hc

theorem next_stay (h : Attuned s) : AudioTearFreedom.next ring s.stay s.ring = s.ring := by
  unfold State.stay
  split
  next st slice avail hp => exact read_inside (h.reading st slice avail hp) _ _
  next hp =>
    obtain ⟨last, hlast⟩ := h.idle hp
    exact consume_rest hlast

theorem process_ring (buffer : Option Data) : (s.process buffer).ring = s.ring := by
  unfold State.process
  split <;> rfl

theorem print_ring : s.print.ring = s.ring := by
  unfold State.print
  split <;> rfl

theorem mem_loaded (h : Attuned s) {op : Access} {k : op.Reply → MemProg Player}
    (hp : s.player.prog = .act op k) : (access op s.ring.mem).2 = s.ring.mem := by
  have hloads := h.player ⟨op, k, hp⟩
  rw [hp] at hloads
  exact sameOutside_none (hloads.1.sameOutside s.ring.mem)

/-- Whatever the system does, the ring takes one step of its own. -/
theorem next_ring (h : Attuned s) (e : Event) :
    (next cfg ring e s).ring = AudioTearFreedom.next ring (s.ringEvent e) s.ring := by
  cases e with
  | capture reply =>
    rcases busy_or_rest s.ring.producer with ⟨op, k, hp⟩ | ⟨pushed, hp⟩
    · simp only [next, State.capture, State.ringEvent, hp]
    · rcases busy_or_rest s.thread with ⟨op, k, hk⟩ | ⟨c, hc⟩
      · simp only [next, State.capture, State.ringEvent, hp, hk]
      · simp only [next, State.capture, State.ringEvent, hp, hc]
        exact (produce_rest hp).symm
  | host =>
    rcases busy_or_rest s.player with ⟨op, k, hp⟩ | ⟨c, hp⟩
    · obtain ⟨last, hlast⟩ := h.idle (by simp [hp])
      simp only [next, State.host, State.ringEvent, hp, access_act hp, mem_loaded h hp]
      exact (consume_rest hlast).symm
    · cases c with
      | waiting =>
        obtain ⟨last, hlast⟩ := h.idle (by simp [hp])
        simp only [next, State.host, State.ringEvent, hp]
        exact (consume_rest hlast).symm
      | resting st =>
        obtain ⟨last, hlast⟩ := h.idle (by simp [hp])
        simp only [next, State.host, State.ringEvent, hp]
        exact (consume_rest hlast).symm
      | sampled st slice avail => simp only [next, State.host, State.ringEvent, hp]
      | reading st slice avail =>
        simp only [next, State.host, State.ringEvent, hp]
        split <;> rfl
  | process buffer => exact (process_ring buffer).trans (next_stay h).symm
  | print => exact print_ring.trans (next_stay h).symm

theorem attuned_ring {q : AudioTearFreedom.State} (h : Attuned s)
    (hconsumer : q.consumer = s.ring.consumer) : Attuned { s with ring := q } := by
  refine ⟨h.player, fun st slice avail hp => ?_, fun hp => hconsumer ▸ h.idle hp⟩
  obtain ⟨hbusy, hrest⟩ := h.reading st slice avail hp
  exact ⟨fun hb => by rw [hconsumer] at hb ⊢; exact hbusy hb,
    fun c hc => by rw [hconsumer] at hc ⊢; exact hrest c hc⟩

theorem consumer_ringCall (op : CaptureOp) (q : AudioTearFreedom.State) :
    (AudioTearFreedom.next ring (ringCall op) q).consumer = q.consumer := by
  cases op <;> rfl

theorem attuned_invoke {p : MemProg Player} {player : Party Access Access.Reply Player}
    (hplayer : player.prog = p) (h : Loads p)
    (hidle : ∃ last, s.ring.consumer = .rest (.idle last)) :
    Attuned { s with player := player } := by
  refine ⟨fun _ => hplayer ▸ h, fun st slice avail hp => ?_, fun _ => hidle⟩
  rw [hplayer] at hp
  rw [hp] at h
  exact absurd rfl (h st slice avail)

theorem storesOnly_format : StoresOnly (fun _ => False) ring.format := by
  apply AudioRead.storesOnly_load
  intro frameBytes
  split
  · trivial
  apply AudioRead.storesOnly_load
  intro format
  split
  · trivial
  apply AudioRead.storesOnly_load
  intro rate
  exact AudioRead.storesOnly_load fun channels => trivial

theorem loads_poll : Loads (poll cfg ring) := by
  apply ensures_bind (every_iff_ensures.mp storesOnly_format)
  intro fmt _
  cases fmt <;> nofun

theorem loads_sample (st : PlaybackState) (slice : List UInt8) : Loads (sample st slice) := by
  have hpointers : StoresOnly (fun _ => False) st.ring.pointers :=
    AudioRead.storesOnly_load fun head => AudioRead.storesOnly_load fun tail => trivial
  exact ensures_bind (every_iff_ensures.mp hpointers) fun _ _ => nofun

theorem attuned_host (h : Attuned s) : Attuned (s.host cfg ring) := by
  rcases busy_or_rest s.player with ⟨op, k, hp⟩ | ⟨c, hp⟩
  · have hidle := h.idle (by simp [hp])
    have hloads := h.player ⟨op, k, hp⟩
    rw [hp] at hloads
    simp only [State.host, hp, access_act hp, mem_loaded h hp]
    exact attuned_invoke (settle_prog _ _ _) (hloads.2 _ trivial) hidle
  cases c with
  | waiting =>
    have hidle := h.idle (by simp [hp])
    simp only [State.host, hp, invoke_rest hp]
    exact attuned_invoke (settle_prog _ _ _) loads_poll hidle
  | resting st =>
    simp only [State.host, hp]
    exact h
  | sampled st slice avail =>
    obtain ⟨last, hlast⟩ := h.idle (by simp [hp])
    simp only [State.host, hp]
    refine ⟨fun hb => absurd hb (not_busy rfl), fun _ _ _ _ => reading_start hlast _ _, fun hno => ?_⟩
    exact absurd rfl (hno st slice avail)
  | reading st slice avail =>
    have hreading := h.reading st slice avail hp
    simp only [State.host, hp]
    rcases @reading_consume ring s.ring hreading with hstay | ⟨live, out, hend⟩
    · have hnone : returned (AudioTearFreedom.next ring .consume s.ring) = none := by
        unfold returned
        split
        next last hlast => exact absurd (by simp [Idle, hlast]) (reading_active hstay)
        next => rfl
      rw [hnone]
      exact ⟨h.player, fun _ _ _ _ => hstay, fun hno => absurd hp (hno st slice avail)⟩
    · have hsome : returned (AudioTearFreedom.next ring .consume s.ring) = some (live, out) := by
        rw [returned, hend]
        rfl
      rw [hsome]
      refine ⟨fun hb => absurd hb (not_busy rfl), fun _ _ _ hread => ?_, fun _ => ⟨_, hend⟩⟩
      cases hread

theorem attuned_process (buffer : Option Data) (h : Attuned s) : Attuned (s.process buffer) := by
  unfold State.process
  split
  next st slice _ hp =>
    rw [invoke_rest hp]
    exact attuned_invoke (settle_prog _ _ _) (loads_sample st slice) (h.idle (by simp [hp]))
  next => exact h

theorem attuned_next (h : Attuned s) (e : Event) : Attuned (next cfg ring e s) := by
  cases e with
  | capture reply =>
    rcases busy_or_rest s.ring.producer with ⟨op, k, hp⟩ | ⟨pushed, hp⟩
    · simp only [next, State.capture, hp]
      exact attuned_ring h rfl
    · rcases busy_or_rest s.thread with ⟨op, k, hk⟩ | ⟨c, hc⟩
      · simp only [next, State.capture, hp, hk]
        have hring := attuned_ring h (@consumer_ringCall ring op s.ring)
        exact ⟨hring.player, hring.reading, hring.idle⟩
      · simp only [next, State.capture, hp, hc]
        exact ⟨h.player, h.reading, h.idle⟩
  | host => exact attuned_host h
  | process buffer => exact attuned_process buffer h
  | print =>
    simp only [next, State.print]
    split
    · exact h
    · exact ⟨h.player, h.reading, h.idle⟩

end Ring

section Runs

def Run.over (r : Run) : AudioTearFreedom.Run where
  ring := r.ring
  start := r.start
  initialized := r.initialized
  event t := (r.state t).ringEvent (r.event t)

theorem attuned_run (r : Run) (t : ℕ) : Attuned (r.state t) := by
  induction t with
  | zero => exact ⟨fun hb => absurd hb (not_busy rfl), nofun, fun _ => ⟨none, rfl⟩⟩
  | succ t ih => exact attuned_next ih (r.event t)

theorem over_state (r : Run) (t : ℕ) : r.over.state t = (r.state t).ring := by
  induction t with
  | zero => rfl
  | succ t ih =>
    have hring := @next_ring r.cfg r.ring _ (attuned_run r t) (r.event t)
    have hover : r.over.state (t + 1) =
        AudioTearFreedom.next r.ring ((r.state t).ringEvent (r.event t)) (r.over.state t) := rfl
    rw [hover, ih]
    exact hring.symm

end Runs

section Capture

variable {cfg : Config} {ring : ShmAudioBuffer} {s : State} {r : Run} {t u : ℕ}

def pushedBy : CaptureOp → List (List UInt8)
  | .pushOverwrite src => [src]
  | _ => []

theorem pushes_after (e : Endpoint) (op : CaptureOp) (reply : op.Reply) (d : Device) :
    (after e op reply d).pushes = d.pushes ++ pushedBy op := by
  have hnone : d.pushes = d.pushes ++ [] := (List.append_nil _).symm
  cases op with
  | request q =>
    rcases (reply : Except Hresult q.Value) with err | a
    · cases q <;> exact hnone
    · cases q with
      | getBuffer =>
        change (if _ then d else _ : Device).pushes = _
        split <;> exact hnone
      | _ => exact hnone
  | isFormatSupported wfx =>
    change (if _ then _ else _ : Device).pushes = _
    split <;> exact hnone
  | waitForSingleObject ms => exact hnone
  | setFormat fmt => exact hnone
  | pushOverwrite src => rfl

/-- The capture thread keeps to the protocol, and the books of its device are in order. -/
structure Capturing (e : Endpoint) (s : State) : Prop where
  abides : Abides (protocol e) Between s.thread s.device
  booked : Booked e s.device

theorem capturing_next (h : Capturing cfg.endpoint s) (e : Event) :
    Capturing cfg.endpoint (next cfg ring e s) := by
  cases e with
  | capture reply =>
    rcases busy_or_rest s.ring.producer with ⟨op, k, hp⟩ | ⟨pushed, hp⟩
    · simp only [next, State.capture, hp]
      exact ⟨h.abides, h.booked⟩
    · rcases busy_or_rest s.thread with ⟨op, k, hk⟩ | ⟨c, hc⟩
      · obtain ⟨hop, hrest⟩ := abides_act h.abides hk
        simp only [next, State.capture, hp, hk]
        exact ⟨hrest (reply op) _ _, booked_after op (reply op) s.device hop h.booked⟩
      · simp only [next, State.capture, hp, hc]
        exact ⟨abides_invoke h.abides obeys_capture, h.booked⟩
  | host =>
    simp only [next, State.host]
    split
    case h_5 => split <;> exact ⟨h.abides, h.booked⟩
    all_goals exact ⟨h.abides, h.booked⟩
  | process buffer =>
    simp only [next, State.process]
    split <;> exact ⟨h.abides, h.booked⟩
  | print =>
    simp only [next, State.print]
    split <;> exact ⟨h.abides, h.booked⟩

theorem capturing_run (r : Run) (t : ℕ) : Capturing r.cfg.endpoint (r.state t) := by
  induction t with
  | zero => exact ⟨⟨nofun, rfl⟩, booked_blank⟩
  | succ t ih => exact capturing_next ih (r.event t)

/-- Whatever the device replies and whoever moves in between, every call of the capture thread
is one that its protocol permits, and when the thread is done nothing runs, with the event
closed exactly if the stream had been started. -/
theorem calls_permitted (r : Run) (t : ℕ) :
    (∀ op, (r.state t).thread.prog.pending = some op →
      permits r.cfg.endpoint op (r.device t)) ∧
    ∀ v result, (r.state t).thread.prog = .ret v → v.point = .done result →
      Ended (r.device t) := by
  have habides := (capturing_run r t).abides
  constructor
  · intro op hop
    obtain ⟨k, hk⟩ := pending_eq_some.mp hop
    exact (abides_act habides hk).1
  · intro v result hv hpoint
    rw [Abides, hv] at habides
    obtain ⟨_, hended⟩ := habides
    rw [hpoint] at hended
    exact hended

/-- The format that any run publishes is that of the first candidate that the device took:
built from it, parsed back, and whole frames. -/
theorem published_format (r : Run) (t : ℕ) {fmt : AudioFormat}
    (hp : r.cfg.endpoint.platform.subtypePcm ≠ r.cfg.endpoint.platform.subtypeIeeeFloat)
    (hfmt : (r.device t).published = some fmt) :
    ∃ pre c post, candidates = pre ++ c :: post ∧
      (r.device t).rejected = pre.map (makeWfx r.cfg.endpoint.platform) ∧
      (r.device t).accepted = some (makeWfx r.cfg.endpoint.platform c) ∧ fmt = c.format ∧
      fmt.frameBytes.toNat = fmt.channels.toNat * fmt.format.bytesPerSample ∧
      fmt.frameBytes.toNat ∈ [2, 4, 8] := booked_format (capturing_run r t).booked hp hfmt

def obliging : (op : CaptureOp) → op.Reply
  | .request .getDevicePeriod => .ok 30000
  | .request .getBufferSize => .ok (480 : UInt32)
  | .request .getBuffer => .ok (⟨fun i => .ofNat (i + 1), 1, 0⟩ : Packet)
  | .request .coInitializeEx | .request .createEnumerator | .request (.getDevice _)
  | .request .activate | .request (.init _ _) | .request .createEvent
  | .request .setEventHandle | .request .getService | .request .start
  | .request (.releaseBuffer _) | .request .stop | .request .closeHandle => .ok ()
  | .isFormatSupported _ => sOk
  | .waitForSingleObject _ => (0 : UInt32)
  | .setFormat _ | .pushOverwrite _ => ()

/-- A packet is pushed, then a buffer of nine bytes is filled. -/
def shortRun : Run where
  cfg := ⟨⟨AudioFormatParse.windows, "", 0x88890008, 0x88890019, 0, fun _ _ => 0⟩, 20⟩
  ring := monoRun.ring
  start := monoRun.start
  initialized := monoRun.initialized
  event t :=
    if t < 35 then .capture obliging
    else if t = 42 then .process (some ⟨some (List.replicate 9 7), ⟨0, 0, 0⟩⟩) else .host

/-- A device that takes one channel only, and only in the long form: the probe goes on behind
`S_FALSE`. -/
def choosy : (op : CaptureOp) → op.Reply
  | .isFormatSupported wfx =>
    if wfx = makeWfx AudioFormatParse.windows ⟨48000, 1, 16, false, true⟩ then sOk else (1 : Hresult)
  | op => obliging op

def choosyRun : Run := { shortRun with event := fun _ => .capture choosy }

theorem published_format_choosy : (choosyRun.device 40).rejected.length = 5 ∧
    ∃ pre c post, candidates = pre ++ c :: post ∧
      (choosyRun.device 40).rejected = pre.map (makeWfx AudioFormatParse.windows) ∧
      (choosyRun.device 40).accepted = some (makeWfx AudioFormatParse.windows c) ∧
      ⟨48000, 1, .s16Le, 2⟩ = c.format ∧
      (2 : UInt32).toNat = (1 : UInt16).toNat * SampleFormat.s16Le.bytesPerSample ∧
      (2 : UInt32).toNat ∈ [2, 4, 8] :=
  ⟨by decide +kernel, published_format choosyRun 40 (by decide) (by decide +kernel)⟩

theorem capture_other (h : ∀ reply, r.event t ≠ .capture reply) :
    r.device (t + 1) = r.device t := by
  have hstate : r.state (t + 1) = next r.cfg r.ring (r.event t) (r.state t) := rfl
  rw [Run.device, hstate]
  cases he : r.event t with
  | capture reply => exact absurd he (h reply)
  | host =>
    simp only [next, State.host]
    split
    case h_5 => split <;> rfl
    all_goals rfl
  | process buffer =>
    simp only [next, State.process]
    split <;> rfl
  | print =>
    simp only [next, State.print]
    split <;> rfl

theorem side_event (h : ∀ reply, r.event t ≠ .capture reply) :
    r.over.event t = .consume ∨ ∃ out maxLatency, r.over.event t = .read out maxLatency := by
  simp only [Run.over]
  cases he : r.event t with
  | capture reply => exact absurd he (h reply)
  | host =>
    simp only [State.ringEvent]
    split
    · exact Or.inr ⟨_, _, rfl⟩
    · exact Or.inl rfl
  | process buffer =>
    simp only [State.ringEvent, State.stay]
    split
    · exact Or.inr ⟨_, _, rfl⟩
    · exact Or.inl rfl
  | print =>
    simp only [State.ringEvent, State.stay]
    split
    · exact Or.inr ⟨_, _, rfl⟩
    · exact Or.inl rfl

theorem begun_quiet (h : ∀ src, (r.state t).ringEvent (r.event t) ≠ .push src) :
    begun r.over (t + 1) = begun r.over t := begun_other h

theorem begun_run (r : Run) (t : ℕ) : begun r.over t = (r.device t).pushes := by
  induction t with
  | zero => rfl
  | succ t ih =>
    have hstate : r.state (t + 1) = next r.cfg r.ring (r.event t) (r.state t) := rfl
    by_cases hother : ∀ reply, r.event t ≠ .capture reply
    · rw [capture_other hother, ← ih]
      apply begun_other
      intro src
      rcases side_event hother with he | ⟨out, maxLatency, he⟩ <;> simp [he]
    push Not at hother
    obtain ⟨reply, he⟩ := hother
    rcases busy_or_rest (r.state t).ring.producer with ⟨op, k, hp⟩ | ⟨pushed, hp⟩
    · have hdevice : r.device (t + 1) = r.device t := by
        simp only [Run.device, hstate, he, next, State.capture, hp]
      rw [begun_quiet (by simp [he, State.ringEvent, hp]), hdevice, ih]
    · rcases busy_or_rest (r.state t).thread with ⟨op, k, hk⟩ | ⟨c, hc⟩
      · have hevent : r.over.event t = ringCall op := by
          simp only [Run.over, he, State.ringEvent, hp, hk]
        have hdevice : r.device (t + 1) =
            after r.cfg.endpoint op (reply op) (r.device t) := by
          simp only [Run.device, hstate, he, next, State.capture, hp, hk]
        rw [hdevice, pushes_after, ← ih]
        cases op with
        | pushOverwrite src => exact begun_rest hevent (by rw [over_state]; exact hp)
        | _ => exact (begun_other (by simp [hevent, ringCall])).trans (List.append_nil _).symm
      · have hdevice : r.device (t + 1) = r.device t := by
          simp only [Run.device, hstate, he, next, State.capture, hp, hc]
        rw [begun_quiet (by simp [he, State.ringEvent, hp, hc]), hdevice, ih]

end Capture

end AudioPipeline
