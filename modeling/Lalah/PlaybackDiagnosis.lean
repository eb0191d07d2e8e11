import Lalah.FrameAlignment
import Lalah.RestingRing

/-! The playback callback: it samples the pointers, counts an overflow on the raw backlog and
an underflow on a short read. The read rounds its budget, its request and its backlog to
frames one by one; on a ring that is all whole frames the two agree. -/
namespace PlaybackDiagnosis

open InteractionProgram ByteMemory StreamWindow ShmContract AudioRing AudioSession
open AudioTearFreedom BoundedQueue FrameAlignment RestingRing
open LatencyQueue (Queue Aligned newest)

/-- The callback's user data, with the two counters it shares with the statistics thread. -/
structure PlaybackState where
  ring : ShmAudioBuffer
  maxLatencyBytes : ℕ
  stride : ℕ
  underflows : UInt64
  overflows : UInt64

structure Chunk where
  offset : UInt32
  stride : Int32
  size : UInt32
  deriving DecidableEq

/-- The first data block of a dequeued buffer: its bytes, when they are mapped, and the chunk
that tells the server what they hold. -/
structure Data where
  slice : Option (List UInt8)
  chunk : Chunk
  deriving DecidableEq

def PlaybackState.chunk (st : PlaybackState) (size : ℕ) : Chunk :=
  ⟨0, .ofNat st.stride, .ofNat size⟩

/-- The `process` callback, for `fuel` passes of `read_quantum`. -/
def process (fuel : ℕ) (st : PlaybackState) (buffer : Option Data) (m : Memory) :
    Option ((PlaybackState × Option Data) × Memory) :=
  match buffer with
  | none => some ((st, none), m)
  | some ⟨none, _⟩ => some ((st, some ⟨none, st.chunk 0⟩), m)
  | some ⟨some slice, _⟩ =>
    let window := slice.length / st.stride * st.stride
    let budget := wrappingAdd window st.maxLatencyBytes
    let ((head, tail), m) := (st.ring.pointers).run access m
    let avail := tail - head
    let st := if avail > budget then { st with overflows := st.overflows + 1 } else st
    match st.ring.readQuantum fuel (slice.take window) budget m with
    | none => none
    | some ((live, out), m) =>
      let st := if live < window then { st with underflows := st.underflows + 1 } else st
      some ((st, some ⟨some (out ++ slice.drop window), st.chunk window⟩), m)

/-- One frame size, published before the first callback; every push is whole frames of it,
and it divides the ring. -/
structure Playing (r : Run) (f : ℕ) : Prop where
  ring : f ∣ r.ring.cap
  pushed : ∀ t src, r.event t = .push src → f ∣ src.length
  published : ∀ t fmt, r.event t = .setFormat fmt → fmt.frameBytes.toNat = f
  framed : ∀ t out maxLatency, r.event t = .read out maxLatency →
    word r.ring .frameBytes (r.mem t) = f

/-- The read moved the head past bytes that it did not deliver. -/
def Skips (ring : ShmAudioBuffer) (m m' : Memory) (live : ℕ) : Prop :=
  word ring .head m + live < word ring .head m'

instance (ring : ShmAudioBuffer) (m m' : Memory) (live : ℕ) : Decidable (Skips ring m m' live) :=
  inferInstanceAs (Decidable (_ < _))

section Grid

variable {r : Run} {f t : ℕ}

theorem frame_pos {ring : ShmAudioBuffer} (h : f ∣ ring.cap) : 0 < f :=
  Nat.pos_of_dvd_of_pos h (cap_pos ring)

theorem playing_onGrid (h : Playing r f) : OnGrid r f := by
  have hframe : max f 1 = f := Nat.max_eq_left (frame_pos h.ring)
  refine ⟨h.ring, h.pushed, fun t fmt he => ?_, fun t out maxLatency he => ?_⟩
  · rw [h.published t fmt he, hframe]
  · rw [frameOf, h.framed t out maxLatency he, hframe]

theorem pushed_whole (h : Playing r f) (hrest : ¬ (r.state t).producer.Busy) :
    ∀ src ∈ r.pushed t, f ∣ src.length := by
  intro src hsrc
  rw [← begun_pushed hrest] at hsrc
  obtain ⟨u, hu⟩ := mem_begun hsrc
  exact h.pushed u src hu

theorem flatten_whole {slices : List (List UInt8)} (h : ∀ src ∈ slices, f ∣ src.length) :
    f ∣ slices.flatten.length := by
  induction slices with
  | nil => exact Nat.dvd_zero f
  | cons src slices ih =>
    rw [List.flatten_cons, List.length_append]
    exact Nat.dvd_add (h src List.mem_cons_self) (ih fun x hx => h x (List.mem_cons_of_mem _ hx))

/-- A queue at rest on the grid: its newest bytes are those of the slices as pushed. -/
theorem aligned_rest {ring : ShmAudioBuffer} {pushed : List (List UInt8)} {q : Queue UInt8}
    (hgroup : q.group = f) (hwritten : q.written = stream ring pushed)
    (hpushed : ∀ src ∈ pushed, f ∣ src.length) (hgrid : f ∣ q.backlog) :
    Aligned ring.cap f pushed.flatten q := by
  have hkept : stream ring pushed = pushed.flatMap (newest ring.cap) := by
    unfold stream
    congr 1
    exact funext kept_newest
  refine ⟨hgroup, flatten_whole hpushed, hwritten ▸ stream_length_le ring pushed, ?_, Or.inl hgrid⟩
  intro n hn _
  change newest n q.written = newest n pushed.flatten
  rw [← LatencyQueue.newest_newest hn, hwritten, hkept, LatencyQueue.newest_flatMap,
    LatencyQueue.newest_newest hn]

end Grid

section Read

variable {ring : ShmAudioBuffer} {q : Queue UInt8} {m m' : Memory} {out out' : List UInt8}
  {maxLatency fuel live : ℕ}

theorem read_whole (h : Refines ring q m) (hlen : q.written.length < 2 ^ 64)
    (hgrid : q.group ∣ q.backlog) (hlength : q.group ∣ out.length)
    (hle : out.length ≤ maxLatency)
    (hread : ring.readQuantum fuel out maxLatency m = some ((live, out'), m')) :
    live = min out.length q.backlog ∧ (Skips ring m m' live ↔ maxLatency < q.backlog) ∧
      (q.delivered out.length maxLatency).length = live ∧
      out' = q.delivered out.length maxLatency ++ List.replicate (out.length - live) 0 := by
  obtain ⟨hplayed, hafter⟩ := read_returned h hlen hread
  obtain ⟨hcount, hout⟩ := Prod.mk.inj hplayed
  have hdelivered : (q.delivered out.length maxLatency).length = live := hcount.symm
  have hlive : live = q.count out.length maxLatency := by
    rw [← hdelivered, q.delivered_length]
  have hhead : word ring .head m' = q.start maxLatency + live := hlive ▸ hafter.head
  refine ⟨?_, ?_, hdelivered, ?_⟩
  · rw [hlive]
    exact LatencyQueue.count_whole hgrid hlength hle
  · rw [Skips, hhead, h.head, Nat.add_lt_add_iff_right]
    exact LatencyQueue.skips_iff hgrid
  · rw [← hdelivered]
    exact hout

end Read

section Callback

variable {r : Run} {f t fuel : ℕ} {st st' : PlaybackState} {slice : List UInt8}
  {data data' : Data} {m' : Memory}

theorem process_some {window budget : ℕ} {m : Memory} {buffer : Option Data}
    (hslice : data.slice = some slice) (hwindow : window = slice.length / st.stride * st.stride)
    (hbudget : budget = wrappingAdd window st.maxLatencyBytes)
    (h : process fuel st (some data) m = some ((st', buffer), m')) :
    ∃ live out, st.ring.readQuantum fuel (slice.take window) budget m = some ((live, out), m') ∧
      buffer = some ⟨some (out ++ slice.drop window), st.chunk window⟩ ∧
      st'.overflows = (if word st.ring .tail m - word st.ring .head m > budget
        then st.overflows + 1 else st.overflows) ∧
      st'.underflows = (if live < window then st.underflows + 1 else st.underflows) := by
  obtain ⟨_, chunk⟩ := data
  obtain rfl : _ = some slice := hslice
  have hpointers : (st.ring.pointers).run access m =
      ((word st.ring .head m, word st.ring .tail m), m) := rfl
  simp only [process, hpointers, ← hwindow, ← hbudget] at h
  split_ifs at h with hover
  all_goals
    split at h
    · cases h
    · next live out m₁ hread =>
      obtain ⟨hfst, rfl⟩ := Prod.mk.inj (Option.some.inj h)
      obtain ⟨rfl, rfl⟩ := Prod.mk.inj hfst
      refine ⟨live, out, hread, ?_, ?_, ?_⟩
      all_goals split_ifs <;> simp_all [PlaybackState.chunk]

/-- What one callback reports and emits, for every buffer and every latency. -/
theorem callback_diagnosis (hplay : Playing r f) (hrest : AtRest r t)
    (hbytes : (r.pushed t).flatten.length < 2 ^ 64) (hring : st.ring = r.ring)
    (hstride : st.stride = f) (hformat : word r.ring .frameBytes (r.mem t) = f)
    (hslice : data.slice = some slice)
    (hbudget : slice.length / f * f + st.maxLatencyBytes < 2 ^ 64)
    (h : process fuel st (some data) (r.mem t) = some ((st', some data'), m')) :
    let window := slice.length / f * f
    let avail := word r.ring .tail (r.mem t) - word r.ring .head (r.mem t)
    ∃ live out, r.ring.readQuantum fuel (slice.take window) (window + st.maxLatencyBytes)
        (r.mem t) = some ((live, out), m') ∧
      live = min window avail ∧
      st'.overflows =
        (if Skips r.ring (r.mem t) m' live then st.overflows + 1 else st.overflows) ∧
      st'.underflows = (if avail < window then st.underflows + 1 else st.underflows) ∧
      ∃ bytes, bytes.length = live ∧ WholeFrames f (r.pushed t) bytes ∧
        data' = ⟨some (bytes ++ List.replicate (window - live) 0 ++ slice.drop window),
          st.chunk window⟩ := by
  intro window avail
  have hfits : (stream r.ring (r.pushed t)).length < 2 ^ 64 :=
    (stream_length_le r.ring (r.pushed t)).trans_lt hbytes
  obtain ⟨q, hrefines, hwritten, hend, hconsumed⟩ :=
    rest_refines (playing_onGrid hplay) hrest.producer hfits
  have hlen : q.written.length < 2 ^ 64 := hwritten ▸ hfits
  have hgroup : q.group = f := by
    rw [← hrefines.group, frameOf, hformat]
    exact Nat.max_eq_left (frame_pos hplay.ring)
  have havail : avail = q.backlog := by
    change word r.ring .tail (r.mem t) - word r.ring .head (r.mem t) = _
    rw [hrefines.tail, hrefines.head]
    rfl
  have hgrid : f ∣ q.backlog := Nat.dvd_sub hend hconsumed
  have hwindow : f ∣ window := Nat.dvd_mul_left f _
  have hlength : (slice.take window).length = window := by
    rw [List.length_take]
    exact Nat.min_eq_left (Nat.div_mul_le_self _ _)
  obtain ⟨live, out, hread, hdata, hover, hunder⟩ := process_some hslice
    (show window = _ by rw [hstride]) (Nat.mod_eq_of_lt hbudget).symm h
  rw [hring] at hread hover
  obtain ⟨hlive, hskips, hdelivered, hout⟩ := read_whole hrefines hlen (hgroup ▸ hgrid)
    (by rw [hlength, hgroup]; exact hwindow) (by rw [hlength]; exact Nat.le_add_right _ _) hread
  rw [hlength] at hlive hdelivered hout
  rw [← havail] at hlive hskips
  refine ⟨live, out, hread, hlive, ?_, ?_, _, hdelivered, ?_, ?_⟩
  · rw [hover]
    exact if_congr hskips.symm rfl rfl
  · have hshort : live < window ↔ avail < window := by omega
    rw [hunder]
    exact if_congr hshort rfl rfl
  · have haligned := aligned_rest hgroup hwritten (pushed_whole hplay hrest.producer) hgrid
    refine wholeFrames_delivered haligned (frame_pos hplay.ring)
      (pushed_whole hplay hrest.producer) ?_ (read_within hrefines hlen hread)
    exact hgroup ▸ q.group_dvd_lag _ (hgroup ▸ hgrid)
  · rw [Option.some.inj hdata, hout]

theorem frame_dvd_cap {ring : ShmAudioBuffer} (hcap : 8 ≤ ring.cap) (hf : f ∈ [2, 4, 8]) :
    f ∣ ring.cap := by
  obtain ⟨k, _, hk⟩ := ring.pow2
  have height : 2 ^ 3 ∣ ring.cap := by
    rw [hk] at hcap ⊢
    exact Nat.pow_dvd_pow 2 ((Nat.pow_le_pow_iff_right (show 1 < 2 by decide)).mp hcap)
  have hsmall : f ∣ 2 ^ 3 := by
    simp only [List.mem_cons, List.not_mem_nil, or_false] at hf
    rcases hf with rfl | rfl | rfl <;> decide
  exact hsmall.trans height

def monoEvents : List Event :=
  .setFormat ⟨48000, 1, .s16Le, 2⟩ :: List.replicate 4 .produce ++
    .push [1, 2, 3, 4, 5, 6] :: List.replicate 11 .produce

def monoRun : Run where
  ring := ⟨0, 8, 3, by decide, rfl⟩
  start := ((ShmAudioBuffer.init 0 256 8).run access fun _ => 0).2
  initialized := ⟨fun _ => 0, 256, rfl⟩
  event t := monoEvents.getD t .produce

theorem monoRun_event (t : ℕ) : monoRun.event t ∈ Event.produce :: monoEvents := by
  change monoEvents.getD t .produce ∈ _
  rw [List.getD_eq_getElem?_getD]
  cases h : monoEvents[t]? with
  | none => exact List.mem_cons_self
  | some e => exact List.mem_cons_of_mem _ (List.mem_of_getElem? h)

theorem monoRun_playing : Playing monoRun 2 := by
  refine ⟨frame_dvd_cap (by decide) (by decide), ?_, ?_, ?_⟩
  · intro t src he
    have hmem := monoRun_event t
    rw [he] at hmem
    obtain rfl : src = [1, 2, 3, 4, 5, 6] := by simpa [monoEvents] using hmem
    decide
  · intro t fmt he
    have hmem := monoRun_event t
    rw [he] at hmem
    obtain rfl : fmt = ⟨48000, 1, .s16Le, 2⟩ := by simpa [monoEvents] using hmem
    rfl
  · intro t out maxLatency he
    have hmem := monoRun_event t
    rw [he] at hmem
    simp [monoEvents] at hmem

def monoState : PlaybackState := ⟨monoRun.ring, 1, 2, 0, 0⟩

/-- A buffer of nine bytes: the window is four frames, one more than there is. -/
theorem callback_diagnosis_mono : ∃ st' data' m',
    process 1 monoState (some ⟨some (List.replicate 9 7), ⟨0, 0, 0⟩⟩) (monoRun.mem 17) =
      some ((st', some data'), m') ∧ st'.underflows = 1 ∧
      ∃ bytes, WholeFrames 2 (monoRun.pushed 17) bytes ∧
        data' = ⟨some (bytes ++ [0, 0] ++ [7]), ⟨0, 2, 8⟩⟩ := by
  have hsome : (process 1 monoState (some ⟨some (List.replicate 9 7), ⟨0, 0, 0⟩⟩)
      (monoRun.mem 17)).isSome := by decide +kernel
  obtain ⟨⟨⟨st', buffer⟩, m'⟩, h⟩ := Option.isSome_iff_exists.mp hsome
  obtain ⟨_, _, _, rfl, _⟩ := process_some rfl rfl rfl h
  have hrest : AtRest monoRun 17 :=
    ⟨not_busy (result_eq_some (a := [[1, 2, 3, 4, 5, 6]]).mp (by decide +kernel)),
      by decide +kernel⟩
  obtain ⟨live, out, _, hlive, _, hunder, bytes, _, hframes, hdata⟩ :=
    callback_diagnosis monoRun_playing hrest (by decide +kernel) rfl rfl (by decide +kernel) rfl
      (by decide +kernel) h
  have hsix : live = 6 := hlive.trans (by decide +kernel)
  refine ⟨st', _, m', h, hunder.trans (if_pos (by decide +kernel)), bytes, hframes, ?_⟩
  rw [hdata, hsix]
  rfl

end Callback

end PlaybackDiagnosis
