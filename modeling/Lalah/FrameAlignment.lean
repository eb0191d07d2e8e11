import Lalah.BoundedQueue

/-! Whole PCM frames in, whole PCM frames out. The frame size need not divide the ring:
a push longer than the ring may cut a frame, but it also fills the ring, and a read whose
latency is within the ring then skips to the frame grid measured from the newest byte. -/
namespace FrameAlignment

open InteractionProgram ByteMemory ShmContract AudioRing AudioSession BoundedQueue
open LatencyQueue (Queue Delivery deliveries frames Aligned)

/-- One format, published before the first push; every push is whole frames of it, and no
read allows more latency than the ring holds. -/
structure Framed (ring : ShmAudioBuffer) (fmt : AudioFormat) (calls : List Call) : Prop where
  published : ∃ pre post, calls = pre ++ .setFormat fmt :: post ∧
    (∀ c ∈ pre, ∃ out maxLatency, c = .read out maxLatency) ∧
    ∀ c ∈ post, ∀ fmt', c ≠ .setFormat fmt'
  positive : 0 < fmt.frameBytes.toNat
  pushed : ∀ src, .push src ∈ calls → fmt.frameBytes.toNat ∣ src.length
  latency : ∀ out maxLatency, .read out maxLatency ∈ calls → maxLatency ≤ ring.cap

/-- A run of consecutive frames of the pushed slices. -/
def WholeFrames (f : ℕ) (pushed : List (List UInt8)) (bytes : List UInt8) : Prop :=
  ∃ a c, a + c ≤ (pushed.flatMap (frames f)).length ∧ bytes.length = c * f ∧
    bytes = (((pushed.flatMap (frames f)).drop a).take c).flatten

section Frames

variable {f : ℕ} {pushed : List (List UInt8)} {bytes : List UInt8}

theorem wholeFrames_nil : WholeFrames f pushed [] := ⟨0, 0, by simp, by simp, by simp⟩

theorem WholeFrames.snoc (h : WholeFrames f pushed bytes) (src : List UInt8) :
    WholeFrames f (pushed ++ [src]) bytes := by
  obtain ⟨a, c, hle, hlen, hbytes⟩ := h
  refine ⟨a, c, ?_, hlen, ?_⟩
  · rw [List.flatMap_append, List.length_append]
    omega
  · rw [hbytes, List.flatMap_append, List.drop_append_of_le_length (by omega),
      List.take_append_of_le_length (by rw [List.length_drop]; omega)]

/-- The abstract read on the grid, in terms of the slices' frames. -/
theorem wholeFrames_delivered {cap length latency : ℕ} {q : Queue UInt8}
    (h : Aligned cap f pushed.flatten q) (hf : 0 < f) (hpushed : ∀ src ∈ pushed, f ∣ src.length)
    (hwhole : f ∣ q.written.length - q.start latency)
    (hwindow : q.written.length - q.start latency ≤ cap) :
    WholeFrames f pushed (q.delivered length latency) := by
  obtain ⟨a, c, hcount, hrange, hitems⟩ :=
    LatencyQueue.aligned_delivered h hwhole hwindow length
  rw [← LatencyQueue.frames_all_flatten hpushed] at hrange hitems
  obtain ⟨hle, hslice⟩ := LatencyQueue.flatten_slice LatencyQueue.frames_all hf hrange
  refine ⟨a, c, hle, ?_, hitems.trans hslice⟩
  rw [q.delivered_length, hcount]

end Frames

section Runs

variable {ring : ShmAudioBuffer} {fmt : AudioFormat} {calls pre post : List Call}
  {results : List (ℕ × List UInt8)} {m : Memory}

theorem mem_pushes {src : List UInt8} : src ∈ pushes calls ↔ .push src ∈ calls := by
  rw [pushes, List.mem_flatMap]
  constructor
  · rintro ⟨c, hc, hsrc⟩
    cases c with
    | push src' =>
      obtain rfl : src = src' := by simpa [Call.pushed] using hsrc
      exact hc
    | setFormat fmt => cases hsrc
    | read out maxLatency => cases hsrc
  · intro h
    exact ⟨_, h, by simp [Call.pushed]⟩

abbrev readsOf (ring : ShmAudioBuffer) (calls : List Call) : List (Delivery UInt8) :=
  deliveries ring.cap LatencyQueue.empty (calls.map Call.op)

theorem readsOf_snoc (c : Call) : readsOf ring (calls ++ [c]) =
    readsOf ring calls ++ deliveries ring.cap (queue ring calls) [c.op] := by
  rw [readsOf, List.map_append, List.map_singleton, LatencyQueue.deliveries_after]
  rfl

theorem reads_only (h : ∀ c ∈ pre, ∃ out maxLatency, c = .read out maxLatency) :
    pushes pre = [] ∧ ∀ d ∈ readsOf ring pre, d.items = [] := by
  induction pre using List.reverseRecOn with
  | nil => exact ⟨rfl, fun d hd => by cases hd⟩
  | append_singleton pre c ih =>
    obtain ⟨hnone, hitems⟩ := ih fun c hc => h c (List.mem_append_left _ hc)
    obtain ⟨out, maxLatency, rfl⟩ := h c (by simp)
    refine ⟨by rw [pushes_snoc, hnone]; rfl, fun d hd => ?_⟩
    rw [readsOf_snoc, List.mem_append] at hd
    rcases hd with hd | hd
    · exact hitems d hd
    · obtain rfl := List.mem_singleton.mp hd
      have hwritten : (queue ring pre).written = [] := by rw [queue_written, hnone]; rfl
      rw [Delivery.items, Queue.delivered, hwritten, List.drop_nil, List.take_nil]

theorem published_aligned (hf : 0 < fmt.frameBytes.toNat)
    (hpre : ∀ c ∈ pre, ∃ out maxLatency, c = .read out maxLatency) :
    Aligned ring.cap fmt.frameBytes.toNat (pushes (pre ++ [.setFormat fmt])).flatten
      (queue ring (pre ++ [.setFormat fmt])) := by
  have hnone : pushes pre = [] := (@reads_only ring pre hpre).1
  have hwritten : (queue ring pre).written = [] := by rw [queue_written, hnone]; rfl
  rw [queue_snoc, pushes_snoc, hnone]
  refine ⟨Nat.max_eq_left hf, Nat.dvd_zero _, ?_, fun r _ _ => ?_, Or.inl ?_⟩
  · change (queue ring pre).written.length ≤ _
    simp [hwritten]
  · change (queue ring pre).written.drop _ = _
    simp [hwritten, Call.pushed]
  · change _ ∣ (queue ring pre).written.length - (queue ring pre).consumed
    simp [hwritten]

theorem framed_run (hf : 0 < fmt.frameBytes.toNat)
    (hpre : ∀ c ∈ pre, ∃ out maxLatency, c = .read out maxLatency)
    (hpost : ∀ c ∈ post, ∀ fmt', c ≠ .setFormat fmt')
    (hpushed : ∀ src, .push src ∈ post → fmt.frameBytes.toNat ∣ src.length)
    (hlatency : ∀ out maxLatency, .read out maxLatency ∈ post → maxLatency ≤ ring.cap) :
    let calls := pre ++ [.setFormat fmt] ++ post
    Aligned ring.cap fmt.frameBytes.toNat (pushes calls).flatten (queue ring calls) ∧
      ∀ d ∈ readsOf ring calls, WholeFrames fmt.frameBytes.toNat (pushes calls) d.items := by
  induction post using List.reverseRecOn with
  | nil =>
    rw [List.append_nil]
    refine ⟨published_aligned hf hpre, fun d hd => ?_⟩
    rw [readsOf_snoc] at hd
    rw [(reads_only hpre).2 d (by simpa [deliveries, Call.op] using hd)]
    exact wholeFrames_nil
  | append_singleton post c ih =>
    obtain ⟨haligned, hreads⟩ := ih (fun c hc => hpost c (List.mem_append_left _ hc))
      (fun src hc => hpushed src (List.mem_append_left _ hc))
      (fun out maxLatency hc => hlatency out maxLatency (List.mem_append_left _ hc))
    rw [← List.append_assoc]
    dsimp only
    rw [pushes_snoc, queue_snoc, readsOf_snoc]
    cases c with
    | push src =>
      refine ⟨?_, fun d hd => ?_⟩
      · have hsrc := hpushed src (by simp)
        rw [Call.pushed, List.flatten_append, List.flatten_singleton]
        exact LatencyQueue.aligned_push haligned hsrc
      · exact (hreads d (by simpa [deliveries, Call.op] using hd)).snoc src
    | setFormat fmt' => exact absurd rfl (hpost (.setFormat fmt') (by simp) fmt')
    | read out maxLatency =>
      have hlat := hlatency out maxLatency (by simp)
      have hall : ∀ src ∈ pushes (pre ++ [.setFormat fmt] ++ post),
          fmt.frameBytes.toNat ∣ src.length := by
        intro src hsrc
        rcases List.mem_append.mp (mem_pushes.mp hsrc) with hsrc | hsrc
        · rcases List.mem_append.mp hsrc with hsrc | hsrc
          · obtain ⟨_, _, hread⟩ := hpre _ hsrc
            cases hread
          · simp at hsrc
        · exact hpushed src (List.mem_append_left _ hsrc)
      rw [Call.pushed, List.append_nil]
      refine ⟨LatencyQueue.aligned_read haligned hlat out.length, fun d hd => ?_⟩
      rcases List.mem_append.mp hd with hd | hd
      · exact hreads d hd
      · obtain rfl := List.mem_singleton.mp hd
        obtain ⟨hwhole, hwindow⟩ := LatencyQueue.lag_whole haligned hlat
        exact wholeFrames_delivered haligned hf hall hwhole hwindow

/-- Every read of such a session delivers consecutive whole frames of the pushed slices. -/
theorem frames_never_split (h : Session ring calls results m) (hframed : Framed ring fmt calls)
    (hbytes : (queue ring calls).written.length < 2 ^ 64) {n : ℕ} {out' : List UInt8}
    (hread : (n, out') ∈ results) : (out'.take n).length = n ∧
      WholeFrames fmt.frameBytes.toNat (pushes calls) (out'.take n) := by
  obtain ⟨pre, post, rfl, hpre, hpost⟩ := hframed.published
  rw [show pre ++ .setFormat fmt :: post = pre ++ [.setFormat fmt] ++ post by simp] at *
  obtain ⟨_, hreads⟩ := @framed_run ring fmt pre post hframed.positive hpre hpost
    (fun src hc => hframed.pushed src (List.mem_append_right _ hc))
    (fun out maxLatency hc => hframed.latency out maxLatency (List.mem_append_right _ hc))
  rw [(session_refines h hbytes).2] at hread
  obtain ⟨d, hd, hplayed⟩ := List.mem_map.mp hread
  obtain ⟨rfl, rfl⟩ := Prod.mk.inj hplayed
  rw [List.take_left]
  exact ⟨rfl, hreads d hd⟩

end Runs

section ShortRing

def fourByteRing : ShmAudioBuffer := ⟨0, 4, 2, by decide, rfl⟩

def threeByteFrames : AudioFormat := ⟨48000, 1, .s16Le, 3⟩

def shortRegion : Memory :=
  ((fourByteRing.pushOverwrite [1, 2, 3, 4, 5, 6]).run access
    ((fourByteRing.setFormat threeByteFrames).run access
      ((ShmAudioBuffer.init 0 256 4).run access fun _ => 0).2).2).2

theorem shortRing_session : Session fourByteRing
    [.setFormat threeByteFrames, .push [1, 2, 3, 4, 5, 6]] [] shortRegion := by
  have hinit : (ShmAudioBuffer.init 0 256 4).run access (fun _ => 0) =
    (some fourByteRing, ((ShmAudioBuffer.init 0 256 4).run access fun _ => 0).2) := rfl
  have hfresh : Session fourByteRing [] [] _ := .init hinit
  exact (hfresh.setFormat threeByteFrames).push [1, 2, 3, 4, 5, 6]

/-- The push keeps the last four bytes and so cuts the first frame; the read plays the
second one. -/
theorem frames_never_split_shortRing :
    WholeFrames 3 [[1, 2, 3, 4, 5, 6]] [4, 5, 6] := by
  have hrefines := (session_refines shortRing_session (by decide +kernel)).1
  have hread := read_queue hrefines (by decide +kernel) [0, 0, 0, 0] 4 (by decide +kernel)
  have hframed : Framed fourByteRing threeByteFrames
      ([.setFormat threeByteFrames, .push [1, 2, 3, 4, 5, 6]] ++ [.read [0, 0, 0, 0] 4]) := by
    refine ⟨⟨[], _, rfl, by simp, by simp⟩, by decide, fun src hsrc => ?_, fun out l hl => ?_⟩
    · obtain rfl : src = [1, 2, 3, 4, 5, 6] := by simpa using hsrc
      decide
    · obtain ⟨_, rfl⟩ : out = [0, 0, 0, 0] ∧ l = 4 := by simpa using hl
      decide
  exact (frames_never_split (shortRing_session.read hread) hframed (by decide +kernel)
    (List.mem_singleton_self _)).2

end ShortRing

end FrameAlignment
