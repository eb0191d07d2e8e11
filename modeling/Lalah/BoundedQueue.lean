import Lalah.AudioSession

/-! The ring under calls that do not overlap refines the bounded-latency queue: each call
takes the region of one queue to the region of the next, and every read that returns gives
what the queue delivers. -/
namespace BoundedQueue

open InteractionProgram RelyGuarantee ByteMemory StreamWindow ShmContract AudioRing AudioRead
open AudioSession
open LatencyQueue (Queue Delivery newest deliveries)

/-- The region holds the queue: its positions in `tail` and `head`, its newest bytes in
the payload. -/
structure Refines (ring : ShmAudioBuffer) (q : Queue UInt8) (m : Memory) : Prop where
  even : word ring .seq m % 2 = 0
  tail : word ring .tail m = q.written.length
  head : word ring .head m = q.consumed
  group : frameOf ring m = q.group
  live : Retains ring.cap ring.cap (cell ring m) q.written

/-- What the caller of one read gets: the count, and the items followed by silence. -/
def played (d : Delivery UInt8) : ℕ × List UInt8 :=
  (d.items.length, d.items ++ List.replicate (d.length - d.items.length) 0)

section Abstraction

variable {ring : ShmAudioBuffer} {calls : List Call} {c : Call}

theorem kept_newest (src : List UInt8) : ring.kept src = newest ring.cap src := by
  unfold ShmAudioBuffer.kept newest
  split
  · rfl
  · rw [Nat.sub_eq_zero_of_le (by omega), List.drop_zero]

@[simp] theorem queue_snoc : queue ring (calls ++ [c]) =
    LatencyQueue.step ring.cap (queue ring calls) c.op := by
  simp [queue]

theorem queue_written : (queue ring calls).written = stream ring (pushes calls) := by
  induction calls using List.reverseRecOn with
  | nil => rfl
  | append_singleton calls c ih =>
    rw [queue_snoc, pushes_snoc]
    cases c with
    | push src =>
      rw [Call.pushed, stream_snoc, kept_newest, ← ih]
      rfl
    | setFormat fmt =>
      rw [Call.pushed, List.append_nil, ← ih]
      rfl
    | read out maxLatency =>
      rw [Call.pushed, List.append_nil, ← ih]
      rfl

theorem written_length_mono :
    (queue ring calls).written.length ≤ (queue ring (calls ++ [c])).written.length := by
  rw [queue_written, queue_written, pushes_snoc]
  exact (stream_mono (List.prefix_append _ _)).length_le

end Abstraction

section Read

variable {ring : ShmAudioBuffer} {q : Queue UInt8} {m m' : Memory} {out out' : List UInt8}
  {maxLatency fuel n : ℕ}

theorem whole_groups (a x f : ℕ) (hf : 0 < f) : min (a * f) x / f = min a (x / f) := by
  have hmono : Monotone fun y => y / f := fun _ _ h => Nat.div_le_div_right h
  have hmin : min (a * f) x / f = min (a * f / f) (x / f) := hmono.map_min
  rwa [Nat.mul_div_cancel _ hf] at hmin

theorem aim_queue (h : Refines ring q m) (out : List UInt8) (maxLatency : ℕ) :
    (loopOf ring m out maxLatency).aim (word ring .tail m) (word ring .head m) =
      (q.start maxLatency, q.count out.length maxLatency) := by
  have hclamp : ¬ q.consumed > q.written.length := Nat.not_lt.mpr q.consumed_le
  rw [ReadLoop.aim, loopOf, h.tail, h.head, h.group]
  simp only [hclamp, if_false, whole_groups _ _ _ q.group_pos]
  rfl

theorem copyOut_queue (h : Refines ring q m)
    (hlag : q.written.length - q.start maxLatency ≤ ring.cap) (length : ℕ) :
    ((ring.copyOut (ring.mask (q.start maxLatency)) (q.count length maxLatency)).run access m).1 =
      q.delivered length maxLatency := by
  have hstart := q.start_le maxLatency
  have hend := q.start_add_count_le length maxLatency
  rw [run_copyOut ring m _ _ (by omega)]
  exact h.live.slice (by omega) hend

theorem putHead_refines (h : Refines ring q m) (hlen : q.written.length < 2 ^ 64)
    (length latency : ℕ) : Refines ring (q.read length latency) (shmHeader.put ring.hdr .head
      (q.start latency + q.count length latency) m) := by
  have hside : SameOutside (HeadCells ring) m (shmHeader.put ring.hdr .head
      (q.start latency + q.count length latency) m) := shmHeader.put_sameOutside (by simp) _ m
  have hend := q.start_add_count_le length latency
  refine ⟨?_, ?_, ?_, ?_, h.live.congr (fun i _ => (cell_sameOutside hside i).symm) (cap_pos ring)⟩
  · rw [word_sameOutside hside (by decide)]
    exact h.even
  · rw [word_sameOutside hside (by decide)]
    exact h.tail
  · have hwidth : 256 ^ shmHeader.width .head = 2 ^ 64 := by decide
    rw [word, shmHeader.get_put, hwidth, Nat.mod_eq_of_lt (by omega)]
    rfl
  · rw [frameOf, word_sameOutside hside (by decide)]
    exact h.group

/-- Whenever what is left fits the ring, the first pass returns what the queue delivers. -/
theorem read_queue (h : Refines ring q m) (hlen : q.written.length < 2 ^ 64)
    (out : List UInt8) (maxLatency : ℕ)
    (hlag : q.written.length - q.start maxLatency ≤ ring.cap) :
    ring.readQuantum 1 out maxLatency m = some (played ⟨q, out.length, maxLatency⟩,
      shmHeader.put ring.hdr .head (q.start maxLatency + q.count out.length maxLatency) m) := by
  have hlap : wrappingSub (word ring .tail m) (q.start maxLatency) ≤ ring.cap := by
    rw [h.tail, wrappingSub_of_le (q.start_le maxLatency) hlen]
    exact hlag
  rw [readQuantum_eq, readLoop_returns h.even (aim_queue h out maxLatency) hlap,
    copyOut_queue h hlag, played, Delivery.items, q.delivered_length]
  rfl

theorem read_within (h : Refines ring q m) (hlen : q.written.length < 2 ^ 64)
    (hread : ring.readQuantum fuel out maxLatency m = some ((n, out'), m')) :
    q.written.length - q.start maxLatency ≤ ring.cap := by
  obtain ⟨pos, haim, hlap, _⟩ := readQuantum_some h.even hread
  rw [aim_queue h] at haim
  obtain ⟨rfl, _⟩ := Prod.mk.inj haim
  rwa [h.tail, wrappingSub_of_le (q.start_le maxLatency) hlen] at hlap

theorem read_returned (h : Refines ring q m) (hlen : q.written.length < 2 ^ 64)
    (hread : ring.readQuantum fuel out maxLatency m = some ((n, out'), m')) :
    (n, out') = played ⟨q, out.length, maxLatency⟩ ∧
      Refines ring (q.read out.length maxLatency) m' := by
  have hlap := read_within h hlen hread
  obtain ⟨pos, haim, _, rfl, rfl⟩ := readQuantum_some h.even hread
  rw [aim_queue h] at haim
  obtain ⟨rfl, rfl⟩ := Prod.mk.inj haim
  refine ⟨?_, putHead_refines h hlen out.length maxLatency⟩
  rw [copyOut_queue h hlap, played, Delivery.items, q.delivered_length]

end Read

section Run

variable {ring : ShmAudioBuffer} {calls : List Call} {results : List (ℕ × List UInt8)}
  {m : Memory}

theorem push_refines {q : Queue UInt8} {pushed : List (List UInt8)} (src : List UInt8)
    (h : Refines ring q m)
    (hquiet : Quiet ring pushed m) (hq : q.written = stream ring pushed)
    (hlen : (q.push ring.cap src).written.length < 2 ^ 64) :
    Refines ring (q.push ring.cap src) ((ring.pushOverwrite src).run access m).2 := by
  have hpushed := quiet_push src hquiet
  have hwritten : (q.push ring.cap src).written = stream ring (pushed ++ [src]) := by
    rw [stream_snoc, kept_newest, ← hq]
    rfl
  refine ⟨quiet_even hpushed, ?_, ?_, ?_, ?_⟩
  · rw [hpushed.tail, ← hwritten, Nat.mod_eq_of_lt hlen]
  · rw [word_push (by decide)]
    exact h.head
  · rw [frameOf, word_push (by decide)]
    exact h.group
  · rw [hwritten]
    exact hpushed.live

theorem setFormat_refines {q : Queue UInt8} (fmt : AudioFormat) (h : Refines ring q m) :
    Refines ring (q.regroup fmt.frameBytes.toNat) ((ring.setFormat fmt).run access m).2 := by
  have hside : SameOutside (FormatCells ring) m ((ring.setFormat fmt).run access m).2 :=
    (storesOnly_setFormat fmt).run m
  refine ⟨?_, ?_, ?_, ?_, h.live.congr (fun i _ => (cell_sameOutside hside i).symm) (cap_pos ring)⟩
  · rw [word_sameOutside hside (by decide)]
    exact h.even
  · rw [word_sameOutside hside (by decide)]
    exact h.tail
  · rw [word_sameOutside hside (by decide)]
    exact h.head
  · rw [frameOf, word_setFormat]
    rfl

/-- The simulation, call by call, from `init`. -/
theorem session_refines (h : Session ring calls results m)
    (hbytes : (queue ring calls).written.length < 2 ^ 64) :
    Refines ring (queue ring calls) m ∧
      results = (deliveries ring.cap LatencyQueue.empty (calls.map Call.op)).map played := by
  induction h with
  | init h =>
    have hfresh := (fresh_init h).2.2.2
    refine ⟨⟨by rw [hfresh.seq], hfresh.tail, hfresh.head, ?_, retains_nil⟩, rfl⟩
    rw [frameOf, hfresh.frameBytes]
    rfl
  | @push calls results m src h ih =>
    obtain ⟨hrefines, hresults⟩ := ih (written_length_mono.trans_lt hbytes)
    rw [queue_snoc] at hbytes ⊢
    refine ⟨push_refines src hrefines (session_quiet h) queue_written hbytes, ?_⟩
    rw [List.map_append, List.map_singleton, LatencyQueue.deliveries_after, List.map_append,
      ← hresults]
    exact (List.append_nil _).symm
  | @setFormat calls results m fmt h ih =>
    obtain ⟨hrefines, hresults⟩ := ih (written_length_mono.trans_lt hbytes)
    rw [queue_snoc]
    refine ⟨setFormat_refines fmt hrefines, ?_⟩
    rw [List.map_append, List.map_singleton, LatencyQueue.deliveries_after, List.map_append,
      ← hresults]
    exact (List.append_nil _).symm
  | @read calls results m m' fuel out maxLatency n out' h hread ih =>
    have hlen := (written_length_mono (c := .read out maxLatency)).trans_lt hbytes
    obtain ⟨hrefines, hresults⟩ := ih hlen
    obtain ⟨hplayed, hnext⟩ := read_returned hrefines hlen hread
    rw [queue_snoc]
    refine ⟨hnext, ?_⟩
    rw [List.map_append, List.map_singleton, LatencyQueue.deliveries_after, List.map_append,
      ← hresults, hplayed]
    rfl

/-- Every read of the region a session has left behaves as the queue's, every read inside
the session did, and over the session the queue's order and latency laws hold. -/
theorem ring_refines_queue (h : Session ring calls results m)
    (hbytes : (queue ring calls).written.length < 2 ^ 64) :
    (∀ out maxLatency,
      let q := queue ring calls
      q.written.length - q.start maxLatency ≤ ring.cap →
      ∃ m', ring.readQuantum 1 out maxLatency m =
          some (played ⟨q, out.length, maxLatency⟩, m') ∧
        word ring .head m' = q.start maxLatency + q.count out.length maxLatency ∧
        SameOutside (HeadCells ring) m m') ∧
    let reads := deliveries ring.cap LatencyQueue.empty (calls.map Call.op)
    results = reads.map played ∧
    reads.Pairwise (fun a b => a.start + a.items.length ≤ b.start) ∧
    reads.IsChain (fun a b => b.queue.backlog ≤ b.queue.budget b.latency →
      b.start = a.start + a.items.length) ∧
    ∀ d ∈ reads, (d.queue.read d.length d.latency).backlog ≤ d.queue.budget d.latency := by
  obtain ⟨hrefines, hresults⟩ := session_refines h hbytes
  refine ⟨fun out maxLatency hlag => ?_, hresults, LatencyQueue.deliveries_ordered _ _ _,
    LatencyQueue.deliveries_gapless _ _ _, fun d _ => d.queue.backlog_read_le d.length d.latency⟩
  refine ⟨_, read_queue hrefines hbytes out maxLatency hlag, ?_, ?_⟩
  · exact (putHead_refines hrefines hbytes out.length maxLatency).head
  · exact shmHeader.put_sameOutside (by simp) _ m

theorem ring_refines_queue_overfull :
    ∃ m', twoByteRing.readQuantum 1 [0, 0] 2 overfull = some ((2, [2, 3]), m') ∧
      word twoByteRing .head m' = 3 := by
  have hrefines := ring_refines_queue overfull_session (by decide +kernel)
  obtain ⟨m', hread, hhead, _⟩ := hrefines.1 [0, 0] 2 (by decide +kernel)
  have hplayed : played ⟨queue twoByteRing [.push [1, 2], .push [3]], 2, 2⟩ = (2, [2, 3]) := by
    decide +kernel
  have hposition : (queue twoByteRing [.push [1, 2], .push [3]]).start 2 +
      (queue twoByteRing [.push [1, 2], .push [3]]).count 2 2 = 3 := by decide +kernel
  exact ⟨m', hplayed ▸ hread, hhead.trans hposition⟩

end Run

end BoundedQueue
