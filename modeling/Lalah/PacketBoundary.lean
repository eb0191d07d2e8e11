import Lalah.RestingRing

/-! How the producer cuts its bytes into pushes cannot be seen by the reads. Two queues that
agree on the newest ring of items, and on their backlogs unless both fill the ring, go on
agreeing; one push of `a ++ b` and two pushes of `a` and `b` leave such queues. -/
namespace PacketBoundary

open InteractionProgram ByteMemory ShmContract AudioRing AudioSession BoundedQueue
open AudioTearFreedom RestingRing
open LatencyQueue (Queue Delivery Alike deliveries)

/-- Calls that do not overlap, from the region `m`, with the results of the reads. -/
inductive Continues (ring : ShmAudioBuffer) :
    Memory → List Call → List (ℕ × List UInt8) → Memory → Prop where
  | done (m : Memory) : Continues ring m [] [] m
  | push {m calls results m'} (src : List UInt8)
      (h : Continues ring ((ring.pushOverwrite src).run access m).2 calls results m') :
      Continues ring m (.push src :: calls) results m'
  | setFormat {m calls results m'} (fmt : AudioFormat)
      (h : Continues ring ((ring.setFormat fmt).run access m).2 calls results m') :
      Continues ring m (.setFormat fmt :: calls) results m'
  | read {m m₁ calls results m' fuel out maxLatency n out'}
      (hread : ring.readQuantum fuel out maxLatency m = some ((n, out'), m₁))
      (h : Continues ring m₁ calls results m') :
      Continues ring m (.read out maxLatency :: calls) ((n, out') :: results) m'

section Queues

variable {ring : ShmAudioBuffer} {q q' : Queue UInt8} {pushed : List (List UInt8)}
  {calls : List Call} {results : List (ℕ × List UInt8)} {m m' : Memory}

structure Holding (ring : ShmAudioBuffer) (pushed : List (List UInt8)) (q : Queue UInt8)
    (m : Memory) : Prop where
  refines : Refines ring q m
  quiet : Quiet ring pushed m
  written : q.written = stream ring pushed

theorem holding_push (h : Holding ring pushed q m) (src : List UInt8)
    (hbytes : (stream ring (pushed ++ [src])).length < 2 ^ 64) :
    Holding ring (pushed ++ [src]) (q.push ring.cap src)
      ((ring.pushOverwrite src).run access m).2 := by
  have hwritten : (q.push ring.cap src).written = stream ring (pushed ++ [src]) := by
    rw [stream_snoc, kept_newest, ← h.written]
    rfl
  refine ⟨push_refines src h.refines h.quiet h.written ?_, quiet_push src h.quiet, hwritten⟩
  rw [hwritten]
  exact hbytes

theorem holding_setFormat (h : Holding ring pushed q m) (fmt : AudioFormat) :
    Holding ring pushed (q.regroup fmt.frameBytes.toNat) ((ring.setFormat fmt).run access m).2 :=
  ⟨setFormat_refines fmt h.refines, quiet_setFormat fmt h.quiet, h.written⟩

theorem holding_read (h : Holding ring pushed q m)
    (hbytes : (stream ring pushed).length < 2 ^ 64) {fuel n maxLatency : ℕ}
    {out out' : List UInt8}
    (hread : ring.readQuantum fuel out maxLatency m = some ((n, out'), m')) :
    (n, out') = played ⟨q, out.length, maxLatency⟩ ∧
      Holding ring pushed (q.read out.length maxLatency) m' := by
  obtain ⟨hplayed, hnext⟩ := read_returned h.refines (h.written ▸ hbytes) hread
  obtain ⟨pos, _, _, _, rfl⟩ := readQuantum_some (quiet_even h.quiet) hread
  exact ⟨hplayed, hnext, quiet_putHead _ h.quiet, h.written⟩

theorem stream_pushes_cons (src : List UInt8) (calls : List Call) :
    stream ring (pushed ++ pushes (.push src :: calls)) =
      stream ring (pushed ++ [src] ++ pushes calls) := by
  rw [List.append_assoc]
  rfl

theorem stream_left_lt {more : List (List UInt8)}
    (h : (stream ring (pushed ++ more)).length < 2 ^ 64) :
    (stream ring pushed).length < 2 ^ 64 :=
  (stream_mono (List.prefix_append pushed more)).length_le.trans_lt h

/-- Whatever the calls, the reads give what the queue delivers. -/
theorem continues_played (hc : Continues ring m calls results m') :
    ∀ {pushed q}, Holding ring pushed q m →
      (stream ring (pushed ++ pushes calls)).length < 2 ^ 64 →
      results = (deliveries ring.cap q (calls.map Call.op)).map played := by
  induction hc with
  | done m => exact fun _ _ => rfl
  | push src hc ih =>
    intro pushed q h hbytes
    rw [stream_pushes_cons] at hbytes
    exact ih (holding_push h src (stream_left_lt hbytes)) hbytes
  | setFormat fmt hc ih =>
    intro pushed q h hbytes
    exact ih (holding_setFormat h fmt) hbytes
  | read hread hc ih =>
    intro pushed q h hbytes
    obtain ⟨hplayed, hnext⟩ := holding_read h (stream_left_lt hbytes) hread
    rw [hplayed, ih hnext hbytes]
    rfl

theorem continues_exists (hlatency : ∀ out maxLatency, .read out maxLatency ∈ calls →
    maxLatency ≤ ring.cap) (h : Holding ring pushed q m)
    (hbytes : (stream ring (pushed ++ pushes calls)).length < 2 ^ 64) :
    ∃ results m', Continues ring m calls results m' := by
  induction calls generalizing pushed q m with
  | nil => exact ⟨[], m, .done m⟩
  | cons c calls ih =>
    have hrest : ∀ out maxLatency, .read out maxLatency ∈ calls → maxLatency ≤ ring.cap :=
      fun out maxLatency hc => hlatency out maxLatency (List.mem_cons_of_mem _ hc)
    cases c with
    | push src =>
      rw [stream_pushes_cons] at hbytes
      obtain ⟨results, m', hc⟩ := ih hrest (holding_push h src (stream_left_lt hbytes)) hbytes
      exact ⟨results, m', .push src hc⟩
    | setFormat fmt =>
      obtain ⟨results, m', hc⟩ := ih hrest (holding_setFormat h fmt) hbytes
      exact ⟨results, m', .setFormat fmt hc⟩
    | read out maxLatency =>
      have hlag : q.written.length - q.start maxLatency ≤ ring.cap := by
        have hbudget := q.budget_le maxLatency
        have hwithin := hlatency out maxLatency List.mem_cons_self
        rw [q.lag_eq]
        omega
      have hlen : q.written.length < 2 ^ 64 := h.written ▸ stream_left_lt hbytes
      have hread := read_queue h.refines hlen out maxLatency hlag
      obtain ⟨results, m', hc⟩ := ih hrest (holding_read h (stream_left_lt hbytes) hread).2 hbytes
      exact ⟨_, m', .read hread hc⟩

theorem alike_played (h : Alike ring.cap q q') (hlatency : ∀ out maxLatency,
    .read out maxLatency ∈ calls → maxLatency ≤ ring.cap) :
    (deliveries ring.cap q (calls.map Call.op)).map played =
      (deliveries ring.cap q' (calls.map Call.op)).map played := by
  have hops : ∀ length latency, .read length latency ∈ calls.map Call.op → latency ≤ ring.cap := by
    intro length latency hop
    obtain ⟨c, hc, heq⟩ := List.mem_map.mp hop
    cases c with
    | push src => cases heq
    | setFormat fmt => cases heq
    | read out maxLatency =>
      obtain ⟨_, rfl⟩ : out.length = length ∧ maxLatency = latency := by simpa [Call.op] using heq
      exact hlatency out maxLatency hc
  have hsame := congrArg (List.map fun p : ℕ × List UInt8 =>
    (p.2.length, p.2 ++ List.replicate (p.1 - p.2.length) 0))
    (LatencyQueue.alike_deliveries h hops)
  rw [List.map_map, List.map_map] at hsame
  exact hsame

end Queues

section Packets

variable {r : Run} {t : ℕ} {a b : List UInt8} {calls : List Call}

/-- From any ring at rest, one packet or two: every read of what follows is the same. -/
theorem packets_unobservable (hrest : AtRest r t)
    (hlatency : ∀ out maxLatency, .read out maxLatency ∈ calls → maxLatency ≤ r.ring.cap)
    (hbytes : (r.pushed t).flatten.length + a.length + b.length + (pushes calls).flatten.length <
      2 ^ 64) :
    let one := ((r.ring.pushOverwrite (a ++ b)).run access (r.mem t)).2
    let two := ((r.ring.pushOverwrite b).run access
      ((r.ring.pushOverwrite a).run access (r.mem t)).2).2
    (∃ results m', Continues r.ring one calls results m') ∧
    (∃ results m', Continues r.ring two calls results m') ∧
    ∀ results₁ results₂ m₁ m₂, Continues r.ring one calls results₁ m₁ →
      Continues r.ring two calls results₂ m₂ → results₁ = results₂ := by
  intro one two
  have hbound : ∀ pushed : List (List UInt8), pushed.flatten.length ≤
      (r.pushed t).flatten.length + a.length + b.length + (pushes calls).flatten.length →
      (stream r.ring pushed).length < 2 ^ 64 := by
    intro pushed hle
    have hkept := stream_length_le r.ring pushed
    omega
  obtain ⟨q, hrefines, hwritten, _⟩ := rest_refines (onGrid_one r) hrest.producer
    (hbound _ (by omega))
  have hquiet : Quiet r.ring (r.pushed t) (r.mem t) :=
    (RelyGuarantee.holds_between (invariant_run r t).producer hrest.producer).2
  have hrestq : Holding r.ring (r.pushed t) q (r.mem t) := ⟨hrefines, hquiet, hwritten⟩
  have hone : Holding r.ring (r.pushed t ++ [a ++ b]) (q.push r.ring.cap (a ++ b)) one :=
    holding_push hrestq (a ++ b) (hbound _ (by simp; omega))
  have htwo : Holding r.ring (r.pushed t ++ [a] ++ [b])
      ((q.push r.ring.cap a).push r.ring.cap b) two :=
    holding_push (holding_push hrestq a (hbound _ (by simp; omega))) b (hbound _ (by simp; omega))
  have hbytes₁ : (stream r.ring (r.pushed t ++ [a ++ b] ++ pushes calls)).length < 2 ^ 64 :=
    hbound _ (by simp; omega)
  have hbytes₂ : (stream r.ring (r.pushed t ++ [a] ++ [b] ++ pushes calls)).length < 2 ^ 64 :=
    hbound _ (by simp; omega)
  refine ⟨continues_exists hlatency hone hbytes₁, continues_exists hlatency htwo hbytes₂, ?_⟩
  intro results₁ results₂ m₁ m₂ h₁ h₂
  rw [continues_played h₁ hone hbytes₁, continues_played h₂ htwo hbytes₂]
  exact alike_played (LatencyQueue.alike_packets q a b) hlatency

/-- On a full ring of two bytes, a packet that is longer than the ring and one that fits. -/
theorem packets_unobservable_lapped :
    let ring := lappedRun.ring
    let m := lappedRun.mem 8
    ∃ results m₁ m₂,
      Continues ring ((ring.pushOverwrite [1, 2, 3]).run access m).2 [.read [0, 0, 0] 2]
        results m₁ ∧
      Continues ring ((ring.pushOverwrite [2, 3]).run access
        ((ring.pushOverwrite [1]).run access m).2).2 [.read [0, 0, 0] 2] results m₂ := by
  have hrest : AtRest lappedRun 8 :=
    ⟨not_busy (result_eq_some (a := [[7, 8]]).mp (by decide +kernel)), by decide +kernel⟩
  have hlatency : ∀ out maxLatency, Call.read out maxLatency ∈ [Call.read [0, 0, 0] 2] →
      maxLatency ≤ lappedRun.ring.cap := by
    intro out maxLatency hc
    obtain ⟨_, rfl⟩ : out = [0, 0, 0] ∧ maxLatency = 2 := by simpa using hc
    decide
  obtain ⟨⟨results, m₁, h₁⟩, ⟨results₂, m₂, h₂⟩, hsame⟩ :=
    packets_unobservable (a := [1]) (b := [2, 3]) hrest hlatency (by decide +kernel)
  obtain rfl := hsame _ _ _ _ h₁ h₂
  exact ⟨results, m₁, m₂, h₁, h₂⟩

end Packets

end PacketBoundary
