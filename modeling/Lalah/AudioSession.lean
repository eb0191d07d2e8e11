import Lalah.AudioRead
import Lalah.LatencyQueue

/-! Calls that do not overlap: pushes, format changes and reads that return, in any order
from `init`. Alone, a read makes one pass and returns, or repeats that pass forever, and
the session as a whole is a run of a bounded-latency queue. -/
namespace AudioSession

open InteractionProgram RelyGuarantee ByteMemory StreamWindow ShmContract AudioRing AudioRead

inductive Call where
  | push (src : List UInt8)
  | setFormat (fmt : AudioFormat)
  | read (out : List UInt8) (maxLatency : ℕ)
  deriving DecidableEq, Repr

/-- Completed calls, the results of the reads among them, and the region they leave. -/
inductive Session (ring : ShmAudioBuffer) :
    List Call → List (ℕ × List UInt8) → Memory → Prop where
  | init {before m : Memory} {total : ℕ}
      (h : (ShmAudioBuffer.init ring.hdr total ring.cap).run access before = (some ring, m)) :
      Session ring [] [] m
  | push {calls results m} (src : List UInt8) (h : Session ring calls results m) :
      Session ring (calls ++ [.push src]) results ((ring.pushOverwrite src).run access m).2
  | setFormat {calls results m} (fmt : AudioFormat) (h : Session ring calls results m) :
      Session ring (calls ++ [.setFormat fmt]) results ((ring.setFormat fmt).run access m).2
  | read {calls results m m' fuel out maxLatency n out'} (h : Session ring calls results m)
      (hread : ring.readQuantum fuel out maxLatency m = some ((n, out'), m')) :
      Session ring (calls ++ [.read out maxLatency]) (results ++ [(n, out')]) m'

def Call.pushed : Call → List (List UInt8)
  | .push src => [src]
  | .setFormat _ => []
  | .read _ _ => []

def pushes (calls : List Call) : List (List UInt8) := calls.flatMap Call.pushed

@[simp] theorem pushes_snoc (calls : List Call) (c : Call) :
    pushes (calls ++ [c]) = pushes calls ++ c.pushed := by
  simp [pushes]

def Call.op : Call → LatencyQueue.Op UInt8
  | .push src => .push src
  | .setFormat fmt => .regroup fmt.frameBytes.toNat
  | .read out maxLatency => .read out.length maxLatency

def queue (ring : ShmAudioBuffer) (calls : List Call) : LatencyQueue.Queue UInt8 :=
  LatencyQueue.after ring.cap (calls.map Call.op)

section Reading

variable {ring : ShmAudioBuffer} {m : Memory} {l : ReadLoop} {pos want : ℕ}

theorem aim_lag (l : ReadLoop) (tail head : ℕ) : (l.aim tail head).1 ≤ tail ∧
    tail - (l.aim tail head).1 = min (tail - head) (l.maxLatency / l.frame * l.frame) := by
  unfold ReadLoop.aim
  dsimp only
  split_ifs <;> omega

theorem readLoop_returns (heven : word ring .seq m % 2 = 0)
    (haim : l.aim (word ring .tail m) (word ring .head m) = (pos, want))
    (hlap : wrappingSub (word ring .tail m) pos ≤ ring.cap) (fuel : ℕ) :
    ring.readLoop (fuel + 1) l m =
      some ((want, ((ring.copyOut (ring.mask pos) want).run access m).1 ++
        List.replicate (l.out.length - want) 0), shmHeader.put ring.hdr .head (pos + want) m) := by
  rw [ShmAudioBuffer.readLoop, run_readPass_done ring heven haim hlap]

/-- A pass that fails the recheck has changed nothing but `out`, so the next one fails too. -/
theorem readLoop_spins (heven : word ring .seq m % 2 = 0)
    (hlap : ring.cap < wrappingSub (word ring .tail m)
      (l.aim (word ring .tail m) (word ring .head m)).1) (fuel : ℕ) :
    ring.readLoop fuel l m = none := by
  induction fuel generalizing l with
  | zero => rfl
  | succ fuel ih =>
    rcases haim : l.aim (word ring .tail m) (word ring .head m) with ⟨pos, want⟩
    have hpos := hlap
    rw [haim] at hpos
    rw [ShmAudioBuffer.readLoop, run_readPass_lapped ring heven haim hpos]
    exact ih hlap

/-- The budget of a read is the latency rounded down to whole published frames. -/
def frameOf (ring : ShmAudioBuffer) (m : Memory) : ℕ := max (word ring .frameBytes m) 1

def loopOf (ring : ShmAudioBuffer) (m : Memory) (out : List UInt8) (maxLatency : ℕ) : ReadLoop :=
  ⟨frameOf ring m, out.length / frameOf ring m * frameOf ring m, maxLatency, out⟩

theorem readQuantum_eq (fuel : ℕ) (out : List UInt8) (maxLatency : ℕ) :
    ring.readQuantum fuel out maxLatency m = ring.readLoop fuel (loopOf ring m out maxLatency) m :=
  rfl

theorem lag_wrapped (l : ReadLoop) : wrappingSub (word ring .tail m)
    (l.aim (word ring .tail m) (word ring .head m)).1 =
      min (word ring .tail m - word ring .head m) (l.maxLatency / l.frame * l.frame) := by
  obtain ⟨hle, hlag⟩ := aim_lag l (word ring .tail m) (word ring .head m)
  rw [wrappingSub_of_le hle (word_tail_lt ring m), hlag]

end Reading

section Invariant

variable {ring : ShmAudioBuffer} {calls : List Call} {results : List (ℕ × List UInt8)}
  {m m' : Memory}

/-- A read that has returned was not lapped, and its only store is to `head`. -/
theorem readQuantum_some {fuel n maxLatency : ℕ} {out out' : List UInt8}
    (heven : word ring .seq m % 2 = 0)
    (h : ring.readQuantum fuel out maxLatency m = some ((n, out'), m')) :
    ∃ pos, (loopOf ring m out maxLatency).aim (word ring .tail m) (word ring .head m) = (pos, n) ∧
      wrappingSub (word ring .tail m) pos ≤ ring.cap ∧
      out' = ((ring.copyOut (ring.mask pos) n).run access m).1 ++
        List.replicate (out.length - n) 0 ∧
      m' = shmHeader.put ring.hdr .head (pos + n) m := by
  rw [readQuantum_eq] at h
  rcases haim : (loopOf ring m out maxLatency).aim (word ring .tail m) (word ring .head m) with
    ⟨pos, want⟩
  by_cases hlap : ring.cap < wrappingSub (word ring .tail m) pos
  · rw [readLoop_spins heven (by rw [haim]; exact hlap)] at h
    cases h
  · cases fuel with
    | zero => cases h
    | succ fuel =>
      rw [readLoop_returns heven haim (by omega)] at h
      obtain ⟨hres, rfl⟩ := Prod.mk.inj (Option.some.inj h)
      obtain ⟨rfl, rfl⟩ := Prod.mk.inj hres
      exact ⟨pos, rfl, by omega, rfl, rfl⟩

theorem quiet_even {pushed : List (List UInt8)} (h : Quiet ring pushed m) :
    word ring .seq m % 2 = 0 := by
  rw [h.seq]
  omega

theorem quiet_push {pushed : List (List UInt8)} (src : List UInt8) (h : Quiet ring pushed m) :
    Quiet ring (pushed ++ [src]) ((ring.pushOverwrite src).run access m).2 := by
  obtain ⟨_, hends⟩ := safe_run (fun _ _ => trivial) (safe_push src h)
  rw [run_bind] at hends
  exact hends.1

theorem quiet_setFormat {pushed : List (List UInt8)} (fmt : AudioFormat)
    (h : Quiet ring pushed m) : Quiet ring pushed ((ring.setFormat fmt).run access m).2 := by
  obtain ⟨_, hends⟩ := safe_run (fun _ _ => trivial) (safe_setFormat fmt h)
  rw [run_bind] at hends
  exact hends.1

theorem quiet_putHead {pushed : List (List UInt8)} (v : ℕ) (h : Quiet ring pushed m) :
    Quiet ring pushed (shmHeader.put ring.hdr .head v m) :=
  (producerTerms ring).between_stable _ _ _ h (shmHeader.put_sameOutside (by simp) v m)

/-- Between calls the sequence word is even and the ring holds the newest pushed bytes,
whatever the reads have done to the head. -/
theorem session_quiet (h : Session ring calls results m) : Quiet ring (pushes calls) m := by
  induction h with
  | init h => exact quiet_fresh (fresh_init h).2.2.2
  | push src _ ih =>
    rw [pushes_snoc]
    exact quiet_push src ih
  | setFormat fmt _ ih =>
    rw [pushes_snoc, Call.pushed, List.append_nil]
    exact quiet_setFormat fmt ih
  | read _ hread ih =>
    obtain ⟨pos, _, _, _, rfl⟩ := readQuantum_some (quiet_even ih) hread
    rw [pushes_snoc, Call.pushed, List.append_nil]
    exact quiet_putHead _ ih

/-- A read ends exactly when what it aims at, the backlog or the budget, fits the ring:
the jump forward is to the budget, never to the capacity that the recheck tests. -/
theorem read_returns_iff (h : Session ring calls results m) (out : List UInt8)
    (maxLatency : ℕ) :
    (∃ fuel, (ring.readQuantum fuel out maxLatency m).isSome) ↔
      min (word ring .tail m - word ring .head m)
        (maxLatency / frameOf ring m * frameOf ring m) ≤ ring.cap := by
  have heven := quiet_even (session_quiet h)
  have hlag := @lag_wrapped ring m (loopOf ring m out maxLatency)
  constructor
  · rintro ⟨fuel, hsome⟩
    by_contra hlap
    have hspins := readLoop_spins heven (l := loopOf ring m out maxLatency)
      (by rw [hlag]; exact Nat.lt_of_not_le hlap) fuel
    rw [readQuantum_eq, hspins] at hsome
    cases hsome
  · intro hlap
    rcases haim : (loopOf ring m out maxLatency).aim (word ring .tail m) (word ring .head m) with
      ⟨pos, want⟩
    rw [haim] at hlag
    refine ⟨1, ?_⟩
    rw [readQuantum_eq, readLoop_returns heven haim (by rw [hlag]; exact hlap)]
    rfl

end Invariant

section Overfull

def twoByteRing : ShmAudioBuffer := ⟨0, 2, isPowerOfTwo_two⟩

def freshRegion : Memory := ((ShmAudioBuffer.init 0 256 2).run access fun _ => 0).2

theorem fresh_session : Session twoByteRing [] [] freshRegion :=
  .init (show (ShmAudioBuffer.init 0 256 2).run access (fun _ => 0) =
    (some twoByteRing, freshRegion) from rfl)

/-- Three bytes pushed into a ring of two, none read yet. -/
def overfull : Memory :=
  ((twoByteRing.pushOverwrite [3]).run access
    ((twoByteRing.pushOverwrite [1, 2]).run access freshRegion).2).2

theorem overfull_session : Session twoByteRing [.push [1, 2], .push [3]] [] overfull :=
  (fresh_session.push [1, 2]).push [3]

/-- A budget of three bytes lets the read aim a whole ring and a byte behind the tail. -/
theorem read_spins_overfull : Session twoByteRing [.push [1, 2], .push [3]] [] overfull ∧
    ∀ fuel, twoByteRing.readQuantum fuel [0] 3 overfull = none := by
  refine ⟨overfull_session, fun fuel => ?_⟩
  rw [readQuantum_eq]
  exact readLoop_spins (by decide +kernel) (by decide +kernel) fuel

theorem read_returns_iff_overfull :
    ¬ ∃ fuel, (twoByteRing.readQuantum fuel [0] 3 overfull).isSome := by
  rw [read_returns_iff overfull_session]
  decide +kernel

end Overfull

end AudioSession
