import Lalah.ArgumentLoop
import Lalah.UnsignedNumeral

/-! The command line of the program on the host. -/
namespace HostArguments

open ArgumentLoop UnsignedNumeral

section Parse

def defaultShm : String := "/dev/shm/lalah"
def defaultLatencyMs : ℕ := 20
def defaultQuantum : ℕ := 256
def defaultVideoReadDelayUs : ℕ := 500
def defaultVideoPipeSize : ℕ := 4 * 1024 * 1024

structure Args where
  shmPath : String
  latencyMs : ℕ
  quantum : ℕ
  videoFifo : Option String
  videoReadDelayUs : ℕ
  videoPipeSize : ℕ
  deriving DecidableEq, Repr

/-- What is printed in front of the usage; the status is two. -/
inductive Refusal where
  | usage
  | unknown (line : String)
  deriving DecidableEq, Repr

def initial : Args where
  shmPath := defaultShm
  latencyMs := defaultLatencyMs
  quantum := defaultQuantum
  videoFifo := none
  videoReadDelayUs := defaultVideoReadDelayUs
  videoPipeSize := defaultVideoPipeSize

def number (read : Option ℕ) (set : ℕ → Args → Args) (a : Args) : Except Refusal Args :=
  match read with
  | none => .error .usage
  | some n => .ok (set n a)

def arm : String → Arm Args Refusal
  | "--shm" => .valued fun v a => .ok { a with shmPath := v }
  | "--latency-ms" => .valued fun v => number (parse 32 v) fun n a => { a with latencyMs := n }
  | "--quantum" => .valued fun v =>
    number ((parse 32 v).filter (0 < ·)) fun n a => { a with quantum := n }
  | "--video-fifo" => .valued fun v a => .ok { a with videoFifo := some v }
  | "--video-read-delay-us" => .valued fun v =>
    number (parse 64 v) fun n a => { a with videoReadDelayUs := n }
  | "--video-pipe-size" => .valued fun v =>
    number ((parse 64 v).filter (0 < ·)) fun n a => { a with videoPipeSize := n }
  | "-h" => .refused .usage
  | "--help" => .refused .usage
  | other => .refused (.unknown ("unknown argument: " ++ other))

def parseArgs (argv : List String) : Except Refusal Args :=
  ArgumentLoop.parse arm .usage argv initial

end Parse

section Settings

structure Positive (w : ℕ) extends Numeral w where
  positive : 0 < value

inductive Setting where
  | shm (path : String)
  | latencyMs (n : Numeral 32)
  | quantum (n : Positive 32)
  | videoFifo (path : String)
  | videoReadDelayUs (n : Numeral 64)
  | videoPipeSize (n : Positive 64)

namespace Setting

def words : Setting → List String
  | shm path => ["--shm", path]
  | latencyMs n => ["--latency-ms", n.text]
  | quantum n => ["--quantum", n.text]
  | videoFifo path => ["--video-fifo", path]
  | videoReadDelayUs n => ["--video-read-delay-us", n.text]
  | videoPipeSize n => ["--video-pipe-size", n.text]

def apply : Setting → Args → Args
  | shm path, a => { a with shmPath := path }
  | latencyMs n, a => { a with latencyMs := n.value }
  | quantum n, a => { a with quantum := n.value }
  | videoFifo path, a => { a with videoFifo := some path }
  | videoReadDelayUs n, a => { a with videoReadDelayUs := n.value }
  | videoPipeSize n, a => { a with videoPipeSize := n.value }

def shmPath? : Setting → Option String
  | shm path => some path
  | _ => none

def latencyMs? : Setting → Option ℕ
  | latencyMs n => some n.value
  | _ => none

def quantum? : Setting → Option ℕ
  | quantum n => some n.value
  | _ => none

def videoFifo? : Setting → Option String
  | videoFifo path => some path
  | _ => none

def videoReadDelayUs? : Setting → Option ℕ
  | videoReadDelayUs n => some n.value
  | _ => none

def videoPipeSize? : Setting → Option ℕ
  | videoPipeSize n => some n.value
  | _ => none

end Setting

theorem positive_ext {w : ℕ} {x y : Positive w} (h : x.text = y.text) : x = y := by
  have heq := numeral_ext h
  cases x
  cases y
  cases heq
  rfl

theorem words_injective : Function.Injective Setting.words := by
  intro s s' h
  cases s <;> cases s' <;> simp [Setting.words] at h <;>
    first | rw [h] | rw [numeral_ext h] | rw [positive_ext h]

theorem filter_positive {w : ℕ} (x : Positive w) :
    (parse w x.text).filter (0 < ·) = some x.value := by
  simp [parse_numeral x.toNumeral, x.positive]

theorem number_some {read : Option ℕ} {n : ℕ} (h : read = some n) (set : ℕ → Args → Args)
    (a : Args) : number read set a = .ok (set n a) := by
  rw [h]
  rfl

theorem setting_turn (s : Setting) : Turn arm s.words s.apply := by
  cases s with
  | shm | videoFifo => exact .valued rfl fun _ => rfl
  | latencyMs n | videoReadDelayUs n =>
    exact .valued rfl fun a => number_some (parse_numeral n) _ a
  | quantum n | videoPipeSize n => exact .valued rfl fun a => number_some (filter_positive n) _ a

theorem no_flag (arg : String) (set : Args → Args) : arm arg ≠ .flag set := by
  unfold arm
  split <;> simp

theorem number_ok {read : Option ℕ} {set : ℕ → Args → Args} {a a' : Args}
    (h : number read set a = .ok a') : ∃ n, read = some n := by
  cases read with
  | none => cases h
  | some n => exact ⟨n, rfl⟩

theorem numeral_of_parse {w : ℕ} {v : String} {n : ℕ} (h : parse w v = some n) :
    ∃ x : Numeral w, x.text = v := by
  obtain ⟨hspells, hlt⟩ := parse_iff.mp h
  exact ⟨⟨v, n, hspells, hlt⟩, rfl⟩

theorem positive_of_parse {w : ℕ} {v : String} {n : ℕ} (h : (parse w v).filter (0 < ·) = some n) :
    ∃ x : Positive w, x.text = v := by
  obtain ⟨hparse, hpos⟩ := Option.filter_eq_some_iff.mp h
  obtain ⟨hspells, hlt⟩ := parse_iff.mp hparse
  exact ⟨⟨⟨v, n, hspells, hlt⟩, of_decide_eq_true hpos⟩, rfl⟩

theorem setting_valued (arg : String) (take : String → Args → Except Refusal Args)
    (value : String) (a a' : Args) (h : arm arg = .valued take) (htake : take value a = .ok a') :
    ∃ s : Setting, s.words = [arg, value] := by
  unfold arm at h
  split at h
  case h_1 => exact ⟨.shm value, rfl⟩
  case h_2 =>
    cases h
    obtain ⟨n, hn⟩ := number_ok htake
    obtain ⟨x, rfl⟩ := numeral_of_parse hn
    exact ⟨.latencyMs x, rfl⟩
  case h_3 =>
    cases h
    obtain ⟨n, hn⟩ := number_ok htake
    obtain ⟨x, rfl⟩ := positive_of_parse hn
    exact ⟨.quantum x, rfl⟩
  case h_4 => exact ⟨.videoFifo value, rfl⟩
  case h_5 =>
    cases h
    obtain ⟨n, hn⟩ := number_ok htake
    obtain ⟨x, rfl⟩ := numeral_of_parse hn
    exact ⟨.videoReadDelayUs x, rfl⟩
  case h_6 =>
    cases h
    obtain ⟨n, hn⟩ := number_ok htake
    obtain ⟨x, rfl⟩ := positive_of_parse hn
    exact ⟨.videoPipeSize x, rfl⟩
  all_goals cases h

def settings : Settings arm Setting where
  words := Setting.words
  apply := Setting.apply
  injective := words_injective
  turn := setting_turn
  flag := fun arg set h => absurd h (no_flag arg set)
  valued := setting_valued

def summary (ss : List Setting) : Args where
  shmPath := (ss.filterMap Setting.shmPath?).getLastD defaultShm
  latencyMs := (ss.filterMap Setting.latencyMs?).getLastD defaultLatencyMs
  quantum := (ss.filterMap Setting.quantum?).getLastD defaultQuantum
  videoFifo := (ss.filterMap Setting.videoFifo?).getLast?
  videoReadDelayUs := (ss.filterMap Setting.videoReadDelayUs?).getLastD defaultVideoReadDelayUs
  videoPipeSize := (ss.filterMap Setting.videoPipeSize?).getLastD defaultVideoPipeSize

theorem args_ext {a b : Args} (hpath : a.shmPath = b.shmPath) (hlatency : a.latencyMs = b.latencyMs)
    (hquantum : a.quantum = b.quantum) (hfifo : a.videoFifo = b.videoFifo)
    (hdelay : a.videoReadDelayUs = b.videoReadDelayUs)
    (hsize : a.videoPipeSize = b.videoPipeSize) : a = b := by
  cases a
  cases b
  simp_all

theorem outcome_summary (ss : List Setting) : settings.outcome ss initial = summary ss := by
  apply args_ext
  · exact Settings.outcome_last Args.shmPath Setting.shmPath? (fun s _ => by cases s <;> rfl) ss _
  · exact Settings.outcome_last Args.latencyMs Setting.latencyMs? (fun s _ => by cases s <;> rfl) ss
      _
  · exact Settings.outcome_last Args.quantum Setting.quantum? (fun s _ => by cases s <;> rfl) ss _
  · exact Settings.outcome_getLast Args.videoFifo Setting.videoFifo?
      (fun s _ => by cases s <;> rfl) ss rfl
  · exact Settings.outcome_last Args.videoReadDelayUs Setting.videoReadDelayUs?
      (fun s _ => by cases s <;> rfl) ss _
  · exact Settings.outcome_last Args.videoPipeSize Setting.videoPipeSize?
      (fun s _ => by cases s <;> rfl) ss _

end Settings

section Outcome

/-- What the program may rely on behind its arguments. -/
structure Fits (args : Args) : Prop where
  latencyMs : args.latencyMs < 2 ^ 32
  quantum : 0 < args.quantum ∧ args.quantum < 2 ^ 32
  videoReadDelayUs : args.videoReadDelayUs < 2 ^ 64
  videoPipeSize : 0 < args.videoPipeSize ∧ args.videoPipeSize < 2 ^ 64

theorem getLastD_of_all {F : Type} {P : F → Prop} {ss : List Setting} {put : Setting → Option F}
    {v : F} (hput : ∀ s v, put s = some v → P v) (hv : P v) :
    P ((ss.filterMap put).getLastD v) := by
  rw [List.getLastD_eq_getLast?]
  cases h : (ss.filterMap put).getLast? with
  | none => exact hv
  | some u =>
    obtain ⟨s, -, hs⟩ := List.mem_filterMap.mp (List.mem_of_getLast? h)
    exact hput s u hs

theorem summary_fits (ss : List Setting) : Fits (summary ss) where
  latencyMs := getLastD_of_all (P := fun n => n < 2 ^ 32) (fun s v h => by
    cases s <;> cases h
    exact Numeral.bound _) (by decide)
  quantum := getLastD_of_all (P := fun n => 0 < n ∧ n < 2 ^ 32) (fun s v h => by
    cases s <;> cases h
    exact ⟨Positive.positive _, Numeral.bound _⟩) (by decide)
  videoReadDelayUs := getLastD_of_all (P := fun n => n < 2 ^ 64) (fun s v h => by
    cases s <;> cases h
    exact Numeral.bound _) (by decide)
  videoPipeSize := getLastD_of_all (P := fun n => 0 < n ∧ n < 2 ^ 64) (fun s v h => by
    cases s <;> cases h
    exact ⟨Positive.positive _, Numeral.bound _⟩) (by decide)

def printed {w : ℕ} (n : ℕ) (h : n < 2 ^ w) : Numeral w where
  text := toString n
  value := n
  spells := (parse_iff.mp (parse_repr h)).1
  bound := h

def spelled (args : Args) (h : Fits args) : List Setting :=
  [.shm args.shmPath, .latencyMs (printed args.latencyMs h.latencyMs),
    .quantum ⟨printed args.quantum h.quantum.2, h.quantum.1⟩,
    .videoReadDelayUs (printed args.videoReadDelayUs h.videoReadDelayUs),
    .videoPipeSize ⟨printed args.videoPipeSize h.videoPipeSize.2, h.videoPipeSize.1⟩] ++
    args.videoFifo.toList.map .videoFifo

def render (args : Args) : List String :=
  ["--shm", args.shmPath, "--latency-ms", toString args.latencyMs, "--quantum",
    toString args.quantum, "--video-read-delay-us", toString args.videoReadDelayUs,
    "--video-pipe-size", toString args.videoPipeSize] ++
    args.videoFifo.toList.flatMap fun path => ["--video-fifo", path]

theorem line_spelled {args : Args} (h : Fits args) : settings.line (spelled args h) = render args := by
  obtain ⟨path, latency, quantum, fifo, delay, size⟩ := args
  cases fifo <;> rfl

theorem summary_spelled {args : Args} (h : Fits args) : summary (spelled args h) = args := by
  obtain ⟨path, latency, quantum, fifo, delay, size⟩ := args
  cases fifo <;> rfl

/-- An accepted line is exactly one list of settings, of which the last of a field wins; its
numbers are numerals that fit, those of the quantum and of the pipe not zero. A refused one is
settings up to the first argument that cannot be read. And every choice of arguments that fit
is the outcome of a line. -/
theorem host_command_line (argv : List String) :
    (∀ args, parseArgs argv = .ok args ↔ ∃! ss, argv = settings.line ss ∧ args = summary ss) ∧
    (∀ e, parseArgs argv = .error e ↔ ∃ ss rest, argv = settings.line ss ++ rest ∧
      Stuck arm .usage rest (summary ss) e) ∧
    ∀ args, ((∃ line, parseArgs line = .ok args) ↔ Fits args) ∧
      (parseArgs (render args) = .ok args ↔ Fits args) := by
  have hok (argv : List String) (args : Args) : parseArgs argv = .ok args ↔
      ∃ ss, argv = settings.line ss ∧ args = summary ss := by
    simp only [parseArgs, settings.parse_ok_iff, outcome_summary]
  refine ⟨fun args => ?_, fun e => ?_, fun args => ?_⟩
  · rw [hok]
    constructor
    · rintro ⟨ss, hline, hargs⟩
      exact ⟨ss, ⟨hline, hargs⟩, fun ss' h => settings.line_injective (h.1.symm.trans hline)⟩
    · rintro ⟨ss, hss, -⟩
      exact ⟨ss, hss⟩
  · simp only [parseArgs, settings.parse_error_iff, outcome_summary]
  · have hfits {line : List String} (h : parseArgs line = .ok args) : Fits args := by
      obtain ⟨ss, -, hargs⟩ := (hok _ _).mp h
      rw [hargs]
      exact summary_fits ss
    have hrender (h : Fits args) : parseArgs (render args) = .ok args :=
      (hok _ _).mpr ⟨spelled args h, (line_spelled h).symm, (summary_spelled h).symm⟩
    refine ⟨⟨?_, fun h => ⟨render args, hrender h⟩⟩, hfits, hrender⟩
    rintro ⟨line, hline⟩
    exact hfits hline

end Outcome

end HostArguments
