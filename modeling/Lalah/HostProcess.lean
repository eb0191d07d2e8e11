import Lalah.AudioPipeline
import Lalah.HostArguments
import Lalah.RegionSplit
import Lalah.VideoForwarder

/-! The program on the host, from its command line to its playback: the file is mapped and its
pages are touched, the rings are initialized, the forwarder is started, and the playback runs
when there is a format. -/
namespace HostProcess

open InteractionProgram CallProtocol ByteMemory ShmContract ShmVideoContract RegionSplit
open HostArguments

section Calls

/-- `mapRaw` tells the length of the mapping; `touch` reads one byte of it. -/
inductive HostOp where
  | openFile (path : String)
  | mapRaw
  | touch (off : ℕ)
  | shm (op : Access)
  | spawn (vid : ShmVideoBuffer) (fifo : String) (cfg : VideoForwarder.Config)
  | sleep (ms : ℕ)
  | runPlayback (fmt : AudioFormat) (ring : ShmAudioBuffer) (maxLatencyBytes quantum : ℕ)

@[reducible] def HostOp.Reply : HostOp → Type
  | .openFile _ | .spawn _ _ _ | .runPlayback _ _ _ _ => Except String Unit
  | .mapRaw => Except String UInt64
  | .touch _ | .sleep _ => Unit
  | .shm op => op.Reply

abbrev HostProg := Prog HostOp HostOp.Reply

def call (op : HostOp) : HostProg op.Reply := perform op

/-- The contract's operations on the region, which is mapped at zero. -/
def shm {α : Type} (p : MemProg α) : HostProg α := p.lift .shm fun _ reply => reply

end Calls

section Run

def page : ℕ := 4096

inductive Point where
  | start
  | exited (refusal : Refusal)
  | touching (args : Args) (total off : ℕ)
  | waiting (args : Args) (ring : ShmAudioBuffer)
  | panicked
  | returned (result : Except String Unit)

def openError (path err : String) : String :=
  "open " ++ path ++ ": " ++ err ++ " (is the VM/QEMU running with share=on?)"

def headerError (total : ℕ) : String :=
  "shm region " ++ toString total ++ " B too small for header " ++ toString shmHeader.size ++ " B"

def forwarderConfig (args : Args) : VideoForwarder.Config where
  pipeSize := args.videoPipeSize
  readDelayUs := args.videoReadDelayUs

def startRings (args : Args) (total : ℕ) : HostProg Point := do
  let started ← shm (hostStart args.videoFifo.isSome total)
  match started with
  | .refused msg => return .returned (.error msg)
  | .panicked => return .panicked
  | .running ring video =>
    match args.videoFifo, video with
    | some fifo, some vid => do
      let spawned : Except String Unit ← call (.spawn vid fifo (forwarderConfig args))
      match spawned with
      | .error err => return .returned (.error err)
      | .ok () => return .waiting args ring
    | _, _ => return .waiting args ring

def run (argv : List String) : Point → HostProg Point
  | .start =>
    match parseArgs argv with
    | .error refusal => return .exited refusal
    | .ok args => do
      let file : Except String Unit ← call (.openFile args.shmPath)
      match file with
      | .error err => return .returned (.error (openError args.shmPath err))
      | .ok () =>
        let mmap : Except String UInt64 ← call .mapRaw
        match mmap with
        | .error err => return .returned (.error err)
        | .ok len =>
          if len.toNat ≤ shmHeader.size then return .returned (.error (headerError len.toNat))
          else return .touching args len.toNat 0
  | .exited refusal => return .exited refusal
  | .touching args total off =>
    if off < total then do
      call (.touch off)
      return .touching args total (off + page)
    else startRings args total
  | .waiting args ring => do
    let format ← shm ring.format
    match format with
    | some fmt =>
      let played : Except String Unit ← call (.runPlayback fmt ring
        (AudioPipeline.latencyBytes (.ofNat args.latencyMs) fmt) args.quantum)
      return .returned played
    | none =>
      call (.sleep 500)
      return .waiting args ring
  | .panicked => return .panicked
  | .returned result => return .returned result

end Run

section Protocol

/-- What the calls so far have come to: the length of the mapping, the pages that were touched,
and the thread that forwards. -/
structure Process where
  opened : Bool
  total : Option ℕ
  touched : List ℕ
  forwarder : Option (ShmVideoBuffer × String × VideoForwarder.Config)
  played : Bool

def blank : Process := ⟨false, none, [], none, false⟩

def Writes (total : ℕ) : Access → Prop
  | .load _ _ => False
  | .store w a _ => a + w ≤ total

def Reads (total : ℕ) : Access → Prop
  | .load w a => a + w ≤ total
  | .store _ _ _ => False

def pages (n : ℕ) : List ℕ := (List.range n).map (page * ·)

def Resident (total : ℕ) (s : Process) : Prop :=
  s.total = some total ∧ ∃ n, s.touched = pages n ∧ total ≤ page * n ∧ ∀ k < n, page * k < total

def RingFits (args : Args) (total : ℕ) (ring : ShmAudioBuffer) : Prop :=
  ring.hdr = 0 ∧ ring.payload + ring.cap ≤ total ∧
    (args.videoFifo ≠ none → ring.payload + ring.cap ≤ audioRegionBytes)

/-- The frames' ring is what lies behind the first 16 MiB. -/
def VideoFits (total : ℕ) (vid : ShmVideoBuffer) : Prop :=
  vid.hdr = audioRegionBytes ∧ vid.hdr + vid.regionLen = total ∧ shmVideoHeader.size < vid.regionLen

variable (args : Args)

def Forwarding (s : Process) : Prop := args.videoFifo.isSome ↔ s.forwarder.isSome

/-- Each page is touched once, in order, and all of them before the program's first own access to
the rings; their headers are stored before the frames are forwarded, and a format is waited for
and played behind that. -/
def permits : HostOp → Process → Prop
  | .openFile path, s => s.opened = false ∧ path = args.shmPath
  | .mapRaw, s => s.opened = true ∧ s.total = none
  | .touch off, s => s.touched = pages s.touched.length ∧ off = page * s.touched.length ∧
      ∃ total, s.total = some total ∧ off < total
  | .shm op, s => s.played = false ∧ ∃ total, Resident total s ∧
      (s.forwarder = none ∧ Writes total op ∨ Forwarding args s ∧ Reads total op)
  | .spawn vid fifo cfg, s => s.forwarder = none ∧ args.videoFifo = some fifo ∧
      cfg = forwarderConfig args ∧ ∃ total, Resident total s ∧ VideoFits total vid
  | .sleep _, s => s.total ≠ none ∧ Forwarding args s
  | .runPlayback fmt ring maxLatencyBytes quantum, s => s.played = false ∧
      Forwarding args s ∧ quantum = args.quantum ∧
      maxLatencyBytes = AudioPipeline.latencyBytes (.ofNat args.latencyMs) fmt ∧
      ∃ total, Resident total s ∧ RingFits args total ring

def after : (op : HostOp) → op.Reply → Process → Process
  | .openFile _, .ok (), s => { s with opened := true }
  | .mapRaw, .ok len, s => { s with total := some len.toNat }
  | .touch off, _, s => { s with touched := s.touched ++ [off] }
  | .spawn vid fifo cfg, .ok (), s => { s with forwarder := some (vid, fifo, cfg) }
  | .runPlayback _ _ _ _, _, s => { s with played := true }
  | _, _, s => s

def protocol : Protocol HostOp HostOp.Reply Process := ⟨permits args, after⟩

def Ended (result : Except String Unit) (s : Process) : Prop :=
  (s.played = false → s.forwarder = none ∧ ∃ msg, result = .error msg) ∧
    (s.played = true → Forwarding args s)

def Between : Point → Process → Prop
  | .start, s => s = blank
  | .exited _, _ => False
  | .touching args' total off, s => args' = args ∧ shmHeader.size < total ∧ total < 2 ^ 64 ∧
      ∃ n, off = page * n ∧ (∀ k < n, page * k < total) ∧
        s = { blank with opened := true, total := some total, touched := pages n }
  | .waiting args' ring, s => args' = args ∧ s.played = false ∧ Forwarding args s ∧
      ∃ total, Resident total s ∧ RingFits args total ring
  | .panicked, _ => False
  | .returned result, s => Ended args result s

end Protocol

section Accesses

variable {total base : ℕ} {F : Type} {L : Layout F} {α : Type}

theorem ensures_storeAll (h : base + L.size ≤ total) (a : α) (ws : List (F × ℕ)) :
    (L.storeAll base a ws).Ensures (fun _ _ => True) (Writes total) (· = a) := by
  induction ws with
  | nil => exact rfl
  | cons w ws ih =>
    refine ⟨?_, fun _ _ => ih⟩
    have := L.inside w.1
    simp only [Writes]
    omega

theorem ensures_load {ring : ShmAudioBuffer} {f : ShmField} {k : ℕ → MemProg α} {Q : α → Prop}
    (h : ring.hdr + shmHeader.size ≤ total)
    (hk : ∀ v, (k v).Ensures (fun _ _ => True) (Reads total) Q) :
    (ring.load f >>= k).Ensures (fun _ _ => True) (Reads total) Q := by
  refine ⟨?_, fun v _ => hk v⟩
  have := shmHeader.inside f
  simp only [Reads]
  omega

theorem ensures_format {ring : ShmAudioBuffer} (h : ring.hdr + shmHeader.size ≤ total) :
    (ring.format).Ensures (fun _ _ => True) (Reads total) fun _ => True := by
  apply ensures_load h
  intro frameBytes
  split
  · trivial
  apply ensures_load h
  intro format
  split
  · trivial
  apply ensures_load h
  intro rate
  exact ensures_load h fun channels => trivial

def Roomy (video : Bool) (total : ℕ) : Prop :=
  shmHeader.size < total ∧ (video = true → audioRegionBytes + shmVideoHeader.size < total)

def Placed (video : Bool) (total : ℕ) : Started → Prop
  | .refused _ => ¬ Roomy video total
  | .panicked => False
  | .running ring vid => ring.hdr = 0 ∧ ring.payload + ring.cap ≤ total ∧
      if video then
        ring.payload + ring.cap ≤ audioRegionBytes ∧ ∃ v, vid = some v ∧ VideoFits total v
      else vid = none

theorem ensures_startVideo {video : Bool} {ring : ShmAudioBuffer} (hptr : ring.hdr = 0)
    (hfits : ring.payload + ring.cap ≤ total)
    (hvideo : video = true → ring.payload + ring.cap ≤ audioRegionBytes) :
    (startVideo video total ring).Ensures (fun _ _ => True) (Writes total)
      (Placed video total) := by
  cases video with
  | false => exact ⟨hptr, hfits, rfl⟩
  | true =>
    rw [startVideo, if_pos rfl]
    cases hregion : videoRegion 0 total with
    | none =>
      unfold videoRegion at hregion
      split at hregion
      next hsmall => exact fun hroomy => absurd (hroomy.2 rfl) (Nat.not_lt.mpr hsmall)
      next => cases hregion
    | some region =>
      obtain ⟨vbase, vlen⟩ := region
      obtain ⟨hroom, hbase, hlen⟩ := videoRegion_some hregion
      rw [Nat.zero_add] at hbase
      have hsize : shmVideoHeader.size < vlen := by omega
      have hinside : vbase + shmVideoHeader.size ≤ total := by omega
      have hend : vbase + vlen = total := by omega
      change Prog.Ensures _ _ _ (ShmVideoBuffer.init vbase vlen >>= _)
      rw [VideoRing.init_eq hsize]
      apply ensures_bind (ensures_storeAll hinside _ _)
      rintro _ rfl
      exact ⟨hptr, hfits, hvideo rfl, _, rfl, hbase, hend, hsize⟩

theorem modeCapacity_split (total : ℕ) :
    modeCapacity true total + shmHeader.size ≤ audioRegionBytes := by
  have h192 : shmHeader.size = 192 := rfl
  have h16 : audioRegionBytes = 16777216 := rfl
  have hle : modeCapacity true total ≤ audioRegionBytes - shmHeader.size :=
    (prevPowerOfTwo_le (by rw [if_pos rfl]; omega) (by rw [if_pos rfl]; omega)).1
  omega

/-- No assertion of a start fails, and none of its stores leaves the mapping. -/
theorem ensures_hostStart (video : Bool) (hsize : shmHeader.size < total)
    (husize : total < 2 ^ 64) :
    (hostStart video total).Ensures (fun _ _ => True) (Writes total) (Placed video total) := by
  rw [hostStart, if_neg (Nat.not_le.mpr hsize)]
  by_cases hpublishes : Publishes video total
  · rw [startCapacity_publishes hpublishes]
    obtain ⟨ring, hptr, hcap⟩ := exists_ring (modeCapacity_pow2 hpublishes husize)
    have hfits := (modeCapacity_fits hpublishes husize).2
    rw [← hcap] at hfits ⊢
    change Prog.Ensures _ _ _ (ShmAudioBuffer.init 0 total ring.cap >>= _)
    rw [← hptr, AudioRing.init_eq total hfits]
    have hinside : ring.hdr + shmHeader.size ≤ total := by omega
    apply ensures_bind (ensures_storeAll hinside _ _)
    rintro _ rfl
    apply ensures_startVideo hptr
    · simp only [ShmAudioBuffer.payload]
      omega
    · rintro rfl
      have := modeCapacity_split total
      simp only [ShmAudioBuffer.payload]
      omega
  · have hvideo : video = true ∧ total ≤ audioRegionBytes := by
      by_contra hno
      refine hpublishes ⟨hsize, fun hv => ?_⟩
      by_contra hle
      exact hno ⟨hv, Nat.not_lt.mp hle⟩
    rw [startCapacity, if_pos hvideo.1, if_pos hvideo.2]
    intro hroomy
    have := hroomy.2 hvideo.1
    omega

end Accesses

section Obedience

variable {argv : List String} {args : Args} {s : Process} {total : ℕ} {α : Type}

theorem pages_length (n : ℕ) : (pages n).length = n := by simp [pages]

theorem pages_succ (n : ℕ) : pages (n + 1) = pages n ++ [page * n] := by
  simp [pages, List.range_succ]

theorem obeys_shm {p : MemProg α} {allowed : Access → Prop} {Q : α → Prop}
    (hplayed : s.played = false) (hresident : Resident total s)
    (hallowed : ∀ op, allowed op →
      s.forwarder = none ∧ Writes total op ∨ Forwarding args s ∧ Reads total op)
    (h : p.Ensures (fun _ _ => True) allowed Q) :
    Obeys (protocol args) (fun a s' => s' = s ∧ Q a) (shm p) s :=
  obeys_lift_ensures (fun op hop => ⟨hplayed, total, hresident, hallowed op hop⟩)
    (fun _ _ => rfl) h

theorem ended_error (hforwarder : s.forwarder = none) (hplayed : s.played = false) (msg : String) :
    Ended args (.error msg) s :=
  ⟨fun _ => ⟨hforwarder, msg, rfl⟩, fun h => by simp [hplayed] at h⟩

theorem obeys_startRings (hresident : Resident total s) (hforwarder : s.forwarder = none)
    (hplayed : s.played = false) (hsize : shmHeader.size < total) (husize : total < 2 ^ 64) :
    Obeys (protocol args) (Between args) (startRings args total) s := by
  apply obeys_bind
  apply obeys_mono _ (obeys_shm hplayed hresident (fun _ hop => Or.inl ⟨hforwarder, hop⟩)
    (ensures_hostStart args.videoFifo.isSome hsize husize))
  rintro started _ ⟨rfl, hplaced⟩
  cases started with
  | refused msg => exact ended_error hforwarder hplayed msg
  | panicked => exact hplaced
  | running ring video =>
    obtain ⟨hptr, hfits, hvideo⟩ := hplaced
    dsimp only
    cases hfifo : args.videoFifo with
    | none =>
      rw [hfifo] at hvideo
      obtain rfl : video = none := hvideo
      refine ⟨rfl, hplayed, ?_, total, hresident, hptr, hfits, ?_⟩
      · simp [Forwarding, hfifo, hforwarder]
      · exact fun hno => absurd hfifo hno
    | some fifo =>
      rw [hfifo] at hvideo
      obtain ⟨hsplit, vid, rfl, hvid⟩ := hvideo
      refine ⟨⟨hforwarder, hfifo, rfl, total, hresident, hvid⟩, fun spawned => ?_⟩
      rcases (spawned : Except String Unit) with err | ⟨⟩
      · exact ended_error hforwarder hplayed err
      · refine ⟨rfl, hplayed, ?_, total, hresident, hptr, hfits, fun _ => hsplit⟩
        simp [Forwarding, hfifo, protocol, after]

/-- From one point of the program to the next, whatever the calls return. -/
theorem obeys_run (hargs : parseArgs argv = .ok args) (point : Point) (s : Process)
    (h : Between args point s) : Obeys (protocol args) (Between args) (run argv point) s := by
  cases point with
  | start =>
    obtain rfl : s = blank := h
    simp only [run, hargs]
    refine ⟨⟨rfl, rfl⟩, fun file => ?_⟩
    rcases (file : Except String Unit) with err | ⟨⟩
    · exact ended_error rfl rfl _
    refine ⟨⟨rfl, rfl⟩, fun mmap => ?_⟩
    rcases (mmap : Except String UInt64) with err | len
    · exact ended_error rfl rfl _
    change Obeys _ _ (if len.toNat ≤ shmHeader.size then _ else _) _
    split
    · exact ended_error rfl rfl _
    next hsize =>
      refine ⟨rfl, Nat.not_le.mp hsize, len.toNat_lt, 0, rfl, by simp, rfl⟩
  | exited refusal => exact h
  | touching args' total off =>
    obtain ⟨rfl, hsize, husize, n, rfl, hbelow, rfl⟩ := h
    change Obeys _ _ (if page * n < total then _ else _) _
    split
    next hmore =>
      refine ⟨⟨?_, ?_, total, rfl, hmore⟩, fun _ => ?_⟩
      · simp [pages_length]
      · simp [pages_length]
      · refine ⟨rfl, hsize, husize, n + 1, rfl, ?_, ?_⟩
        · intro k hk
          rcases Nat.lt_succ_iff_lt_or_eq.mp hk with hk | rfl
          · exact hbelow k hk
          · exact hmore
        · simp [protocol, after, pages_succ]
    next hdone =>
      exact obeys_startRings ⟨rfl, n, rfl, Nat.not_lt.mp hdone, hbelow⟩ rfl rfl hsize husize
  | waiting args' ring =>
    obtain ⟨rfl, hplayed, hforwarder, total, hresident, hring⟩ := h
    apply obeys_bind
    have hheader : ring.hdr + shmHeader.size ≤ total := by
      have := hring.2.1
      simp only [ShmAudioBuffer.payload] at this
      omega
    apply obeys_mono _ (obeys_shm hplayed hresident (fun _ hop => Or.inr ⟨hforwarder, hop⟩)
      (ensures_format hheader))
    rintro format _ ⟨rfl, -⟩
    cases format with
    | none =>
      refine ⟨?_, fun _ => ⟨rfl, hplayed, hforwarder, total, hresident, hring⟩⟩
      exact ⟨by simp [hresident.1], hforwarder⟩
    | some fmt =>
      refine ⟨⟨hplayed, hforwarder, rfl, rfl, total, hresident, hring⟩, fun played => ?_⟩
      exact ⟨fun hno => by simp [protocol, after] at hno, fun _ => hforwarder⟩
  | panicked => exact h
  | returned result => exact h

end Obedience

section Runs

abbrev State := Caller HostOp HostOp.Reply Point Process

structure Run where
  argv : List String
  reply : ℕ → (op : HostOp) → op.Reply

def Run.state (r : Run) : ℕ → State
  | 0 => ⟨.rest .start, blank⟩
  | t + 1 => (r.state t).next after (run r.argv) (r.reply t)

variable {args : Args}

def Refused (refusal : Refusal) (s : State) : Prop :=
  s.state = blank ∧ (s.thread.prog = .ret .start ∨ s.thread.prog = .ret (.exited refusal))

theorem refused_run (r : Run) {refusal : Refusal} (hargs : parseArgs r.argv = .error refusal)
    (t : ℕ) : Refused refusal (r.state t) := by
  have hstart : run r.argv .start = .ret (.exited refusal) := by simp only [run, hargs, pure_eq]
  exact quiet_run (s := r.state) (fun _ => rfl) rfl hstart rfl t

end Runs

section Progress

variable {args : Args} {argv : List String} {total : ℕ} {ring : ShmAudioBuffer} {fmt : AudioFormat}

variable {r : Run} {T t : ℕ}

end Progress

section Whole

end Whole

end HostProcess
