import Lalah.AudioRing
import Lalah.ShmVideoContract

/-! Host starts on one persistent region. Where audio ends is recorded in the audio header
only; that there is video behind 16 MiB is recorded in a header that outlives the host.
The two agree as long as the last start was in video mode, or the region is too small for
a larger ring. -/
namespace RegionSplit

open InteractionProgram ByteMemory ShmContract ShmVideoContract AudioRing

def leadingZeros (n : ℕ) : ℕ := (BitVec.ofNat 64 n).clz.toNat

def prevPowerOfTwo (n : ℕ) : ℕ := if n = 0 then 0 else 1 <<< (64 - 1 - leadingZeros n)

/-- What a start comes to before the playback: an error, a failed assertion, or a ring. -/
inductive Started where
  | refused (msg : String)
  | panicked
  | running (ring : ShmAudioBuffer) (video : Option ShmVideoBuffer)
  deriving DecidableEq

/-- The ring capacity for the mode; in video mode audio has the first 16 MiB. -/
def startCapacity (video : Bool) (total : ℕ) : Except String ℕ :=
  if video then
    if total ≤ audioRegionBytes then
      .error s!"--video-fifo set but shm region {total} B <= audio region {audioRegionBytes} B; grow QEMU size="
    else .ok (prevPowerOfTwo (audioRegionBytes - shmHeader.size))
  else .ok (prevPowerOfTwo (total - shmHeader.size))

def startVideo (video : Bool) (total : ℕ) (ring : ShmAudioBuffer) : MemProg Started := do
  if video then
    match videoRegion 0 total with
    | some (vbase, vlen) =>
      match ← ShmVideoBuffer.init vbase vlen with
      | none => return .panicked
      | some vid => return .running ring (some vid)
    | none => return .refused s!"--video-fifo set but shm region {total} B has no room past the {audioRegionBytes} B audio region; grow QEMU size="
  else return .running ring none

def hostStart (video : Bool) (total : ℕ) : MemProg Started := do
  if total ≤ shmHeader.size then
    return .refused s!"shm region {total} B too small for header {shmHeader.size} B"
  match startCapacity video total with
  | .error msg => return .refused msg
  | .ok cap =>
    match ← ShmAudioBuffer.init 0 total cap with
    | none => return .panicked
    | some ring => startVideo video total ring

/-- `mode` is that of the last start that has published a ring; `guests` are the handles
that attaches have returned so far, of this start and of earlier ones. -/
structure State where
  mem : Memory
  mode : Option Bool
  guests : List ShmAudioBuffer

inductive Event where
  | start (video : Bool)
  | attach
  | push (guest : ℕ) (src : List UInt8)
  deriving DecidableEq, Repr

def Publishes (video : Bool) (total : ℕ) : Prop :=
  shmHeader.size < total ∧ (video = true → audioRegionBytes < total)

instance (video : Bool) (total : ℕ) : Decidable (Publishes video total) :=
  inferInstanceAs (Decidable (_ ∧ _))

def next (total : ℕ) : Event → State → State
  | .start video, s =>
    { s with
      mem := ((hostStart video total).run access s.mem).2
      mode := if Publishes video total then some video else s.mode }
  | .attach, s =>
    match ((ShmAudioBuffer.attach 0 total).run access s.mem).1 with
    | .ok h => { s with guests := s.guests ++ [h] }
    | .error _ => s
  | .push guest src, s =>
    match s.guests[guest]? with
    | some h => { s with mem := ((h.pushOverwrite src).run access s.mem).2 }
    | none => s

structure Run where
  total : ℕ
  usize : total < 2 ^ 64
  before : Memory
  event : ℕ → Event

def Run.state (r : Run) : ℕ → State
  | 0 => ⟨r.before, none, []⟩
  | t + 1 => next r.total (r.event t) (r.state t)

/-- The guest finds a video region, and its header is accepted. -/
def VideoVisible (total : ℕ) (m : Memory) : Prop :=
  ∃ vbase vlen v, videoRegion 0 total = some (vbase, vlen) ∧
    ((ShmVideoBuffer.attach vbase vlen).run access m).1 = .ok v

def capacity (m : Memory) : ℕ := shmHeader.get 0 .capacity m

/-- The audio payload of the published ring and the video region share no byte. -/
def Apart (total : ℕ) (m : Memory) : Prop :=
  ∀ a, shmHeader.size ≤ a → a < shmHeader.size + capacity m →
    ¬ (audioRegionBytes ≤ a ∧ a < total)

section Capacity

/-- The leading one of a word is the power of two at or below it. -/
theorem prevPowerOfTwo_eq {n : ℕ} (h : 0 < n) (husize : n < 2 ^ 64) :
    ∃ k, k < 64 ∧ prevPowerOfTwo n = 2 ^ k ∧ 2 ^ k ≤ n ∧ n < 2 ^ (k + 1) := by
  have hword : (BitVec.ofNat 64 n).toNat = n := BitVec.toNat_ofNat n 64 ▸ Nat.mod_eq_of_lt husize
  have hne : BitVec.ofNat 64 n ≠ 0#64 := by
    intro hzero
    rw [hzero] at hword
    exact absurd hword (by simp; omega)
  have hlow := BitVec.two_pow_sub_clz_le_toNat_of_ne_zero (by decide) hne
  have hhigh := @BitVec.toNat_lt_two_pow_sub_clz 64 (BitVec.ofNat 64 n)
  have hlt : leadingZeros n < 64 := by
    by_contra hge
    have hnone : 64 - leadingZeros n = 0 := by omega
    rw [hword, show (BitVec.ofNat 64 n).clz.toNat = leadingZeros n from rfl, hnone] at hhigh
    omega
  rw [hword] at hlow hhigh
  refine ⟨64 - 1 - leadingZeros n, by omega, ?_, hlow, ?_⟩
  · rw [prevPowerOfTwo, if_neg (by omega), Nat.one_shiftLeft]
  · have hsucc : 64 - 1 - leadingZeros n + 1 = 64 - leadingZeros n := by omega
    rw [hsucc]
    exact hhigh

theorem prevPowerOfTwo_le {n : ℕ} (h : 0 < n) (husize : n < 2 ^ 64) :
    prevPowerOfTwo n ≤ n ∧ n < 2 * prevPowerOfTwo n := by
  obtain ⟨k, _, hk, hle, hlt⟩ := prevPowerOfTwo_eq h husize
  rw [hk, ← Nat.pow_succ']
  exact ⟨hle, hlt⟩

theorem prevPowerOfTwo_le_pow {n k : ℕ} (h : n < 2 ^ (k + 1)) (husize : n < 2 ^ 64) :
    prevPowerOfTwo n ≤ 2 ^ k := by
  by_cases hn : n = 0
  · simp [prevPowerOfTwo, hn]
  · obtain ⟨j, _, hj, hle, _⟩ := prevPowerOfTwo_eq (Nat.pos_of_ne_zero hn) husize
    have hjk : j < k + 1 := (Nat.pow_lt_pow_iff_right (by decide)).mp (Nat.lt_of_le_of_lt hle h)
    rw [hj]
    exact Nat.pow_le_pow_right (by decide) (Nat.lt_succ_iff.mp hjk)

theorem pow_le_prevPowerOfTwo {n k : ℕ} (h : 2 ^ k ≤ n) (husize : n < 2 ^ 64) :
    2 ^ k ≤ prevPowerOfTwo n := by
  obtain ⟨j, _, hj, _, hlt⟩ := prevPowerOfTwo_eq (Nat.lt_of_lt_of_le (Nat.two_pow_pos k) h) husize
  have hkj : k < j + 1 := (Nat.pow_lt_pow_iff_right (by decide)).mp (Nat.lt_of_le_of_lt h hlt)
  rw [hj]
  exact Nat.pow_le_pow_right (by decide) (Nat.lt_succ_iff.mp hkj)

theorem prevPowerOfTwo_pow2 {n : ℕ} (h : 0 < n) (husize : n < 2 ^ 64) :
    IsPowerOfTwo (prevPowerOfTwo n) := by
  obtain ⟨k, hk, heq, _⟩ := prevPowerOfTwo_eq h husize
  exact ⟨k, hk, heq⟩

def modeCapacity (video : Bool) (total : ℕ) : ℕ :=
  prevPowerOfTwo ((if video then audioRegionBytes else total) - shmHeader.size)

theorem startCapacity_publishes {video : Bool} {total : ℕ} (h : Publishes video total) :
    startCapacity video total = .ok (modeCapacity video total) := by
  unfold startCapacity modeCapacity
  cases video with
  | false => rfl
  | true => rw [if_pos rfl, if_neg (by have := h.2 rfl; omega), if_pos rfl]

theorem modeCapacity_fits {video : Bool} {total : ℕ} (h : Publishes video total)
    (husize : total < 2 ^ 64) :
    0 < modeCapacity video total ∧ modeCapacity video total + shmHeader.size ≤ total := by
  obtain ⟨hsize, hvideo⟩ := h
  have h192 : shmHeader.size = 192 := rfl
  have h16 : audioRegionBytes = 16777216 := rfl
  cases video with
  | false =>
    have hpos : 0 < total - shmHeader.size := by omega
    obtain ⟨hle, hlt⟩ := prevPowerOfTwo_le hpos (by omega)
    simp only [modeCapacity, Bool.false_eq_true, if_false]
    omega
  | true =>
    have hroom := hvideo rfl
    have hpos : 0 < audioRegionBytes - shmHeader.size := by omega
    obtain ⟨hle, hlt⟩ := prevPowerOfTwo_le hpos (by omega)
    simp only [modeCapacity, if_true]
    omega

theorem modeCapacity_pow2 {video : Bool} {total : ℕ} (h : Publishes video total)
    (husize : total < 2 ^ 64) : IsPowerOfTwo (modeCapacity video total) := by
  obtain ⟨hsize, hvideo⟩ := h
  have h192 : shmHeader.size = 192 := rfl
  have h16 : audioRegionBytes = 16777216 := rfl
  apply prevPowerOfTwo_pow2
  · cases video <;> simp <;> omega
  · cases video <;> simp <;> omega

end Capacity

section Starts

variable {video : Bool} {total : ℕ} {m : Memory}

theorem storesOnly_videoInit (base regionLen : ℕ) :
    StoresOnly (fun a => base ≤ a) (ShmVideoBuffer.init base regionLen) := by
  have hstore : ∀ {α : Type} {f : VideoField} {v : ℕ} {k : Unit → MemProg α},
      StoresOnly (fun a => base ≤ a) (k ()) →
      StoresOnly (fun a => base ≤ a) (shmVideoHeader.store base f v >>= k) :=
    fun h => storesOnly_store (fun x hlo _ => by omega) h
  unfold ShmVideoBuffer.init
  split
  · trivial
  · exact hstore (hstore (hstore (hstore (hstore (hstore (hstore (hstore (hstore (hstore
      trivial)))))))))

theorem videoRegion_some {base vbase vlen : ℕ} (h : videoRegion base total = some (vbase, vlen)) :
    audioRegionBytes + shmVideoHeader.size < total ∧ vbase = base + audioRegionBytes ∧
      vlen = total - audioRegionBytes := by
  rw [videoRegion] at h
  by_cases hroom : total ≤ audioRegionBytes + shmVideoHeader.size
  · rw [if_pos hroom] at h
    cases h
  · rw [if_neg hroom] at h
    cases h
    exact ⟨Nat.not_le.mp hroom, rfl, rfl⟩

theorem storesOnly_startVideo (ring : ShmAudioBuffer) :
    StoresOnly (fun a => audioRegionBytes ≤ a) (startVideo video total ring) := by
  cases video with
  | false => exact True.intro
  | true =>
    rw [startVideo, if_pos rfl]
    cases hregion : videoRegion 0 total with
    | none => exact True.intro
    | some region =>
      obtain ⟨vbase, vlen⟩ := region
      obtain ⟨_, hbase, _⟩ := videoRegion_some hregion
      rw [Nat.zero_add] at hbase
      subst hbase
      apply every_bind (storesOnly_videoInit _ _)
      intro v
      cases v <;> exact True.intro

theorem header_sameOutside {A : ℕ → Prop} {m' : Memory} (h : SameOutside A m m')
    (hA : ∀ a, A a → shmHeader.size ≤ a) (f : ShmField) :
    shmHeader.get 0 f m' = shmHeader.get 0 f m := by
  apply loadWord_congr
  intro i hi
  apply h
  intro ha
  have := hA _ ha
  have := shmHeader.inside f
  omega

theorem exists_ring {cap : ℕ} (h : IsPowerOfTwo cap) :
    ∃ ring : ShmAudioBuffer, ring.hdr = 0 ∧ ring.cap = cap := ⟨⟨0, cap, h⟩, rfl, rfl⟩

/-- A start that publishes has stored the audio header when it comes to the video part. -/
theorem start_eq {ring : ShmAudioBuffer} (hptr : ring.hdr = 0)
    (hcap : ring.cap = modeCapacity video total) (h : Publishes video total)
    (husize : total < 2 ^ 64) (m : Memory) :
    (hostStart video total).run access m =
      (startVideo video total ring).run access (shmHeader.putAll 0 (initWords ring.cap) m) := by
  have hsize : ¬ total ≤ shmHeader.size := Nat.not_le.mpr h.1
  obtain ⟨_, hfits⟩ := modeCapacity_fits h husize
  rw [← hcap] at hfits
  have hinit := init_eq total hfits
  rw [hptr] at hinit
  rw [hostStart, if_neg hsize, startCapacity_publishes h]
  dsimp only
  rw [← hcap, run_bind, hinit, Layout.run_storeAll]

theorem start_ring {ring : ShmAudioBuffer} (hptr : ring.hdr = 0)
    (hcap : ring.cap = modeCapacity video total) (h : Publishes video total)
    (husize : total < 2 ^ 64) :
    capacity ((hostStart video total).run access m).2 = ring.cap := by
  rw [start_eq hptr hcap h husize]
  have hvideo : SameOutside (fun a => audioRegionBytes ≤ a)
      (shmHeader.putAll 0 (initWords ring.cap) m)
      ((startVideo video total ring).run access
        (shmHeader.putAll 0 (initWords ring.cap) m)).2 := (storesOnly_startVideo ring).run _
  have hwidth : 256 ^ shmHeader.width .capacity = 2 ^ 64 := by decide
  have hpublished : capacity (shmHeader.putAll 0 (initWords ring.cap) m) = ring.cap % 2 ^ 64 := by
    rw [← hwidth]
    exact shmHeader.get_putAll_of_mem 0 m (initWords_nodup _) (by simp [initWords])
  have h192 : shmHeader.size = 192 := rfl
  have h16 : audioRegionBytes = 16777216 := rfl
  refine (header_sameOutside hvideo (fun a ha => by omega) .capacity).trans ?_
  exact hpublished.trans (Nat.mod_eq_of_lt cap_lt)

theorem start_publishes (h : Publishes video total) (husize : total < 2 ^ 64) :
    capacity ((hostStart video total).run access m).2 = modeCapacity video total := by
  obtain ⟨ring, hptr, hcap⟩ := exists_ring (modeCapacity_pow2 h husize)
  rw [start_ring hptr hcap h husize, hcap]

theorem start_refused (h : ¬ Publishes video total) (m : Memory) :
    ∃ msg, (hostStart video total).run access m = (.refused msg, m) := by
  by_cases hsize : total ≤ shmHeader.size
  · rw [hostStart, if_pos hsize]
    exact ⟨_, rfl⟩
  · have hroom : video = true ∧ total ≤ audioRegionBytes := by
      by_contra hn
      refine h ⟨by omega, fun hv => ?_⟩
      by_contra hle
      exact hn ⟨hv, by omega⟩
    rw [hostStart, if_neg hsize, startCapacity, if_pos hroom.1, if_pos hroom.2]
    exact ⟨_, rfl⟩

end Starts

section Guests

theorem attach_ptr {ptr total : ℕ} {m : Memory} {b : ShmAudioBuffer}
    (h : ((ShmAudioBuffer.attach ptr total).run access m).1 = .ok b) : b.hdr = ptr := by
  unfold ShmAudioBuffer.attach at h
  split at h
  · cases h
  rw [run_bind] at h
  split at h
  · cases h
  rw [run_bind] at h
  split at h
  · cases h
  rw [run_bind] at h
  split at h
  · cases h
  rw [run_bind] at h
  split at h
  · obtain rfl := Except.ok.inj h
    rfl
  · cases h

theorem capacity_push {h : ShmAudioBuffer} (hptr : h.hdr = 0) (src : List UInt8) (m : Memory) :
    capacity ((h.pushOverwrite src).run access m).2 = capacity m := by
  have hword := @word_push h .capacity (by decide) src m
  rwa [word, word, hptr] at hword

end Guests

structure Invariant (total : ℕ) (s : State) : Prop where
  guests : ∀ h ∈ s.guests, h.hdr = 0
  published : ∀ video, s.mode = some video →
    Publishes video total ∧ capacity s.mem = modeCapacity video total

theorem invariant_next {total : ℕ} {s : State} (husize : total < 2 ^ 64) (h : Invariant total s)
    (e : Event) : Invariant total (next total e s) := by
  cases e with
  | start video =>
    refine ⟨h.guests, ?_⟩
    by_cases hpub : Publishes video total
    · intro video' hmode
      obtain rfl : video = video' := by simpa [next, hpub] using hmode
      exact ⟨hpub, start_publishes hpub husize⟩
    · have hmem : (next total (.start video) s).mem = s.mem := by
        obtain ⟨msg, hrefused⟩ := start_refused hpub s.mem
        exact congrArg Prod.snd hrefused
      have hmode : (next total (.start video) s).mode = s.mode := if_neg hpub
      rw [hmem, hmode]
      exact h.published
  | attach =>
    rw [next]
    split
    next b hb =>
      refine ⟨fun b' hb' => ?_, h.published⟩
      rcases List.mem_append.mp hb' with hold | hnew
      · exact h.guests _ hold
      · rw [List.mem_singleton.mp hnew]
        exact attach_ptr hb
    next => exact h
  | push guest src =>
    rw [next]
    split
    next b hb =>
      have hptr := h.guests b (List.mem_of_getElem? hb)
      refine ⟨h.guests, fun video hmode => ?_⟩
      obtain ⟨hpub, hcap⟩ := h.published video hmode
      exact ⟨hpub, (capacity_push hptr src s.mem).trans hcap⟩
    next => exact h

theorem invariant_run (r : Run) (t : ℕ) : Invariant r.total (r.state t) := by
  induction t with
  | zero => exact ⟨fun _ hb => absurd hb List.not_mem_nil, fun _ hmode => by cases hmode⟩
  | succ t ih => exact invariant_next r.usize ih _

/-- In a region with video, only a ring that a plain start has sized can reach into it. -/
theorem apart_iff {video : Bool} {total : ℕ} {m : Memory}
    (hcap : capacity m = modeCapacity video total) (husize : total < 2 ^ 64)
    (hroom : audioRegionBytes + shmVideoHeader.size < total) :
    Apart total m ↔ video = true ∨ total < audioRegionBytes + shmHeader.size := by
  have h192 : shmHeader.size = 192 := rfl
  have h128 : shmVideoHeader.size = 128 := rfl
  have h16 : audioRegionBytes = 16777216 := rfl
  have hends : Apart total m ↔ shmHeader.size + capacity m ≤ audioRegionBytes := by
    constructor
    · intro h
      by_contra hlt
      exact h audioRegionBytes (by omega) (by omega) ⟨Nat.le_refl _, by omega⟩
    · intro h a hlo hhi hvideo
      omega
  rw [hends, hcap]
  cases video with
  | true =>
    have hle : modeCapacity true total ≤ 2 ^ 23 := by
      apply prevPowerOfTwo_le_pow <;> rw [if_pos rfl] <;> omega
    simp only [true_or, iff_true]
    omega
  | false =>
    have hdef : modeCapacity false total = prevPowerOfTwo (total - shmHeader.size) := rfl
    rw [hdef]
    simp only [Bool.false_eq_true, false_or]
    constructor
    · intro h
      by_contra hlarge
      have hle : 2 ^ 24 ≤ prevPowerOfTwo (total - shmHeader.size) :=
        pow_le_prevPowerOfTwo (by omega) (by omega)
      omega
    · intro h
      have hle : prevPowerOfTwo (total - shmHeader.size) ≤ 2 ^ 23 :=
        prevPowerOfTwo_le_pow (by omega) (by omega)
      omega

theorem mode_run (r : Run) (t : ℕ) {video : Bool} (h : (r.state t).mode = some video) :
    ∃ u < t, r.event u = .start video := by
  induction t with
  | zero => cases h
  | succ t ih =>
    have hkept : (r.state t).mode = some video → ∃ u < t + 1, r.event u = .start video := by
      intro hmode
      obtain ⟨u, hu, he⟩ := ih hmode
      exact ⟨u, by omega, he⟩
    rw [Run.state] at h
    cases he : r.event t with
    | start video' =>
      rw [he, next] at h
      by_cases hpub : Publishes video' r.total
      · obtain rfl : video' = video := by simpa [hpub] using h
        exact ⟨t, by omega, he⟩
      · rw [if_neg hpub] at h
        exact hkept h
    | attach =>
      rw [he, next] at h
      split at h <;> exact hkept h
    | push guest src =>
      rw [he, next] at h
      split at h <;> exact hkept h

theorem apart_or_mode {r : Run} {t : ℕ} (hstart : (r.state t).mode ≠ none)
    (hvis : VideoVisible r.total (r.state t).mem) :
    Apart r.total (r.state t).mem ↔
      (r.state t).mode = some true ∨ r.total < audioRegionBytes + shmHeader.size := by
  obtain ⟨video, hmode⟩ := Option.ne_none_iff_exists'.mp hstart
  obtain ⟨_, hcap⟩ := (invariant_run r t).published video hmode
  obtain ⟨vbase, vlen, v, hregion, _⟩ := hvis
  rw [hmode, Option.some_inj]
  exact apart_iff hcap r.usize (videoRegion_some hregion).1

/-- Behind a start, a visible video region and the audio payload share no byte exactly when
that start was in video mode or the region has no room for a larger ring. So they never do
if every start is one or the other. -/
theorem video_apart_iff (r : Run) :
    (∀ t, (r.state t).mode ≠ none →
      ((VideoVisible r.total (r.state t).mem → Apart r.total (r.state t).mem) ↔
        (VideoVisible r.total (r.state t).mem →
          (r.state t).mode = some true ∨ r.total < audioRegionBytes + shmHeader.size))) ∧
    ((∀ t, r.event t = .start false → r.total < audioRegionBytes + shmHeader.size) →
      ∀ t, (r.state t).mode ≠ none →
        VideoVisible r.total (r.state t).mem → Apart r.total (r.state t).mem) := by
  constructor
  · intro t hstart
    constructor
    · intro h hvis
      exact (apart_or_mode hstart hvis).mp (h hvis)
    · intro h hvis
      exact (apart_or_mode hstart hvis).mpr (h hvis)
  · intro hplain t hstart hvis
    apply (apart_or_mode hstart hvis).mpr
    obtain ⟨video, hmode⟩ := Option.ne_none_iff_exists'.mp hstart
    cases video with
    | true => exact Or.inl hmode
    | false =>
      obtain ⟨u, _, he⟩ := mode_run r t hmode
      exact Or.inr (hplain u he)

def remoded : Run where
  total := 67108864
  usize := by decide
  before := fun _ => 0
  event t := .start (t = 0)

theorem video_apart_remoded :
    VideoVisible remoded.total (remoded.state 1).mem → Apart remoded.total (remoded.state 1).mem :=
  ((video_apart_iff remoded).1 1 (by decide)).mpr fun _ => Or.inl rfl

/-- The second start sizes the ring for the whole region and leaves the video header. -/
theorem video_overlaps_remoded : ¬ (VideoVisible remoded.total (remoded.state 2).mem →
    Apart remoded.total (remoded.state 2).mem) := by
  intro h
  have hvisible : VideoVisible remoded.total (remoded.state 2).mem :=
    ⟨16777216, 50331648, ⟨16777216, 50331648, 0, 0, 0⟩, by decide +kernel, by decide +kernel⟩
  have hcap : capacity (remoded.state 2).mem = 33554432 := by decide +kernel
  have hapart := h hvisible 16777216 (by decide)
  rw [hcap] at hapart
  exact hapart (by decide) (by decide)

end RegionSplit
