import Lalah.CheckedProgram
import Lalah.AudioRead

/-! What the audio operations touch and compute when the other process may write anything.
The operations are restated with every subtraction, sum and slice of the source checked in
its place; without the checks they are the contract's own. -/
namespace AudioBounds

open InteractionProgram ByteMemory CheckedProgram ShmContract AudioRing AudioRead

abbrev CheckedMem := CheckedProg Access Access.Reply

section Programs

variable (self : ShmAudioBuffer)

def keptChecked (src : List UInt8) : CheckedMem (List UInt8) := do
  if src.length > self.cap then
    require (.sub src.length self.cap)
    require (.slice (src.length - self.cap) src.length src.length)
    return src.drop (src.length - self.cap)
  else return src

def maskChecked (pos : ℕ) : CheckedMem ℕ := do
  require (.sub self.cap 1)
  return self.mask pos

def copyInChecked (start : ℕ) (src : List UInt8) : CheckedMem Unit := do
  require (.add start src.length)
  if start + src.length ≤ self.cap then
    plain (volatileCopyTo (self.payload + start) src)
  else
    require (.sub self.cap start)
    let first := self.cap - start
    require (.slice 0 first src.length)
    plain (volatileCopyTo (self.payload + start) (src.take first))
    require (.slice first src.length src.length)
    plain (volatileCopyTo (self.payload + 0) (src.drop first))

def pushChecked (src : List UInt8) : CheckedMem Unit := do
  let src ← keptChecked self src
  let n := src.length
  if n = 0 then return ()
  let tail ← plain (self.load .tail)
  let s ← plain (self.load .seq)
  plain (self.store .seq (wrappingAdd s 1))
  let start ← maskChecked self tail
  copyInChecked self start src
  plain (self.store .tail (wrappingAdd tail n))
  plain (self.store .seq (wrappingAdd s 2))

/-- The two subtractions around the clamps, and the one of the jump forward. -/
def aimChecked (l : ReadLoop) (tail head : ℕ) : CheckedMem (ℕ × ℕ) := do
  let head := if head > tail then tail else head
  require (.sub tail head)
  let avail := tail - head
  let budget := l.maxLatency / l.frame * l.frame
  if avail > budget then require (.sub tail budget)
  let head := if avail > budget then tail - budget else head
  require (.sub tail head)
  let want := min l.quantum (tail - head)
  return (head, want / l.frame * l.frame)

def copyOutChecked (len start wu : ℕ) : CheckedMem (List UInt8) := do
  require (.add start wu)
  if start + wu ≤ self.cap then
    require (.slice 0 wu len)
    plain (volatileCopyFrom (self.payload + start) wu)
  else
    require (.sub self.cap start)
    let first := self.cap - start
    require (.slice 0 first len)
    let a ← plain (volatileCopyFrom (self.payload + start) first)
    require (.slice first wu len)
    let b ← plain (volatileCopyFrom (self.payload + 0) (wu - first))
    return a ++ b

def readPassChecked (l : ReadLoop) : CheckedMem Pass := do
  let s0 ← plain (self.load .seq)
  if s0 % 2 = 1 then return .again l
  let tail ← plain (self.load .tail)
  let head ← plain (self.load .head)
  let (head, want) ← aimChecked l tail head
  let start ← maskChecked self head
  let live ← copyOutChecked self l.out.length start want
  let tail2 ← plain (self.load .tail)
  let s1 ← plain (self.load .seq)
  if s1 ≠ s0 ∨ wrappingSub tail2 head > self.cap then
    return .again { l with out := live ++ l.out.drop want }
  require (.add head want)
  plain (self.store .head (head + want))
  require (.slice want l.out.length l.out.length)
  return .done want (live ++ List.replicate (l.out.length - want) 0)

def untilDone {Op : Type} {Reply : Op → Type} (pass : ReadLoop → Prog Op Reply Pass) :
    ℕ → ReadLoop → Prog Op Reply (Option (ℕ × List UInt8))
  | 0, _ => return none
  | fuel + 1, l => do
    match ← pass l with
    | .done n out => return some (n, out)
    | .again l' => untilDone pass fuel l'

def readChecked (fuel : ℕ) (out : List UInt8) (maxLatency : ℕ) :
    CheckedMem (Option (ℕ × List UInt8)) := do
  let l ← plain (self.readStart out maxLatency)
  untilDone (readPassChecked self) fuel l

end Programs

section Erased

variable (ring : ShmAudioBuffer)

theorem erase_mask (pos : ℕ) : erase (maskChecked ring pos) = .ret (ring.mask pos) := by
  simp [maskChecked]

theorem erase_copyIn (start : ℕ) (src : List UInt8) :
    erase (copyInChecked ring start src) = ring.copyIn start src := by
  unfold copyInChecked ShmAudioBuffer.copyIn
  by_cases hfit : start + src.length ≤ ring.cap <;> simp [hfit]

theorem erase_copyOut (len start wu : ℕ) :
    erase (copyOutChecked ring len start wu) = ring.copyOut start wu := by
  unfold copyOutChecked ShmAudioBuffer.copyOut
  by_cases hfit : start + wu ≤ ring.cap <;> simp [hfit]

theorem erase_push (src : List UInt8) :
    erase (pushChecked ring src) = ring.pushOverwrite src := by
  have hkept : erase (keptChecked ring src) = .ret (ring.kept src) := by
    unfold keptChecked ShmAudioBuffer.kept
    split <;> simp
  simp only [pushChecked, ShmAudioBuffer.pushOverwrite, erase_bind, hkept, ret_bind,
    apply_ite erase, erase_plain, erase_mask, erase_copyIn, pure_eq, erase_ret]

theorem erase_aim (l : ReadLoop) (tail head : ℕ) :
    erase (aimChecked l tail head) = .ret (l.aim tail head) := by
  unfold aimChecked ReadLoop.aim
  generalize (if head > tail then tail else head) = clamped
  by_cases hjump : tail - clamped > l.maxLatency / l.frame * l.frame <;> simp [hjump]

theorem erase_readPass (l : ReadLoop) : erase (readPassChecked ring l) = ring.readPass l := by
  simp only [readPassChecked, ShmAudioBuffer.readPass, erase_bind, erase_aim, ret_bind,
    apply_ite erase, erase_plain, erase_mask, erase_copyOut, erase_require, pure_eq, erase_ret]

theorem erase_untilDone {pass : ReadLoop → CheckedMem Pass} (fuel : ℕ) (l : ReadLoop) :
    erase (untilDone pass fuel l) = untilDone (fun l => erase (pass l)) fuel l := by
  induction fuel generalizing l with
  | zero => rfl
  | succ fuel ih =>
    rw [untilDone, untilDone, erase_bind]
    congr 1
    funext result
    cases result with
    | again l' => exact ih l'
    | done n out => rfl

theorem run_untilDone (fuel : ℕ) (l : ReadLoop) (m : Memory) :
    ring.readLoop fuel l m = ((untilDone ring.readPass fuel l).run access m).1.map
      fun result => (result, ((untilDone ring.readPass fuel l).run access m).2) := by
  induction fuel generalizing l m with
  | zero => rfl
  | succ fuel ih =>
    rw [ShmAudioBuffer.readLoop, untilDone, run_bind]
    rcases (ring.readPass l).run access m with ⟨result, m'⟩
    cases result with
    | again l' => exact ih l' m'
    | done n out => rfl

theorem run_readChecked (fuel : ℕ) (out : List UInt8) (maxLatency : ℕ) (m : Memory) :
    ring.readQuantum fuel out maxLatency m =
      ((erase (readChecked ring fuel out maxLatency)).run access m).1.map fun result =>
        (result, ((erase (readChecked ring fuel out maxLatency)).run access m).2) := by
  have hpass : (fun l => erase (readPassChecked ring l)) = ring.readPass :=
    funext (erase_readPass ring)
  rw [readChecked, erase_bind, erase_plain, run_bind, erase_untilDone, hpass]
  exact run_untilDone ring fuel _ _

end Erased

def Within (ring : ShmAudioBuffer) : Access → Prop
  | .load w a => ring.hdr ≤ a ∧ a + w ≤ ring.payload + ring.cap
  | .store w a _ => ring.hdr ≤ a ∧ a + w ≤ ring.payload + ring.cap

section Bounds

variable {ring : ShmAudioBuffer} {α : Type} {Q : α → Prop}

theorem within_word (f : ShmField) :
    Within ring (.load (shmHeader.width f) (ring.hdr + shmHeader.offset f)) := by
  have := shmHeader.inside f
  unfold Within ShmAudioBuffer.payload
  omega

theorem sound_load {f : ShmField} {k : ℕ → CheckedMem α}
    (h : ∀ v, v < 256 ^ shmHeader.width f → Sound Fits (Within ring) Q (k v)) :
    Sound Fits (Within ring) Q (plain (ring.load f) >>= k) := sound_perform (within_word f) h

theorem sound_store {f : ShmField} {v : ℕ} {k : Unit → CheckedMem α}
    (h : Sound Fits (Within ring) Q (k ())) :
    Sound Fits (Within ring) Q (plain (ring.store f v) >>= k) :=
  sound_perform (within_word f) fun _ _ => h

theorem sound_load_inv {f : ShmField} {k : ℕ → CheckedMem α}
    (h : Sound Fits (Within ring) Q (plain (ring.load f) >>= k)) (v : ℕ)
    (hv : v < 256 ^ shmHeader.width f) : Sound Fits (Within ring) Q (k v) := h.2 v hv

theorem sound_kept {src : List UInt8} {f : List UInt8 → CheckedMem α} :
    Sound Fits (Within ring) Q (keptChecked ring src >>= f) ↔
      Sound Fits (Within ring) Q (f (ring.kept src)) := by
  unfold keptChecked ShmAudioBuffer.kept
  split
  · rw [bind_assoc, sound_require, bind_assoc, sound_require]
    simp only [Check.Ok, pure_eq, ret_bind, Nat.le_refl, and_true]
    constructor
    · intro h
      exact h.2.2
    · intro h
      exact ⟨by omega, by omega, h⟩
  · rfl

theorem sound_mask {pos : ℕ} {f : ℕ → CheckedMem α} :
    Sound Fits (Within ring) Q (maskChecked ring pos >>= f) ↔
      Sound Fits (Within ring) Q (f (ring.mask pos)) := by
  unfold maskChecked
  rw [bind_assoc, sound_require]
  exact and_iff_right (cap_pos ring)

theorem ensures_copyTo {start : ℕ} {src : List UInt8} (h : start + src.length ≤ ring.cap) :
    (volatileCopyTo (ring.payload + start) src).Ensures Fits (Within ring) fun _ => True := by
  induction src generalizing start with
  | nil => trivial
  | cons b src ih =>
    rw [List.length_cons] at h
    have hbyte : ring.hdr ≤ ring.payload + start := by unfold ShmAudioBuffer.payload; omega
    exact ⟨⟨hbyte, by omega⟩, fun _ _ => @ih (start + 1) (by omega)⟩

theorem ensures_copyFrom {start n : ℕ} (h : start + n ≤ ring.cap) :
    (volatileCopyFrom (ring.payload + start) n).Ensures Fits (Within ring)
      fun bytes => bytes.length = n := by
  induction n generalizing start with
  | zero => rfl
  | succ n ih =>
    have hbyte : ring.hdr ≤ ring.payload + start := by unfold ShmAudioBuffer.payload; omega
    refine ⟨⟨hbyte, by omega⟩, fun b _ => ?_⟩
    refine ensures_bind (p := volatileCopyFrom (ring.payload + (start + 1)) n)
      (ih (by omega)) fun rest hrest => ?_
    change (_ :: rest).length = n + 1
    rw [List.length_cons, hrest]

theorem half_word {k : ℕ} (h : k < 64) : 2 * 2 ^ k ≤ 2 ^ 64 := by
  rw [← pow_succ']
  exact Nat.pow_le_pow_right (by decide) h

theorem two_cap_le (ring : ShmAudioBuffer) : 2 * ring.cap ≤ 2 ^ 64 := by
  obtain ⟨k, hk, hcap⟩ := ring.pow2
  rw [hcap]
  exact half_word hk

theorem sound_copyIn {start : ℕ} {src : List UInt8} (hstart : start < ring.cap)
    (hfit : src.length ≤ ring.cap) :
    Sound Fits (Within ring) (fun _ => True) (copyInChecked ring start src) := by
  have htwice := two_cap_le ring
  unfold copyInChecked
  refine sound_require.mpr ⟨show start + src.length < 2 ^ 64 by omega, ?_⟩
  split
  next hone => exact sound_plain.mpr (ensures_copyTo hone)
  next hone =>
    refine sound_require.mpr ⟨Nat.le_of_lt hstart,
      sound_require.mpr ⟨⟨Nat.zero_le _, by omega⟩, ?_⟩⟩
    refine ensures_bind (sound_plain.mpr (ensures_copyTo ?_)) fun _ _ => ?_
    · rw [List.length_take]; omega
    refine sound_require.mpr ⟨⟨by omega, Nat.le_refl _⟩, sound_plain.mpr (ensures_copyTo ?_)⟩
    rw [List.length_drop]; omega

/-- A push is in bounds whatever it loads. -/
theorem sound_push (src : List UInt8) :
    Sound Fits (Within ring) (fun _ => True) (pushChecked ring src) := by
  unfold pushChecked
  apply sound_kept.mpr
  dsimp only
  split
  · trivial
  refine sound_load fun tail _ => sound_load fun s _ => sound_store (sound_mask.mpr ?_)
  have hstart : ring.mask tail < ring.cap := by
    rw [mask_eq]
    exact Nat.mod_lt _ (cap_pos ring)
  refine ensures_bind (sound_copyIn hstart ?_) fun _ _ => sound_store (sound_store trivial)
  rw [kept_length]
  exact Nat.min_le_right _ _

theorem sound_aim {l : ReadLoop} {tail head : ℕ} {f : ℕ × ℕ → CheckedMem α} :
    Sound Fits (Within ring) Q (aimChecked l tail head >>= f) ↔
      Sound Fits (Within ring) Q (f (l.aim tail head)) := by
  unfold aimChecked ReadLoop.aim
  have hclamped : (if head > tail then tail else head) ≤ tail := by split <;> omega
  generalize (if head > tail then tail else head) = clamped at hclamped
  by_cases hjump : tail - clamped > l.maxLatency / l.frame * l.frame
  · simp only [hjump, if_true, bind_assoc, sound_require, Check.Ok, pure_eq, ret_bind]
    constructor
    · intro h
      exact h.2.2.2
    · intro h
      exact ⟨hclamped, by omega, by omega, h⟩
  · simp only [hjump, if_false, bind_assoc, sound_require, Check.Ok, pure_eq, ret_bind]
    constructor
    · intro h
      exact h.2.2
    · intro h
      exact ⟨hclamped, hclamped, h⟩

theorem sound_copyOut {len start wu : ℕ} (hstart : start < ring.cap) (hwu : wu ≤ len)
    (hlen : len < 2 ^ 63) (hfit : start + wu ≤ 2 * ring.cap) :
    Sound Fits (Within ring) (fun live => live.length = wu)
      (copyOutChecked ring len start wu) := by
  have htwice := two_cap_le ring
  unfold copyOutChecked
  refine sound_require.mpr ⟨show start + wu < 2 ^ 64 by omega, ?_⟩
  split
  next hone =>
    exact sound_require.mpr ⟨⟨Nat.zero_le _, hwu⟩, sound_plain.mpr (ensures_copyFrom hone)⟩
  next hone =>
    refine sound_require.mpr ⟨Nat.le_of_lt hstart,
      sound_require.mpr ⟨⟨Nat.zero_le _, by omega⟩, ?_⟩⟩
    apply ensures_bind (sound_plain.mpr (ensures_copyFrom (by omega)))
    intro a ha
    refine sound_require.mpr ⟨⟨by omega, hwu⟩, ?_⟩
    apply ensures_bind (sound_plain.mpr (ensures_copyFrom (by omega)))
    intro b hb
    change (a ++ b).length = wu
    rw [List.length_append, ha, hb]
    omega

theorem fit_of_sound {len start wu : ℕ} (hstart : start < ring.cap)
    (h : Sound Fits (Within ring) (fun _ => True) (copyOutChecked ring len start wu)) :
    start + wu ≤ 2 * ring.cap := by
  unfold copyOutChecked at h
  have hsum := (sound_require.mp h).2
  split at hsum
  next hone => omega
  next hone =>
    have hsecond := sound_right access_fits (sound_require.mp (sound_require.mp hsum).2).2
      (fun _ => 0)
    have hcopy := every_iff_ensures.mpr (sound_plain.mp
      (ensures_left (sound_require.mp hsecond).2))
    rw [every_copyFrom] at hcopy
    have hlast := (hcopy (wu - (ring.cap - start) - 1) (by omega)).2
    omega

theorem aim_latency {l : ReadLoop} {tail head pos want : ℕ}
    (h : l.aim tail head = (pos, want)) : want ≤ l.maxLatency := by
  obtain ⟨rfl, rfl⟩ := Prod.mk.inj h
  have hbudget := Nat.div_mul_le_self l.maxLatency l.frame
  apply (Nat.div_mul_le_self _ _).trans
  split_ifs <;> omega

def Keeps (l : ReadLoop) : Pass → Prop
  | .again l' => l' = { l with out := l'.out } ∧ l'.out.length = l.out.length
  | .done _ _ => True

theorem sound_readPass {l : ReadLoop} (hquantum : l.quantum ≤ l.out.length)
    (hout : l.out.length < 2 ^ 63) (hfit : min l.quantum l.maxLatency ≤ ring.cap + 1) :
    Sound Fits (Within ring) (Keeps l) (readPassChecked ring l) := by
  unfold readPassChecked
  apply sound_load
  intro s0 _
  split
  · exact ⟨rfl, rfl⟩
  refine sound_load fun tail htail => sound_load fun head _ => sound_aim.mpr ?_
  rcases haim : l.aim tail head with ⟨pos, want⟩
  obtain ⟨hwant, hend⟩ := aim_spec haim
  have hlatency := aim_latency haim
  have hstart : ring.mask pos < ring.cap := by
    rw [mask_eq]
    exact Nat.mod_lt _ (cap_pos ring)
  refine sound_mask.mpr (ensures_bind (sound_copyOut hstart (by omega) hout (by omega))
    fun live hlive => ?_)
  refine sound_load fun tail2 _ => sound_load fun s1 _ => ?_
  split
  · refine ⟨rfl, ?_⟩
    simp only [List.length_append, List.length_drop]
    omega
  · have hsum : pos + want < 2 ^ 64 := Nat.lt_of_le_of_lt hend htail
    exact sound_require.mpr ⟨hsum,
      sound_store (sound_require.mpr ⟨⟨by omega, Nat.le_refl _⟩, trivial⟩)⟩

theorem sound_untilDone {l : ReadLoop} (fuel : ℕ) (hquantum : l.quantum ≤ l.out.length)
    (hout : l.out.length < 2 ^ 63) (hfit : min l.quantum l.maxLatency ≤ ring.cap + 1) :
    Sound Fits (Within ring) (fun _ => True) (untilDone (readPassChecked ring) fuel l) := by
  induction fuel generalizing l with
  | zero => trivial
  | succ fuel ih =>
    apply ensures_bind (sound_readPass hquantum hout hfit)
    intro result hkeeps
    cases result with
    | done n out => trivial
    | again l' =>
      obtain ⟨hl, hlen⟩ := hkeeps
      rw [hl]
      exact ih (hquantum.trans (by rw [hlen])) (by rw [hlen]; exact hout) hfit

theorem sound_read {out : List UInt8} {maxLatency : ℕ} (fuel : ℕ) (hout : out.length < 2 ^ 63)
    (hfit : min out.length maxLatency ≤ ring.cap + 1) :
    Sound Fits (Within ring) (fun _ => True) (readChecked ring fuel out maxLatency) := by
  have hstart : (ring.readStart out maxLatency).Ensures Fits (Within ring) fun l =>
      l.quantum ≤ l.out.length ∧ l.out = out ∧ l.maxLatency = maxLatency :=
    ⟨within_word .frameBytes, fun _ _ => ⟨Nat.div_mul_le_self _ _, rfl, rfl⟩⟩
  apply ensures_bind (sound_plain.mpr hstart)
  intro l hl
  obtain ⟨hquantum, rfl, rfl⟩ := hl
  exact sound_untilDone fuel hquantum hout (by omega)

/-- One-byte frames, a tail two rings on and a head on the last cell. -/
theorem aim_far (out : List UInt8) {maxLatency cap : ℕ} (hpos : 0 < cap)
    (hlong : cap + 1 < min out.length maxLatency) :
    (⟨1, out.length, maxLatency, out⟩ : ReadLoop).aim (2 * cap + 1) (cap - 1) =
      (cap - 1, cap + 2) := by
  have hbehind : ¬ cap - 1 > 2 * cap + 1 := by omega
  have hbudget : ¬ 2 * cap + 1 - (cap - 1) > maxLatency := by omega
  simp only [ReadLoop.aim, Nat.div_one, Nat.mul_one, hbehind, hbudget, if_false, Prod.mk.injEq,
    true_and]
  omega

theorem fit_of_sound_pass {out : List UInt8} {maxLatency : ℕ} (hout : out.length < 2 ^ 63)
    (h : Sound Fits (Within ring) (fun _ => True)
      (readPassChecked ring ⟨1, out.length, maxLatency, out⟩)) :
    min out.length maxLatency ≤ ring.cap + 1 := by
  by_contra hlong
  have hpos := cap_pos ring
  have hword : ∀ f, f ∈ [ShmField.seq, .tail, .head] → 256 ^ shmHeader.width f = 2 ^ 64 := by
    decide
  unfold readPassChecked at h
  have heven := sound_load_inv h 0 (by rw [hword _ (by simp)]; decide)
  rw [if_neg (by decide)] at heven
  have htail := sound_load_inv heven (2 * ring.cap + 1) (by rw [hword _ (by simp)]; omega)
  have hhead := sound_load_inv htail (ring.cap - 1) (by rw [hword _ (by simp)]; omega)
  have haimed := sound_aim.mp hhead
  rw [aim_far out hpos (by omega)] at haimed
  have hcopy := sound_mask.mp haimed
  have hlast : ring.mask (ring.cap - 1) = ring.cap - 1 := by
    rw [mask_eq, Nat.mod_eq_of_lt (by omega)]
  have hbound := fit_of_sound (by rw [hlast]; omega) (ensures_left hcopy)
  rw [hlast] at hbound
  omega

theorem fit_of_sound_read {out : List UInt8} {maxLatency : ℕ} (hout : out.length < 2 ^ 63)
    (h : Sound Fits (Within ring) (fun _ => True) (readChecked ring 1 out maxLatency)) :
    min out.length maxLatency ≤ ring.cap + 1 := by
  have hloop : Sound Fits (Within ring) (fun _ => True) (untilDone (readPassChecked ring) 1
      ⟨max 0 1, out.length / max 0 1 * max 0 1, maxLatency, out⟩) := by
    have hwidth : 0 < 256 ^ shmHeader.width .frameBytes := by decide
    exact h.2 (0 : ℕ) hwidth
  have hone : out.length / max 0 1 * max 0 1 = out.length := by simp
  rw [hone] at hloop
  exact fit_of_sound_pass hout (ensures_left hloop)

end Bounds

/-- Whatever the other process writes, and however many passes a read makes. -/
def Bounded (ring : ShmAudioBuffer) (src out : List UInt8) (maxLatency : ℕ) : Prop :=
  Sound Fits (Within ring) (fun _ => True) (pushChecked ring src) ∧
    ∀ fuel, Sound Fits (Within ring) (fun _ => True) (readChecked ring fuel out maxLatency)

/-- A push is always in bounds. A read is, unless the buffer and the latency both let it
take more than a ring and one byte: the window is never cut to the ring. -/
theorem accesses_bounded_iff (ring : ShmAudioBuffer) (src out : List UInt8) (maxLatency : ℕ)
    (hout : out.length < 2 ^ 63) :
    Bounded ring src out maxLatency ↔ min out.length maxLatency ≤ ring.cap + 1 := by
  constructor
  · intro h
    exact fit_of_sound_read hout (h.2 1)
  · intro hfit
    exact ⟨sound_push src, fun fuel => sound_read fuel hout hfit⟩

def oneByteRing : ShmAudioBuffer := ⟨0, 1, 0, by decide, rfl⟩

theorem accesses_bounded_oneByte :
    Bounded oneByteRing [] [0, 0] 3 ↔ min 2 3 ≤ oneByteRing.cap + 1 :=
  accesses_bounded_iff oneByteRing [] [0, 0] 3 (by decide)

theorem accesses_unbounded_oneByte : ¬ Bounded oneByteRing [] [0, 0, 0] 3 := by
  intro h
  have hfit := fit_of_sound_read (by decide) (h.2 1)
  exact absurd hfit (by decide)

end AudioBounds
