import Lalah.AudioTearFreedom
import Lalah.BoundedQueue

/-! Where the calls of any interleaving have left the ring: on a grid of `f` bytes, with the
head behind the tail. The head is stored at the end of a pass that loaded the tail earlier,
and the tail only grows, so no argument about the sequence word is needed. A ring at rest
refines a bounded-latency queue. -/
namespace RestingRing

open InteractionProgram RelyGuarantee ByteMemory StreamWindow ShmContract AudioRing AudioRead
open AudioSession AudioTearFreedom
open BoundedQueue (Refines)
open LatencyQueue (Queue)

/-- The slices of the pushes begun, the one in progress included. -/
def begun (r : Run) : ℕ → List (List UInt8)
  | 0 => []
  | t + 1 =>
    match r.event t, (r.state t).producer.prog with
    | .push src, .ret _ => begun r t ++ [src]
    | _, _ => begun r t

/-- No call is in progress. -/
structure AtRest (r : Run) (t : ℕ) : Prop where
  producer : ¬ (r.state t).producer.Busy
  consumer : Idle (r.state t)

section Producer

variable (ring : ShmAudioBuffer) (f : ℕ)

/-- What the producer does to the words that the reader goes by: the tail stays, or moves to
the end of the pushes begun. -/
structure Grows (begun : List (List UInt8)) (m m' : Memory) : Prop where
  head : word ring .head m' = word ring .head m
  tail : word ring .tail m' = word ring .tail m ∨
    word ring .tail m' = (stream ring begun).length % 2 ^ 64
  frame : f ∣ frameOf ring m → f ∣ frameOf ring m'

def tailTerms (begun : List (List UInt8)) : Terms Access Memory (List (List UInt8)) where
  rely := SameOutside (HeadCells ring)
  allow := fun _ _ _ => True
  guar := Grows ring f begun
  during := fun _ _ _ => True
  between := fun pushed m => pushed = begun ∧
    word ring .tail m = (stream ring begun).length % 2 ^ 64
  follows := fun _ _ => True
  rely_refl := headCells_refl ring
  rely_trans := headCells_trans ring
  between_stable := fun _ _ _ h hs => ⟨h.1, (word_sameOutside hs (by decide)).trans h.2⟩

variable {ring f} {begun pushed c : List (List UInt8)} {src : List UInt8} {made : List Access}
  {m m' : Memory}

theorem grows_same (hhead : word ring .head m' = word ring .head m)
    (htail : word ring .tail m' = word ring .tail m)
    (hframe : word ring .frameBytes m' = word ring .frameBytes m) : Grows ring f begun m m' :=
  ⟨hhead, Or.inl htail, fun h => by rwa [frameOf, hframe]⟩

theorem grows_put {g : ShmField} (v : ℕ) (hg : g ∉ [ShmField.head, .tail, .frameBytes]) :
    Grows ring f begun m (shmHeader.put ring.hdr g v m) := by
  have hword : ∀ w ∈ [ShmField.head, .tail, .frameBytes],
      word ring w (shmHeader.put ring.hdr g v m) = word ring w m :=
    fun w hw => shmHeader.get_put_ne _ (by rintro rfl; exact hg hw) v m
  exact grows_same (hword .head (by simp)) (hword .tail (by simp)) (hword .frameBytes (by simp))

theorem stream_length_le (ring : ShmAudioBuffer) (pushed : List (List UInt8)) :
    (stream ring pushed).length ≤ pushed.flatten.length := by
  induction pushed using List.reverseRecOn with
  | nil => exact Nat.le_refl _
  | append_singleton pushed src ih =>
    rw [stream_snoc, List.length_append, kept_length, List.flatten_append, List.length_append,
      List.flatten_singleton]
    omega

theorem tail_stable (hs : SameOutside (HeadCells ring) m m') :
    word ring .tail m' = word ring .tail m := word_sameOutside hs (by decide)

theorem safe_copyIn_grows (pos : ℕ) :
    Safe access (tailTerms ring f begun) c (fun _ _ _ => True)
      (ring.copyIn (ring.mask pos) (ring.kept src)) made m := by
  refine safe_every (I := fun _ _ => True) (fun _ _ => trivial) (fun _ _ m' _ _ => ⟨trivial, ?_⟩)
    (storesOnly_copyIn pos src) trivial
  intro op hop
  have hsame : SameOutside (PayloadCells ring) m' (access op m').2 := hop.sameOutside m'
  exact ⟨grows_same (word_payload hsame) (word_payload hsame) (word_payload hsame), trivial⟩

theorem safe_push_grows (src : List UInt8)
    (htail : word ring .tail m = (stream ring pushed).length % 2 ^ 64) :
    Safe access (tailTerms ring f (pushed ++ [src])) c
      (Ends (tailTerms ring f (pushed ++ [src])) c) (startPush ring src pushed) [] m := by
  have hlen : (stream ring (pushed ++ [src])).length =
      (stream ring pushed).length + (ring.kept src).length := by
    rw [stream_snoc, List.length_append]
  unfold startPush
  by_cases hn : (ring.kept src).length = 0
  · simp only [ShmAudioBuffer.pushOverwrite, hn, if_true]
    exact ⟨⟨rfl, by rw [hlen, hn]; exact htail⟩, trivial⟩
  simp only [ShmAudioBuffer.pushOverwrite, hn, if_false, bind_assoc]
  have hload : ∀ m, Grows ring f (pushed ++ [src]) m m := fun _ => grows_same rfl rfl rfl
  refine safe_load fun m₁ h₁ => ⟨trivial, fun _ => ⟨hload _, ?_⟩⟩
  refine safe_load fun m₂ _ => ⟨trivial, fun _ => ⟨hload _, ?_⟩⟩
  refine safe_store fun m₃ _ => ⟨trivial, fun _ => ⟨grows_put _ (by decide), ?_⟩⟩
  refine safe_bind (safe_mono ?_ (safe_copyIn_grows (word ring .tail m₁)))
  intro _ made m₄ _
  have hnew : wrappingAdd (word ring .tail m₁) (ring.kept src).length =
      (stream ring (pushed ++ [src])).length % 2 ^ 64 := by
    rw [tail_stable h₁, htail, hlen]
    unfold wrappingAdd
    omega
  have hput : ∀ m, word ring .tail (shmHeader.put ring.hdr .tail
      (wrappingAdd (word ring .tail m₁) (ring.kept src).length) m) =
        (stream ring (pushed ++ [src])).length % 2 ^ 64 := by
    intro m
    have hwidth : 256 ^ shmHeader.width .tail = 2 ^ 64 := by decide
    rw [word, shmHeader.get_put, hwidth, hnew, Nat.mod_mod]
  refine safe_store fun m₅ _ => ⟨trivial, fun _ => ⟨⟨?_, Or.inr (hput m₅), ?_⟩, ?_⟩⟩
  · exact shmHeader.get_put_ne _ (by decide) _ _
  · intro h
    rwa [frameOf, word, shmHeader.get_put_ne _ (by decide)]
  refine safe_store fun m₆ h₆ => ⟨trivial, fun _ => ⟨grows_put _ (by decide), ⟨rfl, ?_⟩, trivial⟩⟩
  exact (shmHeader.get_put_ne _ (by decide) _ _).trans ((tail_stable h₆).trans (hput m₅))

theorem safe_formatWord_grows {g : ShmField} {v : ℕ} {α : Type} {k : Unit → MemProg α}
    {Q : α → List Access → Memory → Prop}
    (hg : g ∈ [ShmField.sampleRate, .channels, .format, .frameBytes])
    (hframe : g = .frameBytes → f ∣ max (v % 256 ^ shmHeader.width .frameBytes) 1)
    (htail : word ring .tail m = (stream ring begun).length % 2 ^ 64)
    (hk : ∀ made m, word ring .tail m = (stream ring begun).length % 2 ^ 64 →
      Safe access (tailTerms ring f begun) c Q (k ()) made m) :
    Safe access (tailTerms ring f begun) c Q (ring.store g v >>= k) made m := by
  refine safe_store fun m' hs => ⟨trivial, fun _ => ?_⟩
  have hne : ∀ w ∉ [ShmField.sampleRate, .channels, .format, .frameBytes],
      word ring w (shmHeader.put ring.hdr g v m') = word ring w m' :=
    fun w hw => shmHeader.get_put_ne _ (by rintro rfl; exact hw hg) v m'
  refine ⟨⟨hne .head (by decide), Or.inl (hne .tail (by decide)), fun h => ?_⟩, hk _ _ ?_⟩
  · by_cases hlast : g = .frameBytes
    · subst hlast
      rw [frameOf, word, shmHeader.get_put]
      exact hframe rfl
    · rwa [frameOf, word, shmHeader.get_put_ne _ (Ne.symm hlast)]
  · rw [hne .tail (by decide), tail_stable hs, htail]

theorem safe_format_grows (fmt : AudioFormat) (hframe : f ∣ max fmt.frameBytes.toNat 1)
    (htail : word ring .tail m = (stream ring pushed).length % 2 ^ 64) :
    Safe access (tailTerms ring f pushed) c (Ends (tailTerms ring f pushed) c)
      (startFormat ring fmt pushed) [] m := by
  have hlast : f ∣ max (fmt.frameBytes.toNat % 256 ^ shmHeader.width .frameBytes) 1 := by
    have hlt := fmt.frameBytes.toNat_lt
    have hwidth : 256 ^ shmHeader.width .frameBytes = 2 ^ 32 := by decide
    rwa [hwidth, Nat.mod_eq_of_lt hlt]
  simp only [startFormat, ShmAudioBuffer.setFormat, bind_assoc]
  apply safe_formatWord_grows (by simp) (by simp) htail
  intro _ _ h
  apply safe_formatWord_grows (by simp) (by simp) h
  intro _ _ h
  apply safe_formatWord_grows (by simp) (by simp) h
  intro _ _ h
  exact safe_formatWord_grows (by simp) (fun _ => hlast) h fun _ _ h => ⟨⟨rfl, h⟩, trivial⟩

end Producer

section Consumer

variable (ring : ShmAudioBuffer) (f : ℕ)

/-- The positions are on the grid, the head behind the tail. -/
structure Placed (m : Memory) : Prop where
  tail : f ∣ word ring .tail m
  head : f ∣ word ring .head m
  behind : word ring .head m ≤ word ring .tail m

structure Later (m m' : Memory) : Prop where
  head : word ring .head m' = word ring .head m
  tail : word ring .tail m ≤ word ring .tail m'
  grid : f ∣ word ring .tail m → f ∣ word ring .tail m'
  frame : f ∣ frameOf ring m → f ∣ frameOf ring m'

def Gridded : Reader → Prop
  | .idle _ => True
  | .reading l => f ∣ l.frame

variable {ring f} {m m' m'' : Memory}

theorem later_refl (m : Memory) : Later ring f m m := ⟨rfl, Nat.le_refl _, id, id⟩

theorem Later.trans (h : Later ring f m m') (k : Later ring f m' m'') : Later ring f m m'' :=
  ⟨k.head.trans h.head, h.tail.trans k.tail, k.grid ∘ h.grid, k.frame ∘ h.frame⟩

theorem Placed.later (h : Placed ring f m) (k : Later ring f m m') : Placed ring f m' :=
  ⟨k.grid h.tail, k.head ▸ h.head, k.head ▸ h.behind.trans k.tail⟩

variable (ring f) in
def headTerms : Terms Access Memory Reader where
  rely := Later ring f
  allow := fun _ _ _ => True
  guar := fun _ _ => True
  during := fun _ _ => Placed ring f
  between := fun c m => Placed ring f m ∧ Gridded f c
  follows := fun _ _ => True
  rely_refl := later_refl
  rely_trans := fun _ _ _ => Later.trans
  between_stable := fun _ _ _ h hs => ⟨h.1.later hs, h.2⟩

variable {c : Reader} {α : Type} {l : ReadLoop} {made : List Access}
  {Q : α → List Access → Memory → Prop}

theorem lasting_placed : Lasting (headTerms ring f) c (Placed ring f) :=
  ⟨fun _ _ h hs => h.later hs, fun _ _ h => h, fun _ => trivial⟩

theorem safe_load_placed {w : ShmField} {k : ℕ → MemProg α} (h : Placed ring f m)
    (hk : ∀ made m', Later ring f m m' → Placed ring f m' →
      Safe access (headTerms ring f) c Q (k (word ring w m')) made m') :
    Safe access (headTerms ring f) c Q (ring.load w >>= k) made m :=
  safe_look lasting_placed (fun _ => rfl) h hk

theorem aim_grid {tail head pos want : ℕ} (h : l.aim tail head = (pos, want))
    (hframe : f ∣ l.frame) (htail : f ∣ tail) (hhead : f ∣ head) : f ∣ pos + want := by
  unfold ReadLoop.aim at h
  obtain ⟨rfl, rfl⟩ := Prod.mk.inj h
  have hwhole : ∀ n, f ∣ n / l.frame * l.frame := fun n => Dvd.dvd.mul_left hframe _
  refine Nat.dvd_add ?_ (hwhole _)
  split_ifs
  · exact Nat.dvd_sub htail (hwhole _)
  · exact htail
  · exact Nat.dvd_sub htail (hwhole _)
  · exact hhead

theorem safe_copyOut_placed (pos want tail : ℕ) (h : Placed ring f m)
    (htail : tail ≤ word ring .tail m) :
    Safe access (headTerms ring f) c (fun _ _ m => Placed ring f m ∧ tail ≤ word ring .tail m)
      (ring.copyOut (ring.mask pos) want) made m := by
  have hlasting : Lasting (headTerms ring f) c
      (fun m => Placed ring f m ∧ tail ≤ word ring .tail m) :=
    ⟨fun _ _ hm hs => ⟨hm.1.later hs, hm.2.trans hs.tail⟩, fun _ _ hm => hm.1, fun _ => trivial⟩
  exact safe_looks hlasting (fun _ _ => trivial) (storesOnly_copyOut _ _).looks ⟨h, htail⟩

theorem placed_put {new : ℕ} (h : Placed ring f m) (hgrid : f ∣ new)
    (hbehind : new ≤ word ring .tail m) : Placed ring f (shmHeader.put ring.hdr .head new m) := by
  have htail : word ring .tail (shmHeader.put ring.hdr .head new m) = word ring .tail m :=
    shmHeader.get_put_ne _ (by decide) _ _
  have hhead : word ring .head (shmHeader.put ring.hdr .head new m) = new := by
    have hlt := word_tail_lt ring m
    have hwidth : 256 ^ shmHeader.width .head = 2 ^ 64 := by decide
    rw [word, shmHeader.get_put, hwidth, Nat.mod_eq_of_lt (by omega)]
  constructor
  · rw [htail]
    exact h.tail
  · rw [hhead]
    exact hgrid
  · rw [htail, hhead]
    exact hbehind

theorem safe_readOn (h : Placed ring f m) (hgrid : Gridded f c) :
    Safe access (headTerms ring f) c (Ends (headTerms ring f) c) (readOn ring c) [] m := by
  cases c with
  | idle last => exact ⟨⟨h, trivial⟩, trivial⟩
  | reading l =>
    have hagain : ∀ {made m} out, Placed ring f m → Ends (headTerms ring f) (.reading l)
        (afterPass (.again { l with out := out })) made m :=
      fun out hm => ⟨⟨hm, hgrid⟩, trivial⟩
    simp only [readOn, ShmAudioBuffer.readPass, bind_assoc]
    apply safe_load_placed h
    intro _ m₀ _ h₀
    by_cases hodd : word ring .seq m₀ % 2 = 1
    · rw [if_pos hodd]
      exact hagain l.out h₀
    rw [if_neg hodd]
    simp only [bind_assoc]
    apply safe_load_placed h₀
    intro _ m₁ _ h₁
    apply safe_load_placed h₁
    intro _ m₂ hs₂ h₂
    rcases haim : l.aim (word ring .tail m₁) (word ring .head m₂) with ⟨pos, want⟩
    have haimed := (aim_spec haim).2
    have hnew := aim_grid haim hgrid h₁.tail h₂.head
    dsimp only
    refine safe_bind (safe_mono ?_ (safe_copyOut_placed pos want _ h₂ hs₂.tail))
    rintro live made m₃ ⟨h₃, htail₃⟩
    refine safe_load_placed h₃ fun _ m₄ hs₄ h₄ => safe_load_placed h₄ fun _ m₅ hs₅ h₅ => ?_
    split
    · exact hagain _ h₅
    refine safe_store fun m₆ hs₆ => ⟨h₅.later hs₆, fun _ => ⟨trivial, ⟨?_, trivial⟩, trivial⟩⟩
    apply placed_put (h₅.later hs₆) hnew
    calc pos + want ≤ word ring .tail m₁ := haimed
      _ ≤ word ring .tail m₃ := htail₃
      _ ≤ word ring .tail m₄ := hs₄.tail
      _ ≤ word ring .tail m₅ := hs₅.tail
      _ ≤ word ring .tail m₆ := hs₆.tail

theorem safe_readStart (out : List UInt8) (maxLatency : ℕ) (h : Placed ring f m)
    (hgrid : Gridded f c) (hframe : f ∣ frameOf ring m) :
    Safe access (headTerms ring f) c (Ends (headTerms ring f) c) (startRead ring out maxLatency c)
      [] m := by
  cases c with
  | idle last =>
    simp only [startRead, ShmAudioBuffer.readStart, bind_assoc]
    exact safe_load_placed h fun _ m' hs h' => ⟨⟨h', hs.frame hframe⟩, trivial⟩
  | reading l => exact ⟨⟨h, hgrid⟩, trivial⟩

end Consumer

section Runs

variable {r : Run} {f j t u : ℕ}

/-- Slices, published frames and the frames of the reads are all on the grid of `f`. -/
structure OnGrid (r : Run) (f : ℕ) : Prop where
  ring : f ∣ r.ring.cap
  pushed : ∀ t src, r.event t = .push src → f ∣ src.length
  published : ∀ t fmt, r.event t = .setFormat fmt → f ∣ max fmt.frameBytes.toNat 1
  framed : ∀ t out maxLatency, r.event t = .read out maxLatency → f ∣ frameOf r.ring (r.mem t)

theorem onGrid_one (r : Run) : OnGrid r 1 :=
  ⟨one_dvd _, fun _ _ _ => one_dvd _, fun _ _ _ => one_dvd _, fun _ _ _ _ => one_dvd _⟩

theorem begun_cases (r : Run) (t : ℕ) : begun r (t + 1) = begun r t ∨
    ∃ src, r.event t = .push src ∧ begun r (t + 1) = begun r t ++ [src] := by
  rw [begun]
  split
  next src _ he _ => exact Or.inr ⟨src, he, rfl⟩
  next => exact Or.inl rfl

theorem begun_rest {src : List UInt8} {c : List (List UInt8)} (he : r.event t = .push src)
    (hc : (r.state t).producer.prog = .ret c) : begun r (t + 1) = begun r t ++ [src] := by
  rw [begun, he, hc]

theorem begun_busy (h : (r.state t).producer.Busy) : begun r (t + 1) = begun r t := by
  obtain ⟨op, k, hp⟩ := h
  rw [begun, hp]
  split
  next heq => cases heq
  next => rfl

theorem begun_other (h : ∀ src, r.event t ≠ .push src) : begun r (t + 1) = begun r t := by
  rcases begun_cases r t with hsame | ⟨src, he, _⟩
  · exact hsame
  · exact absurd he (h src)

theorem begun_mono (h : t ≤ u) : begun r t <+: begun r u := by
  refine prefix_of_steps (fun t => ?_) h
  rcases begun_cases r t with hsame | ⟨src, _, hmore⟩
  · rw [hsame]
  · rw [hmore]
    exact List.prefix_append _ _

theorem mem_begun {src : List UInt8} (h : src ∈ begun r t) : ∃ u, r.event u = .push src := by
  induction t with
  | zero => cases h
  | succ t ih =>
    rcases begun_cases r t with hsame | ⟨src', he, hmore⟩
    · exact ih (hsame ▸ h)
    · rw [hmore, List.mem_append, List.mem_singleton] at h
      rcases h with h | rfl
      · exact ih h
      · exact ⟨t, he⟩

theorem begun_whole (h : OnGrid r f) (t : ℕ) : f ∣ (stream r.ring (begun r t)).length := by
  induction t with
  | zero => exact Nat.dvd_zero f
  | succ t ih =>
    rcases begun_cases r t with hsame | ⟨src, he, hmore⟩
    · rwa [hsame]
    · rw [hmore, stream_snoc, List.length_append, kept_length]
      apply Nat.dvd_add ih
      rcases le_total src.length r.ring.cap with hle | hle
      · rw [Nat.min_eq_left hle]
        exact h.pushed t src he
      · rw [Nat.min_eq_right hle]
        exact h.ring

structure Tailed (r : Run) (f t : ℕ) : Prop where
  holds : Holds access (tailTerms r.ring f (begun r t)) (r.state t).producer (r.mem t)
  within : word r.ring .tail (r.mem t) ≤ (stream r.ring (begun r t)).length

theorem within_grows (h : Tailed r f t) {m : Memory}
    (hgrows : Grows r.ring f (begun r t) (r.mem t) m) :
    word r.ring .tail m ≤ (stream r.ring (begun r t)).length := by
  rcases hgrows.tail with hsame | hmoved
  · rw [hsame]
    exact h.within
  · rw [hmoved]
    exact Nat.mod_le _ _

theorem tailed_push (h : Tailed r f t) {src : List UInt8} (he : r.event t = .push src) :
    Tailed r f (t + 1) := by
  have hstate : r.state (t + 1) = next r.ring (.push src) (r.state t) := congrArg (next _ · _) he
  have hmem : r.mem (t + 1) = r.mem t := by
    rw [Run.mem, hstate]
    rfl
  have hproducer : (r.state (t + 1)).producer =
      (r.state t).producer.invoke (startPush r.ring src) := congrArg State.producer hstate
  rcases busy_or_rest (r.state t).producer with hb | ⟨c, hc⟩
  · have hbegun := begun_busy hb
    constructor
    · rw [hproducer, invoke_busy hb, hbegun, hmem]
      exact h.holds
    · rw [hbegun, hmem]
      exact h.within
  · obtain ⟨hrest, hctl, htail⟩ := holds_between h.holds (not_busy hc)
    have hbegun := begun_rest he hc
    obtain rfl : (r.state t).producer.ctl = c := by
      rw [hrest] at hc
      simpa [Party.rest] using hc
    constructor
    · rw [hproducer, invoke_rest hc, hbegun, hmem, ← hctl]
      exact holds_settle (safe_push_grows src (hctl ▸ htail))
    · rw [hbegun, hmem, stream_snoc, List.length_append]
      exact h.within.trans (Nat.le_add_right _ _)

theorem tailed_format (h : Tailed r f t) {fmt : AudioFormat} (he : r.event t = .setFormat fmt)
    (hframe : f ∣ max fmt.frameBytes.toNat 1) : Tailed r f (t + 1) := by
  have hstate : r.state (t + 1) = next r.ring (.setFormat fmt) (r.state t) :=
    congrArg (next _ · _) he
  have hmem : r.mem (t + 1) = r.mem t := by
    rw [Run.mem, hstate]
    rfl
  have hbegun : begun r (t + 1) = begun r t := begun_other (by simp [he])
  have hcall : ∀ c, (tailTerms r.ring f (begun r t)).between c (r.mem t) →
      Safe access (tailTerms r.ring f (begun r t)) c (Ends (tailTerms r.ring f (begun r t)) c)
        (startFormat r.ring fmt c) [] (r.mem t) := by
    rintro c ⟨rfl, htail⟩
    exact safe_format_grows fmt hframe htail
  constructor
  · rw [hbegun, hmem, hstate]
    exact (holds_invoke h.holds hcall).1
  · rw [hbegun, hmem]
    exact h.within

/-- An access of the producer moves the words only as `Grows` allows. -/
theorem tailed_produce (h : Tailed r f t) (he : r.event t = .produce) :
    Tailed r f (t + 1) ∧ Grows r.ring f (begun r t) (r.mem t) (r.mem (t + 1)) := by
  have hstate : r.state (t + 1) = next r.ring .produce (r.state t) := congrArg (next _ · _) he
  have hmem : r.mem (t + 1) = ((r.state t).producer.access access (r.mem t)).2 :=
    congrArg State.mem hstate
  have hproducer : (r.state (t + 1)).producer =
      ((r.state t).producer.access access (r.mem t)).1 := congrArg State.producer hstate
  have hbegun : begun r (t + 1) = begun r t := begun_other (by simp [he])
  rcases busy_or_rest (r.state t).producer with hb | ⟨c, hc⟩
  · obtain ⟨hholds, hgrows, _⟩ := holds_access h.holds hb trivial
    rw [← hmem] at hholds hgrows
    refine ⟨⟨?_, ?_⟩, hgrows⟩
    · rw [hbegun, hproducer]
      exact hholds
    · rw [hbegun]
      exact within_grows h hgrows
  · rw [access_rest hc] at hmem hproducer
    refine ⟨⟨?_, ?_⟩, ?_⟩
    · rw [hbegun, hproducer, hmem]
      exact h.holds
    · rw [hbegun, hmem]
      exact h.within
    · rw [hmem]
      exact grows_same rfl rfl rfl

theorem tailed_side (h : Tailed r f t) (hbegun : begun r (t + 1) = begun r t)
    (hproducer : (r.state (t + 1)).producer = (r.state t).producer)
    (hside : SameOutside (HeadCells r.ring) (r.mem t) (r.mem (t + 1))) : Tailed r f (t + 1) := by
  constructor
  · rw [hproducer, hbegun]
    exact holds_env h.holds hside
  · rw [hbegun, word_sameOutside hside (by decide)]
    exact h.within

theorem consume_mem (he : r.event t = .consume) : r.mem (t + 1) =
    ((r.state t).consumer.advance access (readOn r.ring) (r.mem t)).2 := by
  have hstate : r.state (t + 1) = next r.ring .consume (r.state t) := congrArg (next _ · _) he
  exact congrArg State.mem hstate

theorem tailed (hgrid : OnGrid r f) (t : ℕ) : Tailed r f t := by
  induction t with
  | zero =>
    obtain ⟨before, total, hinit⟩ := r.initialized
    have htail : word r.ring .tail r.start = 0 := (fresh_init hinit).2.2.2.tail
    exact ⟨holds_rest ⟨rfl, htail⟩, htail.le⟩
  | succ t ih =>
    have hstate : r.state (t + 1) = next r.ring (r.event t) (r.state t) := rfl
    cases he : r.event t with
    | push src => exact tailed_push ih he
    | setFormat fmt => exact tailed_format ih he (hgrid.published t fmt he)
    | produce => exact (tailed_produce ih he).1
    | read out maxLatency =>
      have hmem : r.mem (t + 1) = r.mem t := by
        rw [Run.mem, hstate, he]
        rfl
      apply tailed_side ih (begun_other (by simp [he])) (by rw [hstate, he]; rfl)
      rw [hmem]
      exact sameOutside_refl _ _
    | consume =>
      apply tailed_side ih (begun_other (by simp [he])) (by rw [hstate, he]; rfl)
      rw [consume_mem he]
      exact (invariant_run r t).consumer.advance (r.mem t)

theorem begun_pushed (h : ¬ (r.state t).producer.Busy) : begun r t = r.pushed t :=
  (holds_between (tailed (onGrid_one r) t).holds h).2.1.symm

theorem later_grows (hgrid : OnGrid r f)
    (hbytes : (stream r.ring (begun r t)).length < 2 ^ 64) {m : Memory}
    (hgrows : Grows r.ring f (begun r t) (r.mem t) m) : Later r.ring f (r.mem t) m := by
  refine ⟨hgrows.head, ?_, ?_, hgrows.frame⟩
  · rcases hgrows.tail with hsame | hmoved
    · exact hsame.ge
    · rw [hmoved, Nat.mod_eq_of_lt hbytes]
      exact (tailed hgrid t).within
  · rcases hgrows.tail with hsame | hmoved
    · rw [hsame]
      exact id
    · rw [hmoved, Nat.mod_eq_of_lt hbytes]
      intro _
      exact begun_whole hgrid t

theorem reader_holds (hgrid : OnGrid r f) (hbytes : (stream r.ring (begun r j)).length < 2 ^ 64)
    (h : t ≤ j) : Holds access (headTerms r.ring f) (r.state t).consumer (r.mem t) := by
  induction t with
  | zero =>
    obtain ⟨before, total, hinit⟩ := r.initialized
    have hfresh := (fresh_init hinit).2.2.2
    have htail : word r.ring .tail (r.mem 0) = 0 := hfresh.tail
    have hhead : word r.ring .head (r.mem 0) = 0 := hfresh.head
    refine holds_rest ⟨⟨?_, ?_, ?_⟩, trivial⟩
    · rw [htail]
      exact Nat.dvd_zero f
    · rw [hhead]
      exact Nat.dvd_zero f
    · rw [hhead]
      exact Nat.zero_le _
  | succ t ih =>
    have hholds := ih (by omega)
    have hmore : (stream r.ring (begun r t)).length ≤ (stream r.ring (begun r j)).length :=
      (stream_mono (begun_mono (by omega))).length_le
    have hstate : r.state (t + 1) = next r.ring (r.event t) (r.state t) := rfl
    cases he : r.event t with
    | push src =>
      rw [Run.mem, hstate, he]
      exact hholds
    | setFormat fmt =>
      rw [Run.mem, hstate, he]
      exact hholds
    | produce =>
      have hgrows := (tailed_produce (tailed hgrid t) he).2
      have hconsumer : (r.state (t + 1)).consumer = (r.state t).consumer := by
        rw [hstate, he]
        rfl
      rw [hconsumer]
      exact holds_env hholds (later_grows hgrid (by omega) hgrows)
    | read out maxLatency =>
      rw [Run.mem, hstate, he]
      exact (holds_invoke hholds fun c hc =>
        safe_readStart out maxLatency hc.1 hc.2 (hgrid.framed t out maxLatency he)).1
    | consume =>
      rw [Run.mem, hstate, he]
      rcases busy_or_rest (r.state t).consumer with hb | ⟨c, hc⟩
      · simp only [next, advance_busy hb]
        exact (holds_access hholds hb trivial).1
      · simp only [next, advance_rest hc]
        exact (holds_invoke hholds fun c hc => safe_readOn hc.1 hc.2).1

/-- At any instant before the pushes begun wrap, the head is on the grid behind the tail. -/
theorem placed_run (hgrid : OnGrid r f) (hbytes : (stream r.ring (begun r t)).length < 2 ^ 64) :
    Placed r.ring f (r.mem t) := by
  have hholds := reader_holds hgrid hbytes (Nat.le_refl t)
  by_cases hb : (r.state t).consumer.Busy
  · exact holds_during hholds hb
  · exact (holds_between hholds hb).2.1

/-- Between two calls of the producer the region is a queue: all kept bytes written, those
behind the head consumed. -/
theorem rest_refines (hgrid : OnGrid r f) (hrest : ¬ (r.state t).producer.Busy)
    (hbytes : (stream r.ring (r.pushed t)).length < 2 ^ 64) :
    ∃ q : Queue UInt8, Refines r.ring q (r.mem t) ∧ q.written = stream r.ring (r.pushed t) ∧
      f ∣ q.written.length ∧ f ∣ q.consumed := by
  have hbegun := begun_pushed hrest
  have hplaced := placed_run hgrid (hbegun ▸ hbytes)
  have hquiet : Quiet r.ring (r.pushed t) (r.mem t) :=
    (holds_between (invariant_run r t).producer hrest).2
  have htail : word r.ring .tail (r.mem t) = (stream r.ring (r.pushed t)).length := by
    rw [hquiet.tail, Nat.mod_eq_of_lt hbytes]
  have hbehind := hplaced.behind
  rw [htail] at hbehind
  refine ⟨⟨stream r.ring (r.pushed t), word r.ring .head (r.mem t), frameOf r.ring (r.mem t),
    hbehind, Nat.le_max_right _ _⟩, ⟨quiet_even hquiet, htail, rfl, rfl, hquiet.live⟩, rfl, ?_,
    hplaced.head⟩
  rw [← htail]
  exact hplaced.tail

end Runs

end RestingRing
