import Lalah.AudioPipeline
import Lalah.FormatHandover

/-! What the player of a run finds: while nothing is published no poll comes back, and behind
the publication every poll brings the published format, whole, whatever is pushed meanwhile. -/
namespace PlayerFormat

open InteractionProgram RelyGuarantee CallProtocol ByteMemory GatedRecord ShmContract AudioRing
open PlaybackDiagnosis FormatHandover AudioPipeline
open AudioTearFreedom hiding State Event Run next
open WasapiCapture hiding Next

section Format

variable {r : Run} {t u : ℕ}

/-- How the two words of the format stand with what the capture thread has published. -/
structure Formatted (ring : ShmAudioBuffer) (published : Option AudioFormat)
    (q : AudioTearFreedom.State) : Prop where
  before : published = none → ¬ q.producer.Busy ∧ word ring .frameBytes q.mem = 0
  behind : ∀ fmt (h : fmt.frameBytes ≠ 0), published = some fmt →
    Holds access (formatTerms ring fmt h) q.producer q.mem

variable {ring : ShmAudioBuffer} {published : Option AudioFormat} {q : AudioTearFreedom.State}

theorem published_after {e : Endpoint} (op : CaptureOp) (reply : op.Reply) {d : Device}
    (hop : ∀ fmt, op ≠ .setFormat fmt) : (after e op reply d).published = d.published := by
  cases op with
  | request q =>
    rcases (reply : Except Hresult q.Value) with err | a
    · cases q <;> rfl
    · cases q with
      | getBuffer =>
        change (if _ then d else _ : Device).published = _
        split <;> rfl
      | _ => rfl
  | isFormatSupported wfx =>
    change (if _ then _ else _ : Device).published = _
    split <;> rfl
  | waitForSingleObject ms => rfl
  | setFormat fmt => exact absurd rfl (hop fmt)
  | pushOverwrite src => rfl

theorem formatted_side {q' : AudioTearFreedom.State} (h : Formatted ring published q)
    (hproducer : q'.producer = q.producer) (hside : SameOutside (HeadCells ring) q.mem q'.mem) :
    Formatted ring published q' := by
  constructor
  · intro hnone
    obtain ⟨hbusy, hzero⟩ := h.before hnone
    rw [hproducer, word_sameOutside hside (by decide)]
    exact ⟨hbusy, hzero⟩
  · intro fmt hf hfmt
    rw [hproducer]
    exact holds_env (h.behind fmt hf hfmt) hside

theorem formatted_produce (h : Formatted ring published q) :
    Formatted ring published (AudioTearFreedom.next ring .produce q) ∧
      ∀ fmt (hf : fmt.frameBytes ≠ 0), published = none ∨ published = some fmt →
        (formatRecord ring fmt hf).Advances q.mem (AudioTearFreedom.next ring .produce q).mem := by
  rcases busy_or_rest q.producer with hb | ⟨c, hc⟩
  · refine ⟨⟨fun hnone => absurd hb (h.before hnone).1, fun fmt hf hfmt => ?_⟩, ?_⟩
    · exact (holds_access (h.behind fmt hf hfmt) hb trivial).1
    · rintro fmt hf (hnone | hfmt)
      · exact absurd hb (h.before hnone).1
      · exact (holds_access (h.behind fmt hf hfmt) hb trivial).2.1
  · rw [produce_rest hc]
    exact ⟨h, fun fmt hf _ => Record.advances_refl _⟩

theorem formatted_call {e : Endpoint} {op : CaptureOp} {reply : op.Reply} {d : Device}
    (h : Formatted ring d.published q) (hop : permits e op d) (hrest : ∃ c, q.producer.prog = .ret c) :
    Formatted ring (after e op reply d).published (AudioTearFreedom.next ring (ringCall op) q) ∧
      (AudioTearFreedom.next ring (ringCall op) q).mem = q.mem := by
  obtain ⟨c, hc⟩ := hrest
  have hquiet : (∀ fmt, op ≠ .setFormat fmt) → ringCall op = .produce →
      Formatted ring (after e op reply d).published (AudioTearFreedom.next ring (ringCall op) q) ∧
        (AudioTearFreedom.next ring (ringCall op) q).mem = q.mem := by
    intro hno hcall
    rw [hcall, produce_rest hc, published_after op reply hno]
    exact ⟨h, rfl⟩
  cases op with
  | request _ => exact hquiet nofun rfl
  | isFormatSupported _ => exact hquiet nofun rfl
  | waitForSingleObject _ => exact hquiet nofun rfl
  | setFormat fmt =>
    obtain ⟨_, hnone, _⟩ := hop
    obtain ⟨_, hzero⟩ := h.before hnone
    refine ⟨⟨nofun, fun fmt' hf hfmt => ?_⟩, rfl⟩
    obtain rfl : fmt = fmt' := Option.some.inj hfmt
    have hproducer : (AudioTearFreedom.next ring (ringCall (.setFormat fmt)) q).producer =
        settle c [] (startFormat ring fmt c) := invoke_rest hc
    rw [hproducer]
    exact holds_settle (safe_publish_format hzero)
  | pushOverwrite src =>
    obtain ⟨_, _, fmt, _, hfmt, _⟩ := hop
    refine ⟨⟨fun hnone => ?_, fun fmt' hf hfmt' => ?_⟩, rfl⟩
    · have hnone' : d.published = none := hnone
      rw [hfmt] at hnone'
      cases hnone'
    · have hfmt'' : d.published = some fmt' := hfmt'
      have hholds := h.behind fmt' hf hfmt''
      exact (holds_invoke hholds fun c hcomplete => safe_push_format src hcomplete).1

theorem ring_side (hother : ∀ reply, r.event t ≠ .capture reply) :
    (r.state (t + 1)).ring.producer = (r.state t).ring.producer ∧
      SameOutside (HeadCells r.ring) (r.mem t) (r.mem (t + 1)) := by
  have hinvariant := (invariant_run r.over t).consumer
  have hover : r.over.state (t + 1) =
      AudioTearFreedom.next r.ring (r.over.event t) (r.over.state t) := rfl
  rw [AudioPipeline.Run.mem, AudioPipeline.Run.mem, ← over_state, ← over_state, hover]
  rcases side_event hother with he | ⟨out, maxLatency, he⟩
  · rw [he]
    exact ⟨rfl, hinvariant.advance (r.over.state t).mem⟩
  · rw [he]
    exact ⟨rfl, sameOutside_refl _ _⟩

theorem formatted_next (h : Formatted r.ring (r.device t).published (r.state t).ring) :
    Formatted r.ring (r.device (t + 1)).published (r.state (t + 1)).ring ∧
      ∀ fmt (hf : fmt.frameBytes ≠ 0),
        (r.device t).published = none ∨ (r.device t).published = some fmt →
          (formatRecord r.ring fmt hf).Advances (r.mem t) (r.mem (t + 1)) := by
  have hstate : r.state (t + 1) = next r.cfg r.ring (r.event t) (r.state t) := rfl
  by_cases hother : ∀ reply, r.event t ≠ .capture reply
  · obtain ⟨hproducer, hside⟩ := ring_side hother
    rw [capture_other hother]
    exact ⟨formatted_side h hproducer hside, fun fmt hf _ => advances_head hside⟩
  push Not at hother
  obtain ⟨reply, he⟩ := hother
  rw [Run.device, AudioPipeline.Run.mem, AudioPipeline.Run.mem, hstate, he]
  rcases busy_or_rest (r.state t).ring.producer with ⟨op, k, hp⟩ | ⟨c, hc⟩
  · simp only [next, State.capture, hp]
    exact formatted_produce h
  · rcases busy_or_rest (r.state t).thread with ⟨op, k, hk⟩ | ⟨v, hv⟩
    · have hop := (abides_act (capturing_run r t).abides hk).1
      obtain ⟨hnext, hmem⟩ := @formatted_call _ _ _ _ (reply op) _ h hop ⟨c, hc⟩
      simp only [next, State.capture, hc, hk]
      refine ⟨hnext, fun fmt hf _ => ?_⟩
      rw [hmem]
      exact Record.advances_refl _
    · simp only [next, State.capture, hc, hv]
      exact ⟨h, fun fmt hf _ => Record.advances_refl _⟩

theorem formatted_run (r : Run) (t : ℕ) :
    Formatted r.ring (r.device t).published (r.state t).ring := by
  induction t with
  | zero =>
    obtain ⟨before, total, hinit⟩ := r.initialized
    have hzero : word r.ring .frameBytes r.start = 0 := (fresh_init hinit).2.2.2.frameBytes
    exact ⟨fun _ => ⟨not_busy rfl, hzero⟩, nofun⟩
  | succ t ih => exact (formatted_next ih).1

theorem published_stays {fmt : AudioFormat} (h : (r.device t).published = some fmt) (htu : t ≤ u) :
    (r.device u).published = some fmt := by
  induction u, htu using Nat.le_induction with
  | base => exact h
  | succ u _ ih =>
    have hstate : r.state (u + 1) = next r.cfg r.ring (r.event u) (r.state u) := rfl
    by_cases hother : ∀ reply, r.event u ≠ .capture reply
    · rw [capture_other hother]
      exact ih
    push Not at hother
    obtain ⟨reply, he⟩ := hother
    rw [Run.device, hstate, he]
    rcases busy_or_rest (r.state u).ring.producer with ⟨op, k, hp⟩ | ⟨c, hc⟩
    · simp only [next, State.capture, hp]
      exact ih
    · rcases busy_or_rest (r.state u).thread with ⟨op, k, hk⟩ | ⟨v, hv⟩
      · have hop := (abides_act (capturing_run r u).abides hk).1
        simp only [next, State.capture, hc, hk]
        rw [published_after op (reply op), ← Run.device, ih]
        rintro fmt' rfl
        obtain ⟨_, hnone, _⟩ := hop
        rw [← Run.device, ih] at hnone
        cases hnone
      · simp only [next, State.capture, hc, hv]
        exact ih

end Format

section Player

structure Tuned (cfg : Config) (ring : ShmAudioBuffer) (fmt : AudioFormat) (st : PlaybackState) :
    Prop where
  ring : st.ring = ring
  latency : st.maxLatencyBytes = cfg.maxLatencyBytes fmt
  stride : st.stride = fmt.frameBytes.toNat

variable (cfg : Config) (ring : ShmAudioBuffer) (fmt : AudioFormat) (h : fmt.frameBytes ≠ 0)

def Ready (c : Player) (m : Memory) : Prop :=
  (formatRecord ring fmt h).Gated m ∧
    ∀ st, c.shared = some st → (formatRecord ring fmt h).Complete m ∧ Tuned cfg ring fmt st

def playerTerms : Terms Access Memory Player where
  rely := (formatRecord ring fmt h).Advances
  allow := fun _ _ _ => True
  guar := fun _ _ => True
  during := fun _ _ => (formatRecord ring fmt h).Gated
  between := Ready cfg ring fmt h
  follows := fun _ _ => True
  rely_refl := Record.advances_refl
  rely_trans := fun _ _ _ => Record.Advances.trans
  between_stable := fun _ _ _ hr hs =>
    ⟨hs.1 hr.1, fun st hst => ⟨hs.2 (hr.2 st hst).1, (hr.2 st hst).2⟩⟩

variable {cfg ring fmt h} {c : Player} {m : Memory} {st : PlaybackState} {r : Run} {t : ℕ}

theorem safe_poll (hg : (formatRecord ring fmt h).Gated m) :
    Safe access (playerTerms cfg ring fmt h) c (Ends (playerTerms cfg ring fmt h) c)
      (poll cfg ring) [] m := by
  apply safe_poll_format (fun _ _ hs => hs) (fun _ _ hg => ⟨hg, trivial⟩) hg
  · intro made m hg
    exact ⟨⟨hg, nofun⟩, trivial⟩
  · intro made m hc
    refine ⟨⟨Or.inr hc, fun st hst => ⟨hc, ?_⟩⟩, trivial⟩
    obtain rfl := Option.some.inj hst
    exact ⟨rfl, rfl, rfl⟩

theorem tuned_counted (hst : Tuned cfg ring fmt st) (slice : List UInt8) (avail : ℕ) :
    Tuned cfg ring fmt (counted st slice avail) := by
  unfold counted
  split
  · exact ⟨hst.ring, hst.latency, hst.stride⟩
  · exact hst

theorem tuned_finished (hst : Tuned cfg ring fmt st) (slice : List UInt8) (live : ℕ) :
    Tuned cfg ring fmt (finished st slice live) := by
  unfold finished
  split
  · exact ⟨hst.ring, hst.latency, hst.stride⟩
  · exact hst

theorem safe_sample (slice : List UInt8) (hc : (formatRecord ring fmt h).Complete m)
    (hst : Tuned cfg ring fmt st) :
    Safe access (playerTerms cfg ring fmt h) c (Ends (playerTerms cfg ring fmt h) c)
      (sample st slice) [] m := by
  apply safe_load
  intro m₁ hs₁
  have c₁ := hs₁.2 hc
  refine ⟨Or.inr c₁, fun _ => ⟨trivial, ?_⟩⟩
  apply safe_load
  intro m₂ hs₂
  have c₂ := hs₂.2 c₁
  refine ⟨Or.inr c₂, fun _ => ⟨trivial, ⟨Or.inr c₂, fun st' hst' => ⟨c₂, ?_⟩⟩, trivial⟩⟩
  obtain rfl := Option.some.inj hst'
  exact tuned_counted hst slice _

theorem ready_shared {c' : Player} {st' : PlaybackState} (hr : Ready cfg ring fmt h c m)
    (hst : c.shared = some st) (hst' : c'.shared = some st')
    (htuned : Tuned cfg ring fmt st → Tuned cfg ring fmt st') : Ready cfg ring fmt h c' m := by
  obtain ⟨hc, htune⟩ := hr.2 st hst
  refine ⟨hr.1, fun st'' hst'' => ⟨hc, ?_⟩⟩
  obtain rfl := Option.some.inj (hst'.symm.trans hst'')
  exact htuned htune

theorem player_host (hattuned : Attuned (r.state t)) (he : r.event t = .host)
    (hadvance : (formatRecord r.ring fmt h).Advances (r.mem t) (r.mem (t + 1)))
    (hp : Holds access (playerTerms r.cfg r.ring fmt h) (r.state t).player (r.mem t)) :
    Holds access (playerTerms r.cfg r.ring fmt h) (r.state (t + 1)).player (r.mem (t + 1)) := by
  have hstate : r.state (t + 1) = (r.state t).host r.cfg r.ring := congrArg (next _ _ · _) he
  rcases busy_or_rest (r.state t).player with ⟨op, k, hk⟩ | ⟨c, hc⟩
  · have hplayer : (r.state (t + 1)).player = ((r.state t).player.access access (r.mem t)).1 := by
      simp only [hstate, State.host, hk]
      rfl
    have hmem : ((r.state t).player.access access (r.mem t)).2 = r.mem t := by
      rw [access_act hk]
      exact mem_loaded hattuned hk
    have hnext := (holds_access hp ⟨op, k, hk⟩ trivial).1
    rw [hmem, ← hplayer] at hnext
    exact holds_env hnext hadvance
  obtain ⟨_, hready⟩ := holds_ret hp hc
  cases c with
  | waiting =>
    have hplayer : (r.state (t + 1)).player = settle .waiting [] (poll r.cfg r.ring) := by
      simp only [hstate, State.host, hc, invoke_rest hc]
    rw [hplayer]
    exact holds_settle (safe_poll (hadvance.1 hready.1))
  | resting st =>
    have hplayer : (r.state (t + 1)).player = (r.state t).player := by
      simp only [hstate, State.host, hc]
    rw [hplayer]
    exact holds_env hp hadvance
  | sampled st slice avail =>
    have hplayer : (r.state (t + 1)).player = .rest (.reading st slice avail) := by
      simp only [hstate, State.host, hc]
    rw [hplayer]
    have hreading : Ready r.cfg r.ring fmt h (.reading st slice avail) (r.mem t) :=
      ready_shared hready rfl rfl id
    exact holds_env (holds_rest hreading) hadvance
  | reading st slice avail =>
    have hplayer : (r.state (t + 1)).player = (r.state t).player ∨ ∃ live,
        (r.state (t + 1)).player = .rest (.resting (finished st slice live)) := by
      simp only [hstate, State.host, hc]
      split
      · exact Or.inl rfl
      next live out _ => exact Or.inr ⟨live, rfl⟩
    rcases hplayer with hsame | ⟨live, hdone⟩
    · rw [hsame]
      exact holds_env hp hadvance
    · rw [hdone]
      have hfinished : Ready r.cfg r.ring fmt h (.resting (finished st slice live)) (r.mem t) :=
        ready_shared hready rfl rfl fun hst => tuned_finished hst slice live
      exact holds_env (holds_rest hfinished) hadvance

theorem player_next (hattuned : Attuned (r.state t))
    (hadvance : (formatRecord r.ring fmt h).Advances (r.mem t) (r.mem (t + 1)))
    (hp : Holds access (playerTerms r.cfg r.ring fmt h) (r.state t).player (r.mem t)) :
    Holds access (playerTerms r.cfg r.ring fmt h) (r.state (t + 1)).player (r.mem (t + 1)) := by
  have hstate : r.state (t + 1) = next r.cfg r.ring (r.event t) (r.state t) := rfl
  have hsame : (r.state (t + 1)).player = (r.state t).player →
      Holds access (playerTerms r.cfg r.ring fmt h) (r.state (t + 1)).player
        (r.mem (t + 1)) := by
    intro hsame
    rw [hsame]
    exact holds_env hp hadvance
  cases he : r.event t with
  | capture reply =>
    apply hsame
    rw [hstate, he]
    simp only [next, State.capture]
    split <;> rfl
  | host => exact player_host hattuned he hadvance hp
  | process buffer =>
    have hprocess : r.state (t + 1) = (r.state t).process buffer := by rw [hstate, he]; rfl
    unfold State.process at hprocess
    split at hprocess
    next st slice chunk hc =>
      obtain ⟨_, hready⟩ := holds_ret hp hc
      obtain ⟨hcomplete, htuned⟩ := hready.2 st rfl
      have hplayer : (r.state (t + 1)).player = settle (.resting st) [] (sample st slice) := by
        rw [hprocess]
        exact invoke_rest hc
      rw [hplayer]
      exact holds_settle (safe_sample slice (hadvance.2 hcomplete) htuned)
    next => exact hsame (by rw [hprocess])
  | print =>
    apply hsame
    rw [hstate, he]
    simp only [next, State.print]
    split <;> rfl

/-- Before the format is published, the player may find any; behind that, only the one. -/
theorem player_run (r : Run) (t : ℕ) {fmt : AudioFormat} (h : fmt.frameBytes ≠ 0)
    (hfmt : (r.device t).published = none ∨ (r.device t).published = some fmt) :
    Holds access (playerTerms r.cfg r.ring fmt h) (r.state t).player (r.mem t) := by
  induction t with
  | zero =>
    have hzero := ((formatted_run r 0).before rfl).2
    exact holds_rest ⟨Or.inl hzero, nofun⟩
  | succ t ih =>
    have hbefore : (r.device t).published = none ∨ (r.device t).published = some fmt := by
      cases hold : (r.device t).published with
      | none => exact Or.inl rfl
      | some fmt' =>
        have hstays := published_stays hold (Nat.le_succ t)
        rw [hstays] at hfmt
        rcases hfmt with hnone | hsome
        · cases hnone
        · exact Or.inr hsome
    exact player_next (attuned_run r t) ((formatted_next (formatted_run r t)).2 fmt h hbefore)
      (ih hbefore)

/-- A player that is past the wait plays with the format that was published. -/
theorem player_tuned (r : Run) (t : ℕ) {c : Player} {st : PlaybackState}
    (hc : (r.state t).player.prog = .ret c) (hst : c.shared = some st) :
    ∃ fmt, (r.device t).published = some fmt ∧ (fmt.frameBytes ≠ 0 →
      Tuned r.cfg r.ring fmt st ∧ word r.ring .frameBytes (r.mem t) = fmt.frameBytes.toNat) := by
  have hready : ∀ fmt (h : fmt.frameBytes ≠ 0),
      (r.device t).published = none ∨ (r.device t).published = some fmt →
        Ready r.cfg r.ring fmt h c (r.mem t) :=
    fun fmt h hfmt => (holds_ret (player_run r t h hfmt) hc).2
  cases hpublished : (r.device t).published with
  | none =>
    -- the gate is closed for every format, so no poll has come back with one
    have hzero := ((formatted_run r t).before hpublished).2
    obtain ⟨hcomplete, _⟩ := (hready ⟨0, 0, .s16Le, 1⟩ (by decide) (Or.inl hpublished)).2 st hst
    exact absurd hzero hcomplete.not_closed
  | some fmt =>
    refine ⟨fmt, rfl, fun h => ?_⟩
    obtain ⟨hcomplete, htuned⟩ := (hready fmt h (Or.inr hpublished)).2 st hst
    exact ⟨htuned, hcomplete _ _ Record.gate_mem⟩

end Player

end PlayerFormat
