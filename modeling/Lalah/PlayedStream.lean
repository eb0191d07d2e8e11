import Lalah.PlayerFormat
import Lalah.WholeReads

/-! What the player plays: buffer after buffer, whole frames of the packets that the device
handed over, in order and none of them twice, filled up with silence; and what the statistics
thread prints of it. -/
namespace PlayedStream

open InteractionProgram RelyGuarantee CallProtocol ByteMemory ShmContract AudioRing
open RestingRing WholeReads PlaybackDiagnosis FormatHandover AudioPipeline PlayerFormat
open AudioSession hiding Session
open AudioTearFreedom hiding State Event Run next
open WasapiCapture hiding Next

section Grid

variable {r : Run} {fmt fmt' : AudioFormat} {i j t u : ℕ}

theorem published_unique (ht : (r.device t).published = some fmt)
    (hu : (r.device u).published = some fmt') : fmt = fmt' := by
  rcases le_total t u with htu | hut
  · exact Option.some.inj ((published_stays ht htu).symm.trans hu)
  · exact Option.some.inj (ht.symm.trans (published_stays hu hut))

theorem over_called {e : AudioTearFreedom.Event} (he : r.over.event t = e)
    (hcalled : (∃ src, e = .push src) ∨ ∃ fmt, e = .setFormat fmt) :
    ∃ op reply, ringCall op = e ∧ permits r.cfg.endpoint op (r.device t) ∧
      r.device (t + 1) = after r.cfg.endpoint op reply (r.device t) := by
  have hstate : r.state (t + 1) = next r.cfg r.ring (r.event t) (r.state t) := rfl
  have hproduce : r.over.event t ≠ .produce := by
    rw [he]
    rcases hcalled with ⟨src, rfl⟩ | ⟨fmt, rfl⟩ <;> nofun
  by_cases hother : ∀ reply, r.event t ≠ .capture reply
  · rcases side_event hother with hside | ⟨out, maxLatency, hside⟩
    all_goals
      rw [he] at hside
      rcases hcalled with ⟨src, rfl⟩ | ⟨fmt, rfl⟩ <;> cases hside
  push Not at hother
  obtain ⟨reply, hevent⟩ := hother
  rcases busy_or_rest (r.state t).ring.producer with ⟨op, k, hp⟩ | ⟨c, hc⟩
  · exact absurd (by simp only [Run.over, hevent, State.ringEvent, hp]) hproduce
  · rcases busy_or_rest (r.state t).thread with ⟨op, k, hk⟩ | ⟨v, hv⟩
    · refine ⟨op, reply op, ?_, (abides_act (capturing_run r t).abides hk).1, ?_⟩
      · rw [← he]
        simp only [Run.over, hevent, State.ringEvent, hc, hk]
      · simp only [Run.device, hstate, hevent, next, State.capture, hc, hk]
    · exact absurd (by simp only [Run.over, hevent, State.ringEvent, hc, hv]) hproduce

theorem over_push {src : List UInt8} (he : r.over.event t = .push src) :
    ∃ (packet : Packet) (fmt : AudioFormat), (r.device t).published = some fmt ∧
      src = packet.payload fmt := by
  obtain ⟨op, reply, hop, hpermits, _⟩ := over_called he (Or.inl ⟨src, rfl⟩)
  cases op with
  | pushOverwrite src' =>
    obtain rfl : src' = src := by simpa [ringCall] using hop
    obtain ⟨_, packet, fmt, _, hfmt, hsrc⟩ := hpermits
    exact ⟨packet, fmt, hfmt, hsrc⟩
  | _ => cases hop

theorem over_format (he : r.over.event t = .setFormat fmt) :
    (r.device (t + 1)).published = some fmt := by
  obtain ⟨op, reply, hop, _, hdevice⟩ := over_called he (Or.inr ⟨fmt, rfl⟩)
  cases op with
  | setFormat fmt' =>
    obtain rfl : fmt' = fmt := by simpa [ringCall] using hop
    rw [hdevice]
    rfl
  | _ => cases hop

theorem over_read {out : List UInt8} {maxLatency : ℕ}
    (he : r.over.event t = .read out maxLatency) :
    ∃ c st, (r.state t).player.prog = .ret c ∧ c.shared = some st := by
  have hringCall : ∀ op, ringCall op ≠ .read out maxLatency := fun op => by cases op <;> nofun
  simp only [Run.over] at he
  cases hevent : r.event t with
  | capture reply =>
    simp only [hevent, State.ringEvent] at he
    split at he
    · exact absurd he (hringCall _)
    · cases he
  | host =>
    simp only [hevent, State.ringEvent] at he
    split at he
    next hp => exact ⟨_, _, hp, rfl⟩
    next => cases he
  | process buffer =>
    simp only [hevent, State.ringEvent, State.stay] at he
    split at he
    next hp => exact ⟨_, _, hp, rfl⟩
    next => cases he
  | print =>
    simp only [hevent, State.ringEvent, State.stay] at he
    split at he
    next hp => exact ⟨_, _, hp, rfl⟩
    next => cases he

theorem payload_length (packet : Packet) (fmt : AudioFormat) :
    (packet.payload fmt).length = packet.bytes fmt := by
  unfold Packet.payload
  split <;> simp

/-- Everything that happens on the ring is on the grid of the published frames. -/
theorem onGrid_run (hcap : 8 ≤ r.ring.cap) (hfmt : (r.device j).published = some fmt)
    (hsize : fmt.frameBytes.toNat ∈ [2, 4, 8]) : OnGrid r.over fmt.frameBytes.toNat := by
  have hpos : 0 < fmt.frameBytes.toNat := by
    simp only [List.mem_cons, List.not_mem_nil, or_false] at hsize
    omega
  have hmax : max fmt.frameBytes.toNat 1 = fmt.frameBytes.toNat := Nat.max_eq_left hpos
  constructor
  · exact frame_dvd_cap hcap hsize
  · intro t src he
    obtain ⟨packet, fmt', hfmt', rfl⟩ := over_push he
    obtain rfl := published_unique hfmt hfmt'
    rw [payload_length]
    exact Nat.dvd_mul_left _ _
  · intro t fmt' he
    obtain rfl := published_unique hfmt (over_format he)
    rw [hmax]
  · intro t out maxLatency he
    obtain ⟨c, st, hc, hst⟩ := over_read he
    obtain ⟨fmt', hfmt', htuned⟩ := player_tuned r t hc hst
    obtain rfl := published_unique hfmt hfmt'
    have hne : fmt.frameBytes ≠ 0 := fun hz => by simp [hz] at hpos
    have hmem : r.over.mem t = r.mem t := congrArg _ (over_state r t)
    have hword : word r.ring .frameBytes (r.mem t) = fmt.frameBytes.toNat := (htuned hne).2
    change fmt.frameBytes.toNat ∣ frameOf r.ring (r.over.mem t)
    rw [hmem, frameOf, hword, hmax]

end Grid

section Reads

variable {r : Run} {fmt : AudioFormat} {i j t avail : ℕ} {st : PlaybackState}
  {slice : List UInt8}

theorem reading_back (hp : (r.state (t + 1)).player.prog = .ret (.reading st slice avail)) :
    (r.state t).player.prog = .ret (.reading st slice avail) ∨
      r.event t = .host ∧ (r.state t).player.prog = .ret (.sampled st slice avail) := by
  have hattuned := attuned_run r t
  have hstate : r.state (t + 1) = next r.cfg r.ring (r.event t) (r.state t) := rfl
  rw [hstate] at hp
  cases he : r.event t with
  | capture reply =>
    rw [he] at hp
    simp only [next, State.capture] at hp
    split at hp <;> exact Or.inl hp
  | host =>
    rw [he] at hp
    rcases busy_or_rest (r.state t).player with ⟨op, k, hk⟩ | ⟨c, hc⟩
    · have hloads := hattuned.player ⟨op, k, hk⟩
      rw [hk] at hloads
      have hnext := hloads.2 (access op (r.state t).ring.mem).1 trivial
      simp only [next, State.host, hk, access_act hk, settle_prog] at hp
      rw [hp] at hnext
      exact absurd rfl (hnext st slice avail)
    · cases c with
      | waiting =>
        simp only [next, State.host, hc, invoke_rest hc, settle_prog] at hp
        cases hp
      | resting st' =>
        simp only [next, State.host, hc] at hp
        cases hp
      | sampled st' slice' avail' =>
        simp only [next, State.host, hc] at hp
        cases hp
        exact Or.inr ⟨rfl, hc⟩
      | reading st' slice' avail' =>
        simp only [next, State.host, hc] at hp
        split at hp
        · exact Or.inl (hc.symm.trans hp ▸ hc)
        · cases hp
  | process buffer =>
    rw [he] at hp
    simp only [next, State.process] at hp
    split at hp
    next st' slice' _ hc =>
      rw [invoke_rest hc, settle_prog] at hp
      cases hp
    next => exact Or.inl hp
  | print =>
    rw [he] at hp
    simp only [next, State.print] at hp
    split at hp <;> exact Or.inl hp

theorem reading_since (hp : (r.state t).player.prog = .ret (.reading st slice avail)) :
    ∃ i < t, r.over.event i = .read (slice.take (window st slice)) (budget st slice) ∧
      Idle (r.over.state i) ∧ ∀ k, i < k → k ≤ t → ¬ Idle (r.over.state k) := by
  induction t with
  | zero => cases hp
  | succ t ih =>
    have hactive : ¬ Idle (r.over.state (t + 1)) := by
      rw [over_state]
      exact reading_active ((attuned_run r (t + 1)).reading st slice avail hp)
    rcases reading_back hp with hbefore | ⟨he, hsampled⟩
    · obtain ⟨i, hit, hbegins, hidle, hinside⟩ := ih hbefore
      refine ⟨i, by omega, hbegins, hidle, fun k hik hkt => ?_⟩
      rcases Nat.lt_or_ge k (t + 1) with hlt | hge
      · exact hinside k hik (by omega)
      · obtain rfl : k = t + 1 := by omega
        exact hactive
    · obtain ⟨last, hlast⟩ := (attuned_run r t).idle (by simp [hsampled])
      refine ⟨t, Nat.lt_succ_self t, ?_, ?_, fun k hik hkt => ?_⟩
      · simp only [Run.over, he, State.ringEvent, hsampled]
      · rw [over_state]
        simp [Idle, hlast, Party.rest]
      · obtain rfl : k = t + 1 := by omega
        exact hactive

/-- A step that plays nothing, or the end of a read. -/
theorem plays_next (r : Run) (t : ℕ) : r.plays (t + 1) = r.plays t ∨
    ∃ st slice avail live out, r.event t = .host ∧
      (r.state t).player.prog = .ret (.reading st slice avail) ∧
      (r.state (t + 1)).ring.consumer.prog = .ret (.idle (some (live, out))) ∧
      r.plays (t + 1) =
        r.plays t ++ [played st slice avail live out (word r.ring .head (r.mem (t + 1)))] := by
  have hstate : r.state (t + 1) = next r.cfg r.ring (r.event t) (r.state t) := rfl
  rw [Run.plays, Run.plays, AudioPipeline.Run.mem, hstate]
  cases he : r.event t with
  | capture reply =>
    simp only [next, State.capture]
    split <;> exact Or.inl rfl
  | host =>
    simp only [next, State.host]
    split
    case h_5 st slice avail hp =>
      cases hr : returned (AudioTearFreedom.next r.ring .consume (r.state t).ring) with
      | none => exact Or.inl rfl
      | some last =>
        obtain ⟨live, out⟩ := last
        refine Or.inr ⟨st, slice, avail, live, out, trivial, hp, ?_, rfl⟩
        unfold returned at hr
        split at hr
        next last hlast => exact hlast.trans (by rw [hr])
        next => cases hr
    all_goals exact Or.inl rfl
  | process buffer =>
    simp only [next, State.process]
    split <;> exact Or.inl rfl
  | print =>
    simp only [next, State.print]
    split <;> exact Or.inl rfl

end Reads

section Packets

variable (ring : ShmAudioBuffer)

/-- Where a byte of the stream lies in the packets end to end: of a packet longer than the ring
the stream has only the last `cap` bytes. -/
def place : List (List UInt8) → ℕ → ℕ
  | [], pos => pos
  | src :: rest, pos =>
    if pos < (ring.kept src).length then src.length - (ring.kept src).length + pos
    else src.length + place rest (pos - (ring.kept src).length)

variable {ring} {packets more : List (List UInt8)} {src : List UInt8} {f pos n : ℕ}

theorem stream_cons (src : List UInt8) (packets : List (List UInt8)) :
    stream ring (src :: packets) = ring.kept src ++ stream ring packets := rfl

theorem kept_length_le (src : List UInt8) : (ring.kept src).length ≤ src.length := by
  rw [kept_length]
  exact Nat.min_le_left _ _

theorem kept_eq_drop (src : List UInt8) :
    ring.kept src = src.drop (src.length - (ring.kept src).length) := by
  rw [kept_length]
  unfold ShmAudioBuffer.kept
  split
  next hlong => rw [Nat.min_eq_right hlong.le]
  next hshort => rw [Nat.min_eq_left (Nat.not_lt.mp hshort), Nat.sub_self, List.drop_zero]

theorem kept_uncut (h : (ring.kept src).length < ring.cap) : ring.kept src = src := by
  rw [kept_length] at h
  exact if_neg (by omega)

/-- Places keep the order of the stream, and their distance never shrinks. -/
theorem place_add (packets : List (List UInt8)) (pos n : ℕ) :
    place ring packets pos + n ≤ place ring packets (pos + n) := by
  induction packets generalizing pos n with
  | nil => exact Nat.le_refl _
  | cons src rest ih =>
    have hkept := @kept_length_le ring src
    by_cases hpos : pos < (ring.kept src).length
    · by_cases hend : pos + n < (ring.kept src).length
      · rw [place, place, if_pos hpos, if_pos hend]
        omega
      · have hrest := ih 0 (pos + n - (ring.kept src).length)
        rw [Nat.zero_add] at hrest
        rw [place, place, if_pos hpos, if_neg hend]
        omega
    · have hrest := ih (pos - (ring.kept src).length) n
      have hshift : pos + n - (ring.kept src).length = pos - (ring.kept src).length + n := by
        omega
      rw [place, place, if_neg hpos, if_neg (by omega), hshift]
      omega

theorem place_end (packets : List (List UInt8)) :
    place ring packets (stream ring packets).length = packets.flatten.length := by
  induction packets with
  | nil => rfl
  | cons src rest ih =>
    rw [stream_cons, List.length_append, place, if_neg (by omega), Nat.add_sub_cancel_left, ih,
      List.flatten_cons, List.length_append]

theorem place_inside (h : pos + n ≤ (stream ring packets).length) :
    place ring packets pos + n ≤ packets.flatten.length := by
  have hstart := @place_add ring packets pos n
  have hend := @place_add ring packets (pos + n) ((stream ring packets).length - (pos + n))
  rw [Nat.add_sub_cancel' h, place_end] at hend
  omega

theorem place_append (h : pos < (stream ring packets).length) :
    place ring (packets ++ more) pos = place ring packets pos := by
  induction packets generalizing pos with
  | nil => exact absurd h (Nat.not_lt_zero pos)
  | cons src rest ih =>
    rw [stream_cons, List.length_append] at h
    rw [List.cons_append, place, place]
    split
    next => rfl
    next hpos => rw [ih (by omega)]

theorem stream_uncut (h : (stream ring packets).length < ring.cap) :
    stream ring packets = packets.flatten := by
  induction packets with
  | nil => rfl
  | cons src rest ih =>
    rw [stream_cons, List.length_append] at h
    rw [stream_cons, kept_uncut (by omega), ih (by omega), List.flatten_cons]

/-- What is at most a lap behind the end has no cut in it. -/
theorem drop_stream (hlap : (stream ring packets).length ≤ pos + ring.cap)
    (hpos : pos ≤ (stream ring packets).length) :
    (stream ring packets).drop pos = packets.flatten.drop (place ring packets pos) := by
  induction packets generalizing pos with
  | nil => rfl
  | cons src rest ih =>
    have hkept := @kept_length_le ring src
    rw [stream_cons, List.length_append] at hlap hpos
    rw [stream_cons, place, List.flatten_cons]
    split
    next hinside =>
      have hdrop : (ring.kept src).drop pos =
          src.drop (src.length - (ring.kept src).length + pos) := by
        conv_lhs => rw [kept_eq_drop]
        rw [List.drop_drop]
      rw [List.drop_append_of_le_length hinside.le, List.drop_append_of_le_length (by omega), hdrop,
        stream_uncut (by omega)]
    next hbehind =>
      have hpos' : (ring.kept src).length + (pos - (ring.kept src).length) = pos := by omega
      rw [← hpos', List.drop_length_add_append, List.drop_length_add_append,
        ih (by omega) (by omega), hpos']

theorem place_whole (hcap : f ∣ ring.cap) (hsrc : ∀ src ∈ packets, f ∣ src.length) (hpos : f ∣ pos) :
    f ∣ place ring packets pos := by
  induction packets generalizing pos with
  | nil => exact hpos
  | cons src rest ih =>
    have hlength : f ∣ src.length := hsrc src List.mem_cons_self
    have hkept : f ∣ (ring.kept src).length := by
      rw [kept_length]
      rcases Nat.le_total src.length ring.cap with hle | hle
      · rwa [Nat.min_eq_left hle]
      · rwa [Nat.min_eq_right hle]
    rw [place]
    split
    next => exact Nat.dvd_add (Nat.dvd_sub hlength hkept) hpos
    next =>
      exact Nat.dvd_add hlength (ih (fun w hw => hsrc w (List.mem_cons_of_mem _ hw))
        (Nat.dvd_sub hpos hkept))

end Packets

section Plays

/-- What a buffer went back with: whole frames of the packets from `start` on, then silence, and
behind the window what was there before. -/
structure Sound (f : ℕ) (packets : List (List UInt8)) (start : ℕ) (play : Play) : Prop where
  window : play.window = play.slice.length / f * f
  live : play.live ≤ play.window
  whole : f ∣ start ∧ f ∣ play.live
  inside : start + play.live ≤ packets.flatten.length
  data : play.data = ⟨some ((packets.flatten.drop start).take play.live ++
      List.replicate (play.window - play.live) 0 ++ play.slice.drop play.window),
    ⟨0, .ofNat f, .ofNat play.window⟩⟩

/-- What a buffer took of the ring: whole frames of what was pushed before, none of them more
than a lap old. -/
structure Fetched (ring : ShmAudioBuffer) (f : ℕ) (pushes : List (List UInt8)) (play : Play) :
    Prop where
  window : play.window = play.slice.length / f * f
  live : play.live ≤ play.window
  whole : f ∣ play.head ∧ f ∣ play.live
  inside : play.head + play.live ≤ (stream ring pushes).length
  unlapped : (stream ring pushes).length ≤ play.head + ring.cap
  data : play.data = ⟨some (((stream ring pushes).drop play.head).take play.live ++
      List.replicate (play.window - play.live) 0 ++ play.slice.drop play.window),
    ⟨0, .ofNat f, .ofNat play.window⟩⟩

/-- The buffers so far, none of them from before where the last one ended. -/
structure Heard (ring : ShmAudioBuffer) (f : ℕ) (pushes : List (List UInt8)) (plays : List Play)
    (m : Memory) : Prop where
  fetched : ∀ play ∈ plays, ∃ before, before <+: pushes ∧ Fetched ring f before play
  order : plays.Pairwise fun a b => a.head + a.live ≤ b.head
  behind : ∀ play ∈ plays, play.head + play.live ≤ word ring .head m

variable {r : Run} {fmt : AudioFormat} {f i j t n avail : ℕ} {play : Play}
  {st : PlaybackState} {slice out : List UInt8} {ring : ShmAudioBuffer}
  {pushes packets : List (List UInt8)}

/-- No buffer reaches over the cut of a packet. -/
theorem sound_fetched (h : Fetched ring f pushes play) (hmore : pushes <+: packets)
    (hcap : f ∣ ring.cap) (hsrc : ∀ src ∈ packets, f ∣ src.length) :
    Sound f packets (place ring packets play.head) play := by
  obtain ⟨more, rfl⟩ := hmore
  have hinside := h.inside
  have hfits : play.head + play.live ≤ (stream ring (pushes ++ more)).length :=
    hinside.trans (stream_mono (List.prefix_append _ _)).length_le
  refine ⟨h.window, h.live, ⟨place_whole hcap hsrc h.whole.1, h.whole.2⟩, place_inside hfits, ?_⟩
  have hbytes : ((stream ring pushes).drop play.head).take play.live =
      ((pushes ++ more).flatten.drop (place ring (pushes ++ more) play.head)).take play.live := by
    rcases Nat.eq_zero_or_pos play.live with hnone | hsome
    · rw [hnone, List.take_zero, List.take_zero]
    have hplace : place ring pushes play.head + play.live ≤ pushes.flatten.length :=
      place_inside hinside
    rw [place_append (by omega), drop_stream h.unlapped (by omega), List.flatten_append,
      List.drop_append_of_le_length (by omega),
      List.take_append_of_le_length (by rw [List.length_drop]; omega)]
  rw [h.data, hbytes]

theorem consume_reading (he : r.over.event t = .consume)
    (hp : (r.state t).player.prog = .ret (.reading st slice avail))
    (hsame : r.plays (t + 1) = r.plays t) : ¬ Idle (r.over.state (t + 1)) := by
  have hstate : r.state (t + 1) = next r.cfg r.ring (r.event t) (r.state t) := rfl
  have hringCall : ∀ op, ringCall op ≠ .consume := fun op => by cases op <;> nofun
  have hhost : r.event t = .host := by
    simp only [Run.over] at he
    cases hevent : r.event t with
    | capture reply =>
      simp only [hevent, State.ringEvent] at he
      split at he
      · exact absurd he (hringCall _)
      · cases he
    | host => rfl
    | process buffer =>
      simp only [hevent, State.ringEvent, State.stay, hp] at he
      cases he
    | print =>
      simp only [hevent, State.ringEvent, State.stay, hp] at he
      cases he
  rw [over_state]
  have hstays : (r.state (t + 1)).player.prog = .ret (.reading st slice avail) := by
    rw [Run.plays, Run.plays, hstate, hhost] at hsame
    rw [hstate, hhost]
    simp only [next, State.host, hp] at hsame ⊢
    split at hsame
    next => simp only [hp]
    next live out hsome => exact absurd hsame (by simp)
  exact reading_active ((attuned_run r (t + 1)).reading st slice avail hstays)

theorem head_still (hgrid : OnGrid r.over f)
    (hbytes : (stream r.ring (begun r.over (t + 1))).length < 2 ^ 64)
    (hsame : r.plays (t + 1) = r.plays t) :
    word r.ring .head (r.mem (t + 1)) = word r.ring .head (r.mem t) := by
  have hmem : ∀ u, r.mem u = r.over.mem u := fun u => (congrArg _ (over_state r u)).symm
  have hover : r.over.state (t + 1) =
      AudioTearFreedom.next r.ring (r.over.event t) (r.over.state t) := rfl
  have hquiet : r.over.mem (t + 1) = r.over.mem t →
      word r.ring .head (r.mem (t + 1)) = word r.ring .head (r.mem t) := by
    intro h
    rw [hmem, hmem, h]
  cases he : r.over.event t with
  | push src => exact hquiet (by rw [AudioTearFreedom.Run.mem, hover, he]; rfl)
  | setFormat fmt => exact hquiet (by rw [AudioTearFreedom.Run.mem, hover, he]; rfl)
  | read out maxLatency => exact hquiet (by rw [AudioTearFreedom.Run.mem, hover, he]; rfl)
  | produce =>
    rw [hmem, hmem]
    exact (tailed_produce (tailed hgrid t) he).2.head
  | consume =>
    by_cases hreading : ∃ st slice avail, (r.state t).player.prog = .ret (.reading st slice avail)
    · obtain ⟨st, slice, avail, hp⟩ := hreading
      obtain ⟨i, hit, hbegins, hidle, hinside⟩ := reading_since hp
      have hactive := consume_reading he hp hsame
      have hmore : (stream r.ring (begun r.over t)).length ≤
          (stream r.ring (begun r.over (t + 1))).length :=
        (stream_mono (begun_mono (Nat.le_succ t))).length_le
      have hbefore := head_inside hgrid (hmore.trans_lt hbytes) hbegins hidle hit hinside
      have hafter := head_inside hgrid hbytes hbegins hidle (Nat.lt_succ_of_lt hit) fun k hik hkt =>
        if h : k ≤ t then hinside k hik h else (show k = t + 1 by omega) ▸ hactive
      rw [hmem, hmem]
      exact hafter.trans hbefore.symm
    · push Not at hreading
      obtain ⟨last, hlast⟩ := (attuned_run r t).idle hreading
      have hrest : (r.over.state t).consumer = .rest (.idle last) := by
        rw [over_state]
        exact hlast
      apply hquiet
      rw [AudioTearFreedom.Run.mem, hover, he, consume_rest hrest]
      rfl

/-- The read that has just ended: what it returned becomes a buffer of the list. -/
theorem fetched_played (hgrid : OnGrid r.over f) (hpushes : (begun r.over (t + 1)).length < 2 ^ 63)
    (hbytes : (stream r.ring (begun r.over (t + 1))).length < 2 ^ 64) (hstride : st.stride = f)
    (hp : (r.state t).player.prog = .ret (.reading st slice avail))
    (hend : (r.state (t + 1)).ring.consumer.prog = .ret (.idle (some (n, out)))) :
    (∃ before, before <+: begun r.over (t + 1) ∧ Fetched r.ring f before
        (played st slice avail n out (word r.ring .head (r.mem (t + 1))))) ∧
      word r.ring .head (r.mem t) ≤
        (played st slice avail n out (word r.ring .head (r.mem (t + 1)))).head ∧
      n ≤ word r.ring .head (r.mem (t + 1)) := by
  obtain ⟨i, hit, hbegins, hidle, hinside⟩ := reading_since hp
  have hmem : ∀ u, r.mem u = r.over.mem u := fun u => (congrArg _ (over_state r u)).symm
  have hreturns : r.over.Returns i (slice.take (window st slice)) (budget st slice) (t + 1) n out :=
    ⟨hbegins, hidle, by omega, fun k hik hkt => hinside k hik (by omega),
      by rw [over_state]; exact hend⟩
  obtain ⟨k, head, _, hk, hforward, hhead, hgridded, hwhole, hfits, hlap, hlive, hout⟩ :=
    returned_whole hgrid hpushes hbytes hreturns
  have hmore : (stream r.ring (begun r.over t)).length ≤
      (stream r.ring (begun r.over (t + 1))).length :=
    (stream_mono (begun_mono (Nat.le_succ t))).length_le
  have hbefore := head_inside hgrid (hmore.trans_lt hbytes) hbegins hidle hit hinside
  have hwindow : (slice.take (window st slice)).length = window st slice := by
    rw [List.length_take]
    exact Nat.min_eq_left (Nat.div_mul_le_self _ _)
  rw [hwindow] at hlive hout
  have hafter : word r.ring .head (r.mem (t + 1)) = head + n := by
    rw [hmem]
    exact hhead
  have hstart : (played st slice avail n out (word r.ring .head (r.mem (t + 1)))).head = head := by
    change word r.ring .head (r.mem (t + 1)) - n = head
    rw [hafter, Nat.add_sub_cancel]
  have hhanded : r.over.pushed k <+: begun r.over (t + 1) :=
    (pushed_begun r.over k).trans (begun_mono hk.le)
  have hfetched : Fetched r.ring f (r.over.pushed k)
      (played st slice avail n out (word r.ring .head (r.mem (t + 1)))) := by
    refine ⟨hstride ▸ rfl, hlive, ⟨hstart ▸ hgridded, hwhole⟩, hstart ▸ hfits, hstart ▸ hlap, ?_⟩
    rw [hstart, ← hstride]
    change (⟨some (out ++ _), _⟩ : Data) = _
    rw [hout]
    rfl
  refine ⟨⟨_, hhanded, hfetched⟩, ?_, by omega⟩
  rw [hstart, hmem]
  exact hbefore.trans_le hforward

theorem heard_next (hfmt : (r.device j).published = some fmt)
    (hsize : fmt.frameBytes.toNat ∈ [2, 4, 8]) (hgrid : OnGrid r.over fmt.frameBytes.toNat)
    (hpushes : (begun r.over (t + 1)).length < 2 ^ 63)
    (hbytes : (stream r.ring (begun r.over (t + 1))).length < 2 ^ 64)
    (h : Heard r.ring fmt.frameBytes.toNat (begun r.over t) (r.plays t) (r.mem t)) :
    Heard r.ring fmt.frameBytes.toNat (begun r.over (t + 1)) (r.plays (t + 1))
      (r.mem (t + 1)) := by
  have hmore : begun r.over t <+: begun r.over (t + 1) := begun_mono (Nat.le_succ t)
  have hold : ∀ play ∈ r.plays t, ∃ before, before <+: begun r.over (t + 1) ∧
      Fetched r.ring fmt.frameBytes.toNat before play := by
    intro play hplay
    obtain ⟨before, hbefore, hfetched⟩ := h.fetched play hplay
    exact ⟨before, hbefore.trans hmore, hfetched⟩
  rcases plays_next r t with hsame | ⟨st, slice, avail, live, out, _, hp, hend, hplays⟩
  · have hhead := head_still hgrid hbytes hsame
    rw [hsame]
    exact ⟨hold, h.order, fun play hplay => hhead ▸ h.behind play hplay⟩
  · obtain ⟨fmt', hfmt', htuned⟩ := player_tuned r t hp rfl
    obtain rfl := published_unique hfmt hfmt'
    have hne : fmt.frameBytes ≠ 0 := by
      rintro hz
      simp [hz] at hsize
    obtain ⟨hfetched, hforward, hlive⟩ :=
      fetched_played hgrid hpushes hbytes (htuned hne).1.stride hp hend
    have hhead : (played st slice avail live out (word r.ring .head (r.mem (t + 1)))).head + live =
        word r.ring .head (r.mem (t + 1)) := Nat.sub_add_cancel hlive
    rw [hplays]
    constructor
    · intro play hplay
      rcases List.mem_append.mp hplay with hearlier | hlast
      · exact hold play hearlier
      · obtain rfl := List.mem_singleton.mp hlast
        exact hfetched
    · rw [List.pairwise_append]
      refine ⟨h.order, List.pairwise_singleton _ _, fun a ha b hb => ?_⟩
      obtain rfl := List.mem_singleton.mp hb
      exact (h.behind a ha).trans hforward
    · intro play hplay
      rcases List.mem_append.mp hplay with hearlier | hlast
      · exact (h.behind play hearlier).trans (by omega)
      · obtain rfl := List.mem_singleton.mp hlast
        exact hhead.le

theorem heard_run (hcap : 8 ≤ r.ring.cap) (hfmt : (r.device j).published = some fmt)
    (hsize : fmt.frameBytes.toNat ∈ [2, 4, 8]) (hpushes : (begun r.over t).length < 2 ^ 63)
    (hbytes : (stream r.ring (begun r.over t)).length < 2 ^ 64) :
    Heard r.ring fmt.frameBytes.toNat (begun r.over t) (r.plays t) (r.mem t) := by
  have hgrid := onGrid_run hcap hfmt hsize
  induction t with
  | zero => exact ⟨nofun, List.Pairwise.nil, nofun⟩
  | succ t ih =>
    have hmore : begun r.over t <+: begun r.over (t + 1) := begun_mono (Nat.le_succ t)
    exact heard_next hfmt hsize hgrid hpushes hbytes
      (ih (hmore.length_le.trans_lt hpushes) ((stream_mono hmore).length_le.trans_lt hbytes))

def handed (r : Run) (fmt : AudioFormat) (t : ℕ) : List (List UInt8) :=
  (r.device t).taken.map (·.payload fmt)

theorem plays_published (h : r.plays t ≠ []) : ∃ fmt, (r.device t).published = some fmt := by
  induction t with
  | zero => exact absurd rfl h
  | succ t ih =>
    rcases plays_next r t with hsame | ⟨st, slice, avail, live, out, _, hreading, _, _⟩
    · obtain ⟨fmt, hfmt⟩ := ih (hsame ▸ h)
      exact ⟨fmt, published_stays hfmt (Nat.le_succ t)⟩
    · obtain ⟨fmt, hfmt, _⟩ := player_tuned r t hreading rfl
      exact ⟨fmt, published_stays hfmt (Nat.le_succ t)⟩

/-- In every run of capture thread, ring and player, whatever the device and the server do:
what has been played are whole frames of the packets' own bytes, contiguous as the device handed
them over, in that order, none twice, and silence where there were too few. -/
theorem played_stream (r : Run) (t : ℕ)
    (hp : r.cfg.endpoint.platform.subtypePcm ≠ r.cfg.endpoint.platform.subtypeIeeeFloat)
    (hcap : 8 ≤ r.ring.cap) :
    ((r.device t).published = none → r.plays t = []) ∧
    ∀ fmt, (r.device t).published = some fmt → (handed r fmt t).length < 2 ^ 63 →
      (stream r.ring (handed r fmt t)).length < 2 ^ 64 →
      (∀ play ∈ r.plays t, Sound fmt.frameBytes.toNat (handed r fmt t)
        (place r.ring (handed r fmt t) play.head) play) ∧
      (r.plays t).Pairwise fun a b =>
        place r.ring (handed r fmt t) a.head + a.live ≤ place r.ring (handed r fmt t) b.head := by
  refine ⟨fun hnone => ?_, fun fmt hfmt hpushes hbytes => ?_⟩
  · by_contra hplays
    obtain ⟨fmt, hfmt⟩ := plays_published hplays
    rw [hnone] at hfmt
    cases hfmt
  have hbooked := (capturing_run r t).booked
  obtain ⟨_, _, _, _, _, _, _, _, hsize⟩ := booked_format hbooked hp hfmt
  have hhanded : begun r.over t <+: handed r fmt t := by
    rw [begun_run]
    exact ⟨_, (hbooked.pushed fmt hfmt).symm⟩
  have hstream : stream r.ring (begun r.over t) <+: stream r.ring (handed r fmt t) :=
    stream_mono hhanded
  have hheard := heard_run hcap hfmt hsize (hhanded.length_le.trans_lt hpushes)
    (hstream.length_le.trans_lt hbytes)
  have hframes : ∀ src ∈ handed r fmt t, fmt.frameBytes.toNat ∣ src.length := by
    intro src hsrc
    obtain ⟨packet, _, rfl⟩ := List.mem_map.mp hsrc
    rw [payload_length]
    exact Nat.dvd_mul_left _ _
  refine ⟨fun play hplay => ?_, hheard.order.imp fun {a b} hab => ?_⟩
  · obtain ⟨before, hbefore, hfetched⟩ := hheard.fetched play hplay
    exact sound_fetched hfetched (hbefore.trans hhanded) (frame_dvd_cap hcap hsize) hframes
  · obtain ⟨d, hd⟩ := Nat.exists_eq_add_of_le hab
    calc place r.ring (handed r fmt t) a.head + a.live
        ≤ place r.ring (handed r fmt t) (a.head + a.live) := place_add _ _ _
      _ ≤ place r.ring (handed r fmt t) (a.head + a.live) + d := Nat.le_add_right _ _
      _ ≤ place r.ring (handed r fmt t) b.head := hd ▸ place_add _ _ _

/-- The first packet is longer than the ring, the others are one frame each. -/
def packetAt (t : ℕ) : (op : CaptureOp) → op.Reply
  | .request .getBuffer =>
    .ok (if t < 35 then ⟨fun i => .ofNat (i + 1), 3, 0⟩ else ⟨fun _ => .ofNat t, 1, 0⟩ : Packet)
  | op => obliging op

/-- Buffers of one frame each: two of them fall into the rest of the first packet. -/
def drainedRun : Run :=
  { shortRun with
    event := fun t =>
      if t ∈ [60, 90, 130] then .process (some ⟨some (List.replicate 5 7), ⟨0, 0, 0⟩⟩)
      else if t < 40 ∨ (110 < t ∧ t < 122) then .capture (packetAt t)
      else .host }

theorem played_stream_drained :
    handed drainedRun ⟨48000, 2, .s16Le, 4⟩ 146 =
      [[1, 2, 3, 4, 5, 6, 7, 8, 9, 10, 11, 12], [38, 38, 38, 38]] ∧
    ((drainedRun.plays 146).map fun play =>
      place drainedRun.ring (handed drainedRun ⟨48000, 2, .s16Le, 4⟩ 146) play.head) = [4, 8, 12] ∧
    (∀ play ∈ drainedRun.plays 146, Sound 4 (handed drainedRun ⟨48000, 2, .s16Le, 4⟩ 146)
      (place drainedRun.ring (handed drainedRun ⟨48000, 2, .s16Le, 4⟩ 146) play.head) play) ∧
    (drainedRun.plays 146).Pairwise fun a b =>
      place drainedRun.ring (handed drainedRun ⟨48000, 2, .s16Le, 4⟩ 146) a.head + a.live ≤
        place drainedRun.ring (handed drainedRun ⟨48000, 2, .s16Le, 4⟩ 146) b.head := by
  have hfmt : (drainedRun.device 146).published = some ⟨48000, 2, .s16Le, 4⟩ := by
    decide +kernel
  obtain ⟨_, hsound⟩ := played_stream drainedRun 146 (by decide) (by decide)
  exact ⟨by decide +kernel, by decide +kernel,
    hsound _ hfmt (by decide +kernel) (by decide +kernel)⟩

end Plays

end PlayedStream
