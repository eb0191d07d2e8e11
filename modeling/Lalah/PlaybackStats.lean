import Lalah.AudioPipeline

/-! The two counters that the callback shares with the statistics thread: what they count, and
that what the thread prints adds up to what they had counted, nothing twice and nothing lost. -/
namespace PlaybackStats

open InteractionProgram ByteMemory ShmContract PlaybackDiagnosis AudioPipeline
open AudioTearFreedom hiding State Event Run next

section Counters

/-- Buffers that did not get their whole window. -/
def shortfalls (plays : List Play) : ℕ := plays.countP fun play => play.live < play.window

/-- Buffers whose callback found more than its budget. -/
def overruns (plays : List Play) : ℕ := plays.countP fun play => play.budget < play.avail

/-- The callback in progress counts its own overflow before its read. -/
def pending : Player → ℕ
  | .sampled st slice avail | .reading st slice avail => if avail > budget st slice then 1 else 0
  | _ => 0

variable (cfg : Config) (ring : ShmAudioBuffer)

def Yields : Player → Player → Prop
  | .waiting, c => c = .waiting ∨ ∃ fmt, c = .resting (cfg.playback ring fmt)
  | .resting st, c => ∃ slice avail, c = .sampled (counted st slice avail) slice avail
  | _, _ => False

/-- The counters hold the numbers of such buffers, in words of 64 bits. -/
structure Tallied (s : AudioPipeline.State) : Prop where
  rest : ∀ c, s.player.prog = .ret c → s.player = .rest c
  busy : s.player.Busy →
    s.player.prog.Ensures (fun _ _ => True) (fun _ => True) (Yields cfg ring s.player.ctl)
  idle : s.player.ctl = .waiting → s.plays = []
  counts : ∀ st, s.player.ctl.shared = some st →
    st.underflows = .ofNat (shortfalls s.plays) ∧
      st.overflows = .ofNat (overruns s.plays + pending s.player.ctl)

variable {cfg ring} {s : AudioPipeline.State} {st : PlaybackState} {slice : List UInt8}
  {avail live : ℕ}

theorem budget_counted : budget (counted st slice avail) slice = budget st slice := by
  unfold counted
  split <;> rfl

theorem counted_counters : (counted st slice avail).underflows = st.underflows ∧
    (counted st slice avail).overflows =
      st.overflows + .ofNat (if avail > budget st slice then 1 else 0) := by
  unfold counted
  split
  · exact ⟨rfl, rfl⟩
  · refine ⟨rfl, ?_⟩
    simp

theorem finished_counters : (finished st slice live).overflows = st.overflows ∧
    (finished st slice live).underflows =
      st.underflows + .ofNat (if live < window st slice then 1 else 0) := by
  unfold finished
  split
  · exact ⟨rfl, rfl⟩
  · refine ⟨rfl, ?_⟩
    simp

theorem shortfalls_snoc (plays : List Play) (play : Play) : shortfalls (plays ++ [play]) =
    shortfalls plays + if play.live < play.window then 1 else 0 := by
  simp [shortfalls, List.countP_append, List.countP_singleton]

theorem overruns_snoc (plays : List Play) (play : Play) : overruns (plays ++ [play]) =
    overruns plays + if play.budget < play.avail then 1 else 0 := by
  simp [overruns, List.countP_append, List.countP_singleton]

theorem yields_poll : (poll cfg ring).Ensures (fun _ _ => True) (fun _ => True)
    (Yields cfg ring .waiting) := by
  have hformat : ring.format.Every (fun _ _ => True) fun _ => True :=
    every_mono storesOnly_format fun _ _ => trivial
  apply ensures_bind (every_iff_ensures.mp hformat)
  intro fmt _
  cases fmt with
  | none => exact Or.inl rfl
  | some fmt => exact Or.inr ⟨fmt, rfl⟩

theorem yields_sample : (sample st slice).Ensures (fun _ _ => True) (fun _ => True)
    (Yields cfg ring (.resting st)) :=
  ⟨trivial, fun _ _ => ⟨trivial, fun _ _ => ⟨slice, _, rfl⟩⟩⟩

theorem tallied_busy (hbusy : s.player.Busy)
    (hyields : s.player.prog.Ensures (fun _ _ => True) (fun _ => True)
      (Yields cfg ring s.player.ctl)) (hidle : s.player.ctl = .waiting → s.plays = [])
    (hcounts : ∀ st, s.player.ctl.shared = some st →
      st.underflows = .ofNat (shortfalls s.plays) ∧
        st.overflows = .ofNat (overruns s.plays + pending s.player.ctl)) : Tallied cfg ring s :=
  ⟨fun _ hc => absurd hbusy (not_busy hc), fun _ => hyields, hidle, hcounts⟩

theorem tallied_rest {c : Player} (hplayer : s.player = .rest c)
    (hidle : c = .waiting → s.plays = [])
    (hcounts : ∀ st, c.shared = some st → st.underflows = .ofNat (shortfalls s.plays) ∧
      st.overflows = .ofNat (overruns s.plays + pending c)) : Tallied cfg ring s := by
  have hprog : s.player.prog = .ret c := hplayer ▸ rfl
  have hctl : s.player.ctl = c := hplayer ▸ rfl
  constructor
  · intro c' hc
    rw [hplayer, Prog.ret.inj (hprog.symm.trans hc)]
  · exact fun hb => absurd hb (not_busy hprog)
  · rw [hctl]
    exact hidle
  · rw [hctl]
    exact hcounts

theorem tallied_yield {c c' : Player} (hplayer : s.player = .rest c')
    (hyields : Yields cfg ring c c') (hidle : c = .waiting → s.plays = [])
    (hcounts : ∀ st, c.shared = some st → st.underflows = .ofNat (shortfalls s.plays) ∧
      st.overflows = .ofNat (overruns s.plays + pending c)) : Tallied cfg ring s := by
  cases c with
  | waiting =>
    have hnone : s.plays = [] := hidle rfl
    rcases hyields with rfl | ⟨fmt, rfl⟩
    · exact tallied_rest hplayer hidle hcounts
    apply tallied_rest hplayer
    · intro h
      cases h
    · intro st hst
      obtain rfl := Option.some.inj hst
      rw [hnone]
      exact ⟨rfl, rfl⟩
  | resting st =>
    obtain ⟨slice, avail, rfl⟩ := hyields
    apply tallied_rest hplayer
    · intro h
      cases h
    · intro st' hst'
      obtain rfl := Option.some.inj hst'
      obtain ⟨hunder, hover⟩ := hcounts st rfl
      obtain ⟨hsame, hmore⟩ := @counted_counters st slice avail
      rw [hsame, hmore, hunder, hover]
      simp [pending, budget_counted]
  | sampled st slice avail => exact hyields.elim
  | reading st slice avail => exact hyields.elim

theorem tallied_same {s' : AudioPipeline.State} (h : Tallied cfg ring s)
    (hplayer : s'.player = s.player) (hplays : s'.plays = s.plays) : Tallied cfg ring s' := by
  obtain ⟨hrest, hbusy, hidle, hcounts⟩ := h
  constructor
  · rw [hplayer]
    exact hrest
  · rw [hplayer]
    exact hbusy
  · rw [hplayer, hplays]
    exact hidle
  · rw [hplayer, hplays]
    exact hcounts

theorem tallied_host (h : Tallied cfg ring s) : Tallied cfg ring (s.host cfg ring) := by
  rcases busy_or_rest s.player with ⟨op, k, hp⟩ | ⟨c, hc⟩
  · have hyields := h.busy ⟨op, k, hp⟩
    rw [hp] at hyields
    have hnext := hyields.2 (access op s.ring.mem).1 trivial
    simp only [State.host, hp, access_act hp]
    cases hk : k (access op s.ring.mem).1 with
    | act op' k' =>
      rw [hk] at hnext
      exact tallied_busy ⟨op', k', rfl⟩ hnext h.idle h.counts
    | ret c' =>
      rw [hk] at hnext
      exact tallied_yield rfl hnext h.idle h.counts
  have hrest := h.rest c hc
  have hcounts := h.counts
  rw [hrest] at hcounts
  cases c with
  | waiting =>
    simp only [State.host, hc, invoke_rest hc]
    have hidle : s.plays = [] := h.idle (by rw [hrest]; rfl)
    exact tallied_busy ⟨_, _, rfl⟩ yields_poll (fun _ => hidle) hcounts
  | resting st =>
    simp only [State.host, hc]
    exact h
  | sampled st slice avail =>
    simp only [State.host, hc]
    apply tallied_rest rfl
    · intro h
      cases h
    · exact hcounts
  | reading st slice avail =>
    simp only [State.host, hc]
    split
    · exact tallied_same h rfl rfl
    next live out _ =>
      apply tallied_rest rfl
      · intro h
        cases h
      · intro st' hst'
        obtain rfl := Option.some.inj hst'
        obtain ⟨hunder, hover⟩ := hcounts st rfl
        obtain ⟨hsame, hmore⟩ := @finished_counters st slice live
        rw [hsame, hmore, hunder, hover, shortfalls_snoc, overruns_snoc, UInt64.ofNat_add]
        exact ⟨rfl, rfl⟩

theorem tallied_next (h : Tallied cfg ring s) (e : AudioPipeline.Event) :
    Tallied cfg ring (next cfg ring e s) := by
  cases e with
  | capture reply =>
    simp only [next, State.capture]
    split <;> exact tallied_same h rfl rfl
  | host => exact tallied_host h
  | process buffer =>
    simp only [next, State.process]
    split
    next st slice _ hc =>
      have hcounts := h.counts
      rw [h.rest _ hc] at hcounts
      rw [invoke_rest hc]
      apply tallied_busy ⟨_, _, rfl⟩ yields_sample
      · intro h
        cases h
      · exact hcounts
    next => exact h
  | print =>
    simp only [next, State.print]
    split <;> exact tallied_same h rfl rfl

theorem tallied_run (r : Run) (t : ℕ) : Tallied r.cfg r.ring (r.state t) := by
  induction t with
  | zero =>
    exact ⟨fun c hc => by rw [← Prog.ret.inj hc]; rfl, fun hb => absurd hb (not_busy rfl),
      fun _ => rfl, nofun⟩
  | succ t ih => exact tallied_next ih (r.event t)

end Counters

section Growth

variable {cfg : Config} {ring : ShmAudioBuffer} {s : AudioPipeline.State} {r : Run} {t u : ℕ}

def underflowed (s : AudioPipeline.State) : ℕ := shortfalls s.plays

def overflowed (s : AudioPipeline.State) : ℕ := overruns s.plays + pending s.player.ctl

theorem pending_le (c : Player) : pending c ≤ 1 := by
  unfold pending
  split
  · split <;> omega
  · split <;> omega
  · omega

theorem overflowed_le (s : AudioPipeline.State) : overflowed s ≤ s.plays.length + 1 := by
  have hplays : overruns s.plays ≤ s.plays.length := List.countP_le_length
  have hpending := pending_le s.player.ctl
  unfold overflowed
  omega

theorem counted_next (h : Tallied cfg ring s) (e : AudioPipeline.Event) :
    underflowed s ≤ underflowed (next cfg ring e s) ∧
      overflowed s ≤ overflowed (next cfg ring e s) := by
  cases e with
  | capture reply =>
    simp only [next, State.capture]
    split <;> exact ⟨Nat.le_refl _, Nat.le_refl _⟩
  | host =>
    rcases busy_or_rest s.player with ⟨op, k, hp⟩ | ⟨c, hc⟩
    · have hyields := h.busy ⟨op, k, hp⟩
      rw [hp] at hyields
      have hnext := hyields.2 (access op s.ring.mem).1 trivial
      simp only [next, State.host, hp, access_act hp]
      refine ⟨Nat.le_refl _, Nat.add_le_add_left ?_ _⟩
      cases hk : k (access op s.ring.mem).1 with
      | act op' k' => exact Nat.le_refl _
      | ret c' =>
        rw [hk] at hnext
        cases hctl : s.player.ctl with
        | waiting => exact Nat.zero_le _
        | resting st => exact Nat.zero_le _
        | sampled st slice avail =>
          rw [hctl] at hnext
          exact hnext.elim
        | reading st slice avail =>
          rw [hctl] at hnext
          exact hnext.elim
    have hrest := h.rest c hc
    cases c with
    | waiting =>
      simp only [next, State.host, hc, invoke_rest hc]
      refine ⟨Nat.le_refl _, Nat.add_le_add_left ?_ _⟩
      rw [hrest]
      exact Nat.le_refl _
    | resting st =>
      simp only [next, State.host, hc]
      exact ⟨Nat.le_refl _, Nat.le_refl _⟩
    | sampled st slice avail =>
      simp only [next, State.host, hc]
      refine ⟨Nat.le_refl _, Nat.add_le_add_left ?_ _⟩
      rw [hrest]
      exact Nat.le_refl _
    | reading st slice avail =>
      simp only [next, State.host, hc]
      split
      · exact ⟨Nat.le_refl _, Nat.le_refl _⟩
      next live out _ =>
        simp only [underflowed, overflowed, shortfalls_snoc, overruns_snoc, hrest]
        exact ⟨Nat.le_add_right _ _, Nat.le_refl _⟩
  | process buffer =>
    simp only [next, State.process]
    split
    next st slice _ hc =>
      rw [invoke_rest hc]
      refine ⟨Nat.le_refl _, Nat.add_le_add_left ?_ _⟩
      rw [h.rest _ hc]
      exact Nat.le_refl _
    next => exact ⟨Nat.le_refl _, Nat.le_refl _⟩
  | print =>
    simp only [next, State.print]
    split <;> exact ⟨Nat.le_refl _, Nat.le_refl _⟩

theorem counted_mono (h : t ≤ u) : underflowed (r.state t) ≤ underflowed (r.state u) ∧
    overflowed (r.state t) ≤ overflowed (r.state u) := by
  induction u, h using Nat.le_induction with
  | base => exact ⟨Nat.le_refl _, Nat.le_refl _⟩
  | succ u _ ih =>
    obtain ⟨hunder, hover⟩ := counted_next (tallied_run r u) (r.event u)
    exact ⟨ih.1.trans hunder, ih.2.trans hover⟩

end Growth

section Reports

/-- The instants of the statistics thread's loads: of the underflows in the round in progress,
and of both counters in the last round that is over. -/
structure Rounds where
  begun : Option ℕ
  compared : Option (ℕ × ℕ)
  deriving DecidableEq, Repr

def Rounds.load (t : ℕ) (n : Rounds) : Rounds :=
  match n.begun with
  | none => { n with begun := some t }
  | some u => ⟨none, some (u, t)⟩

def rounds (r : Run) : ℕ → Rounds
  | 0 => ⟨none, none⟩
  | t + 1 =>
    match r.event t, (r.state t).player.ctl.shared with
    | .print, some _ => (rounds r t).load t
    | _, _ => rounds r t

/-- The loads of the last round that is over; before the first one both counters are zero. -/
def Rounds.last (n : Rounds) : ℕ × ℕ := n.compared.getD (0, 0)

variable {r : Run} {t u v : ℕ} {s : Stats} {n : Rounds} {count : ℕ → ℕ}

/-- The differences of a counter that were printed add up to what the counter held at an
instant `u`, and that value is what the thread keeps for its next round. -/
structure Printed (count : ℕ → ℕ) (u : ℕ) (kept : UInt64) (differences : List UInt64) : Prop where
  kept : kept = .ofNat (count u)
  total : (differences.map UInt64.toNat).sum = count u

theorem difference {a b : ℕ} (hab : a ≤ b) (hb : b < 2 ^ 64) :
    (UInt64.ofNat b - UInt64.ofNat a).toNat = b - a := by
  have ha : (UInt64.ofNat a).toNat = a := UInt64.toNat_ofNat_of_lt (Nat.lt_of_le_of_lt hab hb)
  have hb' : (UInt64.ofNat b).toNat = b := UInt64.toNat_ofNat_of_lt hb
  rw [UInt64.toNat_sub_of_le, ha, hb']
  rw [UInt64.le_iff_toNat_le, ha, hb']
  exact hab

theorem printed_snoc {kept : UInt64} {differences : List UInt64} (hmono : count u ≤ count v)
    (hfits : count v < 2 ^ 64) (h : Printed count u kept differences) :
    Printed count v (.ofNat (count v)) (differences ++ [.ofNat (count v) - kept]) := by
  refine ⟨rfl, ?_⟩
  rw [List.map_append, List.sum_append, h.total, h.kept, List.map_singleton, List.sum_singleton,
    difference hmono hfits]
  omega

theorem printed_same {kept : UInt64} {differences : List UInt64} (hfits : count u < 2 ^ 64)
    (hfits' : count v < 2 ^ 64) (h : Printed count u kept differences)
    (hsame : UInt64.ofNat (count v) = kept) : Printed count v kept differences := by
  have hcount : count v = count u := by
    have hv : (UInt64.ofNat (count v)).toNat = count v := UInt64.toNat_ofNat_of_lt hfits'
    have hu : (UInt64.ofNat (count u)).toNat = count u := UInt64.toNat_ofNat_of_lt hfits
    rw [← hv, ← hu, hsame.trans h.kept]
  exact ⟨hsame.symm, h.total.trans hcount.symm⟩

variable (few many : ℕ → ℕ)

/-- The statistics thread at an instant: what it has printed is what the loads of the last
finished round found, and it holds the first load of the round in progress. -/
structure Reported (t : ℕ) (n : Rounds) (s : Stats) : Prop where
  loaded : s.loaded = n.begun.map fun w => .ofNat (few w)
  begun : ∀ w, n.begun = some w → n.last.1 ≤ w ∧ w < t
  compared : ∀ u v, n.compared = some (u, v) → u < v ∧ v < t
  silent : n.compared = none → s.reports = []
  changes : ∀ d ∈ s.reports, d ≠ (0, 0)
  underflows : Printed few n.last.1 s.lastUnderflows (s.reports.map Prod.fst)
  overflows : Printed many n.last.2 s.lastOverflows (s.reports.map Prod.snd)

variable {few many}

theorem Reported.mono (h : Reported few many t n s) (htu : t ≤ u) : Reported few many u n s := by
  obtain ⟨hloaded, hbegun, hcompared, hsilent, hchanges, hunder, hover⟩ := h
  exact ⟨hloaded, fun w hw => ⟨(hbegun w hw).1, (hbegun w hw).2.trans_le htu⟩,
    fun v w hvw => ⟨(hcompared v w hvw).1, (hcompared v w hvw).2.trans_le htu⟩, hsilent, hchanges,
    hunder, hover⟩

theorem Reported.last_le (h : Reported few many t n s) : n.last.1 ≤ t ∧ n.last.2 ≤ t := by
  unfold Rounds.last
  cases hcompared : n.compared with
  | none => exact ⟨Nat.zero_le t, Nat.zero_le t⟩
  | some uv =>
    obtain ⟨hlt, hbefore⟩ := h.compared uv.1 uv.2 hcompared
    exact ⟨(hlt.trans hbefore).le, hbefore.le⟩

theorem sub_zero_iff {a b : UInt64} : a - b = 0 ↔ a = b := by
  constructor
  · intro h
    rw [← UInt64.sub_add_cancel a b, h, UInt64.zero_add]
  · rintro rfl
    exact UInt64.sub_self a

theorem reported_print (hunder : ∀ a b, a ≤ b → few a ≤ few b)
    (hover : ∀ a b, a ≤ b → many a ≤ many b) (hfits : few t < 2 ^ 64 ∧ many t < 2 ^ 64)
    (h : Reported few many t n s) : Reported few many (t + 1) (n.load t)
      (s.print (.ofNat (few t)) (.ofNat (many t))) := by
  obtain ⟨hlast, hlast'⟩ := h.last_le
  obtain ⟨hloaded, hbegun, hcompared, hsilent, hchanges, hprinted, hprinted'⟩ := h
  cases hb : n.begun with
  | none =>
    rw [hb] at hloaded
    have hfirst : s.loaded = none := hloaded
    simp only [Stats.print, Rounds.load, hb, hfirst]
    refine ⟨rfl, ?_, ?_, hsilent, hchanges, hprinted, hprinted'⟩
    · rintro w hw
      obtain rfl := Option.some.inj hw
      exact ⟨hlast, Nat.lt_succ_self t⟩
    · intro u v huv
      exact ⟨(hcompared u v huv).1, (hcompared u v huv).2.trans (Nat.lt_succ_self t)⟩
  | some w =>
    rw [hb] at hloaded
    have hsecond : s.loaded = some (.ofNat (few w)) := hloaded
    obtain ⟨hlw, hwt⟩ := hbegun w hb
    have hrest : ∀ u v, some (w, t) = some (u, v) → u < v ∧ v < t + 1 := by
      intro u v huv
      obtain ⟨rfl, rfl⟩ := Prod.mk.inj (Option.some.inj huv)
      exact ⟨hwt, Nat.lt_succ_self _⟩
    have hfew : few w < 2 ^ 64 := (hunder w t hwt.le).trans_lt hfits.1
    simp only [Stats.print, Rounds.load, hb, hsecond]
    split
    next hchanged =>
      refine ⟨rfl, nofun, hrest, nofun, ?_, ?_, ?_⟩
      · intro d hd
        rcases List.mem_append.mp hd with hold | hnew
        · exact hchanges d hold
        obtain rfl := List.mem_singleton.mp hnew
        intro hzero
        obtain ⟨hzero₁, hzero₂⟩ := Prod.mk.inj hzero
        rw [sub_zero_iff] at hzero₁ hzero₂
        exact hchanged.elim (absurd hzero₁) (absurd hzero₂)
      · rw [List.map_append]
        exact printed_snoc (hunder _ w hlw) hfew hprinted
      · rw [List.map_append]
        exact printed_snoc (hover _ t hlast') hfits.2 hprinted'
    next hsame =>
      push Not at hsame
      refine ⟨rfl, nofun, hrest, nofun, hchanges, ?_, ?_⟩
      · exact printed_same ((hunder _ w hlw).trans_lt hfew) hfew hprinted hsame.1
      · exact printed_same ((hover _ t hlast').trans_lt hfits.2) hfits.2 hprinted' hsame.2

theorem stats_other (e : AudioPipeline.Event) (h : e ≠ .print) (st : AudioPipeline.State) :
    (next r.cfg r.ring e st).stats = st.stats := by
  cases e with
  | capture reply =>
    simp only [next, State.capture]
    split <;> rfl
  | host =>
    simp only [next, State.host]
    split
    case h_5 => split <;> rfl
    all_goals rfl
  | process buffer =>
    simp only [next, State.process]
    split <;> rfl
  | print => exact absurd rfl h

theorem counted_fits (hfew : (r.plays t).length + 1 < 2 ^ 64) :
    underflowed (r.state t) < 2 ^ 64 ∧ overflowed (r.state t) < 2 ^ 64 := by
  have hunder : underflowed (r.state t) ≤ (r.plays t).length := List.countP_le_length
  have hover : overflowed (r.state t) ≤ (r.plays t).length + 1 := overflowed_le (r.state t)
  exact ⟨by omega, by omega⟩

theorem reported_run (r : Run) (t : ℕ)
    (hfits : underflowed (r.state t) < 2 ^ 64 ∧ overflowed (r.state t) < 2 ^ 64) :
    Reported (fun u => underflowed (r.state u)) (fun u => overflowed (r.state u)) t (rounds r t)
      (r.state t).stats := by
  induction t with
  | zero => exact ⟨rfl, nofun, nofun, fun _ => rfl, nofun, ⟨rfl, rfl⟩, ⟨rfl, rfl⟩⟩
  | succ t ih =>
    have hstate : r.state (t + 1) = next r.cfg r.ring (r.event t) (r.state t) := rfl
    obtain ⟨hunder, hover⟩ := @counted_mono r t (t + 1) (Nat.le_succ t)
    have hbefore := ih ⟨hunder.trans_lt hfits.1, hover.trans_lt hfits.2⟩
    by_cases hprint : r.event t = .print
    · cases hshared : (r.state t).player.ctl.shared with
      | none =>
        have hsame : (r.state (t + 1)).stats = (r.state t).stats := by
          simp only [hstate, hprint, next, State.print, hshared]
        have hrounds : rounds r (t + 1) = rounds r t := by
          simp only [rounds, hprint, hshared]
        rw [hsame, hrounds]
        exact hbefore.mono (Nat.le_succ t)
      | some st =>
        obtain ⟨hunderflows, hoverflows⟩ := (tallied_run r t).counts st hshared
        have hloads : (r.state (t + 1)).stats = (r.state t).stats.print
            (.ofNat (underflowed (r.state t))) (.ofNat (overflowed (r.state t))) := by
          simp only [hstate, hprint, next, State.print, hshared, hunderflows, hoverflows]
          rfl
        have hrounds : rounds r (t + 1) = (rounds r t).load t := by
          simp only [rounds, hprint, hshared]
        rw [hloads, hrounds]
        exact reported_print (fun a b hab => (@counted_mono r a b hab).1)
          (fun a b hab => (@counted_mono r a b hab).2)
          ⟨hunder.trans_lt hfits.1, hover.trans_lt hfits.2⟩ hbefore
    · have hrounds : rounds r (t + 1) = rounds r t := by
        cases he : r.event t with
        | print => exact absurd he hprint
        | _ => simp only [rounds, he]
      rw [hrounds, hstate, stats_other _ hprint]
      exact hbefore.mono (Nat.le_succ t)

/-- In every run: the counters hold the numbers of the buffers that came short and of the
callbacks that found too much, and what the statistics thread has printed of either adds up to
what its loads in the last finished round found. So nothing is reported twice, made up, or lost
between two rounds. -/
theorem reports_exact (r : Run) (t : ℕ) (hfew : (r.plays t).length + 1 < 2 ^ 64) :
    (∀ st, (r.state t).player.ctl.shared = some st →
      st.underflows.toNat = underflowed (r.state t) ∧
        st.overflows.toNat = overflowed (r.state t)) ∧
    (∀ d ∈ (r.state t).stats.reports, d ≠ (0, 0)) ∧
    ((rounds r t).compared = none → (r.state t).stats.reports = []) ∧
    ∀ u v, (rounds r t).compared = some (u, v) → u < v ∧ v < t ∧
      ((r.state t).stats.reports.map fun d => d.1.toNat).sum = underflowed (r.state u) ∧
      ((r.state t).stats.reports.map fun d => d.2.toNat).sum = overflowed (r.state v) := by
  have hfits := counted_fits hfew
  obtain ⟨_, _, hcompared, hsilent, hchanges, hunder, hover⟩ := reported_run r t hfits
  refine ⟨fun st hst => ?_, hchanges, hsilent, fun u v huv => ?_⟩
  · obtain ⟨hunderflows, hoverflows⟩ := (tallied_run r t).counts st hst
    rw [hunderflows, hoverflows]
    exact ⟨UInt64.toNat_ofNat_of_lt hfits.1, UInt64.toNat_ofNat_of_lt hfits.2⟩
  · have hlast : (rounds r t).last = (u, v) := by
      rw [Rounds.last, huv]
      rfl
    obtain ⟨huv, hvt⟩ := hcompared u v huv
    have htotal := hunder.total
    have htotal' := hover.total
    rw [hlast, List.map_map] at htotal htotal'
    exact ⟨huv, hvt, htotal, htotal'⟩

/-- A buffer that leaves three of four packets waiting, and two that come short; the statistics
thread loads among them. -/
def printedRun : Run :=
  { shortRun with
    cfg := { shortRun.cfg with latencyMs := 0 }
    event := fun t =>
      if t < 62 then .capture obliging
      else if t ∈ [110, 130, 170, 171, 172] then .print
      else if 70 ≤ t ∧ t % 20 = 10 then .process (some ⟨some (List.replicate 5 7), ⟨0, 0, 0⟩⟩)
      else .host }

theorem reports_exact_printed : (printedRun.state 190).stats.reports = [(1, 1), (1, 0)] ∧
    ((printedRun.state 190).stats.reports.map fun d => d.1.toNat).sum =
      underflowed (printedRun.state 170) ∧
    ((printedRun.state 190).stats.reports.map fun d => d.2.toNat).sum =
      overflowed (printedRun.state 171) := by
  obtain ⟨_, _, _, hrounds⟩ := reports_exact printedRun 190 (by decide +kernel)
  obtain ⟨_, _, htotals⟩ := hrounds 170 171 (by decide +kernel)
  exact ⟨by decide +kernel, htotals⟩

end Reports

end PlaybackStats
