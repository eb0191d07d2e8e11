import Lalah.RestingRing

/-! Reads among pushes, on a grid of frames. Whatever the producer does meanwhile, a read that
returns has moved the head by whole frames, and what it delivered lies behind all that was
delivered or skipped before it. -/
namespace WholeReads

open InteractionProgram RelyGuarantee ByteMemory StreamWindow ShmContract AudioRing AudioRead
open AudioSession AudioTearFreedom RestingRing

section Call

variable (ring : ShmAudioBuffer) (f start : ℕ)

/-- Inside a call that found the head at `start`. -/
structure Inside (m : Memory) : Prop where
  placed : Placed ring f m
  head : word ring .head m = start

def Called (m : Memory) : Reader → Prop
  | .idle none => True
  | .idle (some (n, _)) => f ∣ n ∧ start + n ≤ word ring .head m
  | .reading l => f ∣ l.frame ∧ word ring .head m = start

variable {ring f start} {c : Reader} {l : ReadLoop} {m m' : Memory}

theorem Inside.later (h : Inside ring f start m) (hs : Later ring f m m') :
    Inside ring f start m' := ⟨h.placed.later hs, hs.head.trans h.head⟩

theorem Called.later (h : Called ring f start m c) (hs : Later ring f m m') :
    Called ring f start m' c := by
  rcases c with (_ | ⟨n, out⟩) | l
  · trivial
  · exact ⟨h.1, hs.head.symm ▸ h.2⟩
  · exact ⟨h.1, hs.head.trans h.2⟩

variable (ring f start) in
def callTerms : Terms Access Memory Reader where
  rely := Later ring f
  allow := fun _ _ _ => True
  guar := fun _ _ => True
  during := fun _ _ => Inside ring f start
  between := fun c m => Placed ring f m ∧ Called ring f start m c
  follows := fun _ _ => True
  rely_refl := later_refl
  rely_trans := fun _ _ _ => Later.trans
  between_stable := fun _ _ _ h hs => ⟨h.1.later hs, h.2.later hs⟩

variable {α : Type} {made : List Access} {Q : α → List Access → Memory → Prop}

theorem lasting_inside : Lasting (callTerms ring f start) c (Inside ring f start) :=
  ⟨fun _ _ h hs => h.later hs, fun _ _ h => h, fun _ => trivial⟩

theorem safe_load_inside {w : ShmField} {k : ℕ → MemProg α} (h : Inside ring f start m)
    (hk : ∀ made m', Later ring f m m' → Inside ring f start m' →
      Safe access (callTerms ring f start) c Q (k (word ring w m')) made m') :
    Safe access (callTerms ring f start) c Q (ring.load w >>= k) made m :=
  safe_look lasting_inside (fun _ => rfl) h hk

theorem aim_whole {tail head pos want : ℕ} (h : l.aim tail head = (pos, want))
    (hframe : f ∣ l.frame) (hle : head ≤ tail) : f ∣ want ∧ head ≤ pos := by
  unfold ReadLoop.aim at h
  obtain ⟨rfl, rfl⟩ := Prod.mk.inj h
  constructor
  · exact Dvd.dvd.mul_left hframe _
  · split_ifs <;> omega

theorem safe_copyOut_inside (pos want tail : ℕ) (h : Inside ring f start m)
    (htail : tail ≤ word ring .tail m) :
    Safe access (callTerms ring f start) c
      (fun _ _ m => Inside ring f start m ∧ tail ≤ word ring .tail m)
      (ring.copyOut (ring.mask pos) want) made m := by
  have hlasting : Lasting (callTerms ring f start) c
      (fun m => Inside ring f start m ∧ tail ≤ word ring .tail m) :=
    ⟨fun _ _ hm hs => ⟨hm.1.later hs, hm.2.trans hs.tail⟩, fun _ _ hm => hm.1, fun _ => trivial⟩
  exact safe_looks hlasting (fun _ _ => trivial) (storesOnly_copyOut _ _).looks ⟨h, htail⟩

theorem called_put {pos want : ℕ} {out : List UInt8} (h : Inside ring f start m)
    (hwant : f ∣ want) (hpos : start ≤ pos) (hgrid : f ∣ pos + want)
    (hbehind : pos + want ≤ word ring .tail m) :
    Placed ring f (shmHeader.put ring.hdr .head (pos + want) m) ∧
      Called ring f start (shmHeader.put ring.hdr .head (pos + want) m)
        (.idle (some (want, out))) := by
  refine ⟨placed_put h.placed hgrid hbehind, hwant, ?_⟩
  have hlt := word_tail_lt ring m
  have hwidth : 256 ^ shmHeader.width .head = 2 ^ 64 := by decide
  rw [word, shmHeader.get_put, hwidth, Nat.mod_eq_of_lt (by omega)]
  omega

theorem safe_pass (h : Inside ring f start m) (hframe : f ∣ l.frame) :
    Safe access (callTerms ring f start) c (Ends (callTerms ring f start) c)
      (readOn ring (.reading l)) made m := by
  have hagain : ∀ {made m} out, Inside ring f start m → Ends (callTerms ring f start) c
      (afterPass (.again { l with out := out })) made m :=
    fun out hm => ⟨⟨hm.placed, hframe, hm.head⟩, trivial⟩
  simp only [readOn, ShmAudioBuffer.readPass, bind_assoc]
  apply safe_load_inside h
  intro _ m₀ _ h₀
  by_cases hodd : word ring .seq m₀ % 2 = 1
  · rw [if_pos hodd]
    exact hagain l.out h₀
  rw [if_neg hodd]
  simp only [bind_assoc]
  apply safe_load_inside h₀
  intro _ m₁ _ h₁
  apply safe_load_inside h₁
  intro _ m₂ hs₂ h₂
  rcases haim : l.aim (word ring .tail m₁) (word ring .head m₂) with ⟨pos, want⟩
  have haimed := (aim_spec haim).2
  have hgrid := aim_grid haim hframe h₁.placed.tail h₂.placed.head
  have hbehind : word ring .head m₂ ≤ word ring .tail m₁ :=
    hs₂.head.trans_le h₁.placed.behind
  obtain ⟨hwant, hpos⟩ := aim_whole haim hframe hbehind
  rw [h₂.head] at hpos
  dsimp only
  refine safe_bind (safe_mono ?_ (safe_copyOut_inside pos want _ h₂ hs₂.tail))
  rintro live made m₃ ⟨h₃, htail₃⟩
  apply safe_load_inside h₃
  intro _ m₄ hs₄ h₄
  apply safe_load_inside h₄
  intro _ m₅ hs₅ h₅
  split
  · exact hagain _ h₅
  apply safe_store
  intro m₆ hs₆
  have h₆ := h₅.later hs₆
  refine ⟨h₆, fun _ => ⟨trivial, ?_, trivial⟩⟩
  apply called_put h₆ hwant hpos hgrid
  calc pos + want ≤ word ring .tail m₁ := haimed
    _ ≤ word ring .tail m₃ := htail₃
    _ ≤ word ring .tail m₄ := hs₄.tail
    _ ≤ word ring .tail m₅ := hs₅.tail
    _ ≤ word ring .tail m₆ := hs₆.tail

theorem safe_begin (out : List UInt8) (maxLatency : ℕ) {last : Option (ℕ × List UInt8)}
    (h : Inside ring f start m) (hframe : f ∣ frameOf ring m) :
    Safe access (callTerms ring f start) c (Ends (callTerms ring f start) c)
      (startRead ring out maxLatency (.idle last)) made m := by
  simp only [startRead, ShmAudioBuffer.readStart, bind_assoc]
  apply safe_load_inside h
  intro _ m' hs h'
  exact ⟨⟨h'.placed, hs.frame hframe, h'.head⟩, trivial⟩

end Call

section Runs

variable {r : Run} {f i j t n maxLatency : ℕ} {out out' : List UInt8}

theorem pushed_busy (h : (r.state (t + 1)).producer.Busy) : r.pushed (t + 1) = r.pushed t := by
  have hstate : r.state (t + 1) = next r.ring (r.event t) (r.state t) := rfl
  have hinvoke : ∀ call, (r.state (t + 1)).producer = (r.state t).producer.invoke call →
      r.pushed (t + 1) = r.pushed t := by
    intro call hproducer
    rw [Run.pushed, hproducer]
    rw [hproducer] at h
    rcases busy_or_rest (r.state t).producer with hb | ⟨c, hc⟩
    · rw [invoke_busy hb, Run.pushed]
    · have hctl : r.pushed t = c := congrArg Party.ctl (holds_ret (invariant_run r t).producer hc).1
      rw [invoke_rest hc] at h ⊢
      exact (settle_ctl h).trans hctl.symm
  cases he : r.event t with
  | push src => exact hinvoke _ (by rw [hstate, he]; rfl)
  | setFormat fmt => exact hinvoke _ (by rw [hstate, he]; rfl)
  | produce =>
    have hproducer : (r.state (t + 1)).producer =
        ((r.state t).producer.access access (r.mem t)).1 := by
      rw [hstate, he]
      rfl
    rw [Run.pushed, hproducer]
    rw [hproducer] at h
    rcases busy_or_rest (r.state t).producer with ⟨op, k, hk⟩ | ⟨c, hc⟩
    · rw [access_act hk] at h ⊢
      exact settle_ctl h
    · rw [access_rest hc, Run.pushed]
  | read out maxLatency => rw [Run.pushed, hstate, he]; rfl
  | consume => rw [Run.pushed, hstate, he]; rfl

theorem pushed_begun (r : Run) (t : ℕ) : r.pushed t <+: begun r t := by
  induction t with
  | zero => exact List.prefix_refl _
  | succ t ih =>
    by_cases hbusy : (r.state (t + 1)).producer.Busy
    · rw [pushed_busy hbusy]
      exact ih.trans (begun_mono (Nat.le_succ t))
    · exact ⟨[], (List.append_nil _).trans (begun_pushed hbusy).symm⟩

theorem rest_reading {c : Reader} (hactive : ¬ Idle (r.state t))
    (hc : (r.state t).consumer.prog = .ret c) : ∃ l, c = .reading l := by
  cases c with
  | idle last => exact absurd (by simp [Idle, hc]) hactive
  | reading l => exact ⟨l, rfl⟩

theorem call_next {start : ℕ} (hgrid : OnGrid r f)
    (hbytes : (stream r.ring (begun r t)).length < 2 ^ 64) (hactive : ¬ Idle (r.state t))
    (h : Holds access (callTerms r.ring f start) (r.state t).consumer (r.mem t)) :
    Holds access (callTerms r.ring f start) (r.state (t + 1)).consumer (r.mem (t + 1)) := by
  have hstate : r.state (t + 1) = next r.ring (r.event t) (r.state t) := rfl
  cases he : r.event t with
  | push src =>
    rw [Run.mem, hstate, he]
    exact h
  | setFormat fmt =>
    rw [Run.mem, hstate, he]
    exact h
  | produce =>
    have hgrows := (tailed_produce (tailed hgrid t) he).2
    have hconsumer : (r.state (t + 1)).consumer = (r.state t).consumer := by
      rw [hstate, he]
      rfl
    rw [hconsumer]
    exact holds_env h (later_grows hgrid hbytes hgrows)
  | read out maxLatency =>
    have hconsumer : (r.state (t + 1)).consumer = (r.state t).consumer := by
      rw [hstate, he]
      change (r.state t).consumer.invoke _ = _
      rcases busy_or_rest (r.state t).consumer with hb | ⟨c, hc⟩
      · rw [invoke_busy hb]
      · obtain ⟨l, rfl⟩ := rest_reading hactive hc
        rw [invoke_rest hc, (holds_ret h hc).1]
        rfl
    have hmem : r.mem (t + 1) = r.mem t := by
      rw [Run.mem, hstate, he]
      rfl
    rw [hconsumer, hmem]
    exact h
  | consume =>
    rw [Run.mem, hstate, he]
    rcases busy_or_rest (r.state t).consumer with hb | ⟨c, hc⟩
    · simp only [next, advance_busy hb]
      exact (holds_access h hb trivial).1
    · obtain ⟨l, rfl⟩ := rest_reading hactive hc
      obtain ⟨_, hplaced, hcalled⟩ := holds_ret h hc
      simp only [next, advance_rest hc, invoke_rest hc]
      exact holds_settle (safe_pass ⟨hplaced, hcalled.2⟩ hcalled.1)

/-- The call that step `i` begins, as long as it has not returned and at the instant when it
does. -/
theorem call_holds (hgrid : OnGrid r f) (hbytes : (stream r.ring (begun r t)).length < 2 ^ 64)
    (hbegins : r.event i = .read out maxLatency) (hidle : Idle (r.state i)) (hit : i < t)
    (hactive : ∀ k, i < k → k < t → ¬ Idle (r.state k)) :
    Holds access (callTerms r.ring f (word r.ring .head (r.mem i))) (r.state t).consumer
      (r.mem t) := by
  induction t, hit using Nat.le_induction with
  | base =>
    have hfits : (stream r.ring (begun r i)).length < 2 ^ 64 :=
      (stream_mono (begun_mono (Nat.le_succ i))).length_le.trans_lt hbytes
    have hplaced := placed_run hgrid hfits
    have hframe := hgrid.framed i out maxLatency hbegins
    unfold Idle at hidle
    split at hidle
    next last hp =>
      have hstate : r.state (i + 1) = next r.ring (r.event i) (r.state i) := rfl
      have hmem : r.mem (i + 1) = r.mem i := by
        rw [Run.mem, hstate, hbegins]
        rfl
      have hconsumer : (r.state (i + 1)).consumer =
          settle (.idle last) [] (startRead r.ring out maxLatency (.idle last)) := by
        rw [hstate, hbegins]
        exact invoke_rest hp
      rw [hconsumer, hmem]
      exact holds_settle (safe_begin out maxLatency ⟨hplaced, rfl⟩ hframe)
    next => exact hidle.elim
  | succ t hit ih =>
    have hfits : (stream r.ring (begun r t)).length < 2 ^ 64 :=
      (stream_mono (begun_mono (Nat.le_succ t))).length_le.trans_lt hbytes
    exact call_next hgrid hfits (hactive t hit (Nat.lt_succ_self t))
      (ih hfits fun k hik hkt => hactive k hik (by omega))

theorem head_inside (hgrid : OnGrid r f) (hbytes : (stream r.ring (begun r t)).length < 2 ^ 64)
    (hbegins : r.event i = .read out maxLatency) (hidle : Idle (r.state i)) (hit : i < t)
    (hactive : ∀ k, i < k → k ≤ t → ¬ Idle (r.state k)) :
    word r.ring .head (r.mem t) = word r.ring .head (r.mem i) := by
  have hholds := call_holds hgrid hbytes hbegins hidle hit fun k hik hkt =>
    hactive k hik (by omega)
  rcases busy_or_rest (r.state t).consumer with hb | ⟨c, hc⟩
  · exact (holds_during hholds hb).head
  · obtain ⟨l, rfl⟩ := rest_reading (hactive t hit (Nat.le_refl t)) hc
    exact (holds_ret hholds hc).2.2.2

/-- A read that has returned, among any pushes: whole frames of what was pushed, from behind
the head that it found. -/
theorem returned_whole (hgrid : OnGrid r f) (hpushes : (begun r j).length < 2 ^ 63)
    (hbytes : (stream r.ring (begun r j)).length < 2 ^ 64)
    (h : r.Returns i out maxLatency j n out') :
    ∃ k head, i < k ∧ k < j ∧ word r.ring .head (r.mem i) ≤ head ∧
      word r.ring .head (r.mem j) = head + n ∧ f ∣ head ∧ f ∣ n ∧
      head + n ≤ (stream r.ring (r.pushed k)).length ∧
      (stream r.ring (r.pushed k)).length ≤ head + r.ring.cap ∧ n ≤ out.length ∧
      out' = ((stream r.ring (r.pushed k)).drop head).take n ++
        List.replicate (out.length - n) 0 := by
  have hholds := call_holds hgrid hbytes h.begins h.idle h.before h.inside
  obtain ⟨_, hplaced, hwhole, hforward⟩ := holds_ret hholds h.returned
  obtain ⟨l, u, hl, hu, hreach⟩ := returns_lastPass h
  obtain ⟨pass, hdone, hpass⟩ := reach_afterPass hreach
  cases pass with
  | again l' => simp [afterPass] at hdone
  | done n₁ out₁ =>
    obtain ⟨rfl, rfl⟩ : n = n₁ ∧ out' = out₁ := by simpa [afterPass] using hdone
    obtain ⟨p⟩ := reach_readPass hpass
    have hbegun := pushed_begun r j
    have hpushed : (stream r.ring (r.pushed j)).length < 2 ^ 64 :=
      (stream_mono hbegun).length_le.trans_lt hbytes
    obtain ⟨_, hlap, hwindow, hlive⟩ :=
      accepted_live p (hbegun.length_le.trans_lt hpushes) hpushed
    have hwant := (aim_spec p.aimed).1
    have hfit := hl.2
    have hbegin := p.begins
    have hinside := p.within
    have hlen : (stream r.ring (r.pushed p.atSeq)).length < 2 ^ 64 :=
      (stream_mono (pushed_mono hinside.le)).length_le.trans_lt hpushed
    have hhead : word r.ring .head (r.mem j) = p.head + n := by
      rw [p.stored, Nat.mod_eq_of_lt (by omega)]
    have hgridded : f ∣ p.head := by
      have hsum : f ∣ p.head + n := hhead ▸ hplaced.head
      exact (Nat.dvd_add_iff_left hwhole).mpr hsum
    refine ⟨p.atSeq, p.head, by omega, hinside, by omega, hhead, hgridded, hwhole, hwindow, hlap,
      by omega, ?_⟩
    exact p.filled.trans (by rw [hlive, hl.1])

end Runs

end WholeReads
