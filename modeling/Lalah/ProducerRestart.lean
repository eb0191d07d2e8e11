import Lalah.AudioRing

/-! Producers that attach, publish a format, push, and may be terminated at any access. A
push derives the values it stores to `seq` from the value it finds, so the parity of `seq`
between pushes is that of the number of producers terminated inside a critical section. -/
namespace ProducerRestart

open InteractionProgram RelyGuarantee ByteMemory ShmContract AudioRing

/-- The life of one producer process, with the number of pushes it has completed. -/
inductive Control where
  | detached
  | attached (h : ShmAudioBuffer)
  | ready (h : ShmAudioBuffer) (pushes : ℕ)
  deriving DecidableEq

/-- `torn` counts the producers terminated between their two stores to `seq`. -/
structure State where
  mem : Memory
  producer : Party Access Access.Reply Control
  torn : ℕ

/-- `consume` is a store of the consumer, which touches its own word only. -/
inductive Event where
  | attach
  | setFormat (fmt : AudioFormat)
  | push (src : List UInt8)
  | produce
  | terminate
  | consume (head : ℕ)
  deriving DecidableEq, Repr

def afterAttach : Except String ShmAudioBuffer → Control
  | .ok h => .attached h
  | .error _ => .detached

def startAttach (ptr total : ℕ) : Control → MemProg Control
  | .detached => ShmAudioBuffer.attach ptr total >>= fun r => .ret (afterAttach r)
  | c => .ret c

def startFormat (fmt : AudioFormat) : Control → MemProg Control
  | .attached h => h.setFormat fmt >>= fun _ => .ret (.ready h 0)
  | c => .ret c

def startPush (src : List UInt8) : Control → MemProg Control
  | .ready h pushes => h.pushOverwrite src >>= fun _ => .ret (.ready h (pushes + 1))
  | c => .ret c

variable (ring : ShmAudioBuffer)

def inside (made : List Access) : ℕ := if Opened ring made then 1 else 0

def next (total : ℕ) : Event → State → State
  | .attach, s => { s with producer := s.producer.invoke (startAttach ring.hdr total) }
  | .setFormat fmt, s => { s with producer := s.producer.invoke (startFormat fmt) }
  | .push src, s => { s with producer := s.producer.invoke (startPush src) }
  | .produce, s =>
    { s with
      producer := (s.producer.access access s.mem).1
      mem := (s.producer.access access s.mem).2 }
  | .terminate, s =>
    { s with producer := .rest .detached, torn := s.torn + inside ring s.producer.made }
  | .consume head, s => { s with mem := shmHeader.put ring.hdr .head head s.mem }

structure Run where
  ring : ShmAudioBuffer
  total : ℕ
  start : Memory
  initialized : ∃ before,
    (ShmAudioBuffer.init ring.hdr total ring.cap).run access before = (some ring, start)
  event : ℕ → Event

def Run.state (r : Run) : ℕ → State
  | 0 => ⟨r.start, .rest .detached, 0⟩
  | t + 1 => next r.ring r.total (r.event t) (r.state t)

/-- The producer has completed a push and is not inside one. -/
def Settled (s : State) : Prop := ∃ h pushes, s.producer.prog = .ret (.ready h pushes) ∧ 1 ≤ pushes

/-- Behind the store that enters the critical section, before the store of the tail. -/
def WritingPayload (s : State) : Prop :=
  s.producer.Busy ∧ Opened ring s.producer.made ∧
    ¬ ∃ op ∈ s.producer.made, StoresWord ring .tail op

/-- The seqlock's law for one state: even when settled, odd while the payload is written. -/
def SeqLaw (s : State) : Prop :=
  (Settled s → word ring .seq s.mem % 2 = 0) ∧
    (WritingPayload ring s → word ring .seq s.mem % 2 = 1)

section Producer

variable {ring} {k : ℕ} {made : List Access} {m m' : Memory}

/-- With `k` earlier tears: the parity of `seq` at each access of a producer, and the
published capacity. -/
structure Parity (ring : ShmAudioBuffer) (k : ℕ) (made : List Access) (m : Memory) : Prop where
  seq : word ring .seq m % 2 = (k + inside ring made) % 2
  capacity : word ring .capacity m = ring.cap

def Bound (ring : ShmAudioBuffer) : Control → Prop
  | .detached => True
  | .attached h => h = ring
  | .ready h _ => h = ring

theorem parity_same (h : Parity ring k made m) {made' : List Access}
    (hseq : word ring .seq m' = word ring .seq m)
    (hcap : word ring .capacity m' = word ring .capacity m)
    (hmade : Opened ring made' ↔ Opened ring made) : Parity ring k made' m' := by
  refine ⟨?_, by rw [hcap, h.capacity]⟩
  rw [hseq, h.seq]
  simp only [inside, hmade]

theorem parity_env (h : Parity ring k made m) (hs : SameOutside (HeadCells ring) m m') :
    Parity ring k made m' :=
  parity_same h (word_sameOutside hs (by decide)) (word_sameOutside hs (by decide)) Iff.rfl

def restartTerms (ring : ShmAudioBuffer) (k : ℕ) : Terms Access Memory Control where
  rely := SameOutside (HeadCells ring)
  allow := fun _ _ _ => True
  guar := fun _ _ => True
  during _ := Parity ring k
  between c m := Bound ring c ∧ Parity ring k [] m
  follows := fun _ _ => True
  rely_refl := headCells_refl ring
  rely_trans := headCells_trans ring
  between_stable := fun _ _ _ h hs => ⟨h.1, parity_env h.2 hs⟩

variable {c : Control} {Q : Control → List Access → Memory → Prop}

theorem safe_read {f : ShmField} {p : ℕ → MemProg Control} (hclosed : ¬ Opened ring made)
    (h : Parity ring k made m)
    (hp : ∀ made m, ¬ Opened ring made → Parity ring k made m →
      Safe access (restartTerms ring k) c Q (p (word ring f m)) made m) :
    Safe access (restartTerms ring k) c Q (shmHeader.load ring.hdr f >>= p) made m := by
  apply safe_load
  intro m' hs
  have hparity := parity_env h hs
  have hclosed' := not_opened_load hclosed (shmHeader.width f) (ring.hdr + shmHeader.offset f)
  exact ⟨hparity, fun _ => ⟨trivial, hp _ _ hclosed'
    (parity_same hparity rfl rfl (iff_of_false hclosed' hclosed))⟩⟩

theorem safe_done (c' : Control) (hbound : Bound ring c') (hclosed : ¬ Opened ring made)
    (h : Parity ring k made m) : Safe access (restartTerms ring k) c
      (Ends (restartTerms ring k) c) (.ret c') made m :=
  ⟨⟨hbound, parity_same h rfl rfl (iff_of_false not_opened_nil hclosed)⟩, trivial⟩

theorem safe_attach (total : ℕ) (h : Parity ring k [] m) :
    Safe access (restartTerms ring k) .detached (Ends (restartTerms ring k) .detached)
      (startAttach ring.hdr total .detached) [] m := by
  simp only [startAttach, ShmAudioBuffer.attach]
  by_cases htotal : total ≤ shmHeader.size
  · rw [if_pos htotal, pure_bind]
    exact safe_done .detached trivial not_opened_nil h
  rw [if_neg htotal, bind_assoc]
  apply safe_read not_opened_nil h
  intro made m hclosed h
  split
  · rw [pure_bind]
    exact safe_done .detached trivial hclosed h
  rw [bind_assoc]
  apply safe_read hclosed h
  intro made m hclosed h
  split
  · rw [pure_bind]
    exact safe_done .detached trivial hclosed h
  rw [bind_assoc]
  apply safe_read hclosed h
  intro made m hclosed h
  split
  · rw [pure_bind]
    exact safe_done .detached trivial hclosed h
  rw [bind_assoc]
  apply safe_read hclosed h
  intro made m hclosed h
  rw [h.capacity]
  split
  · rw [pure_bind]
    exact safe_done (.attached ring) rfl hclosed h
  · rw [pure_bind]
    exact safe_done .detached trivial hclosed h

theorem storesIn_format {op : Access} (h : StoresIn (FormatCells ring) op) :
    ¬ StoresWord ring .seq op := by
  cases op with
  | load w a => exact id
  | store w a v =>
    rintro ⟨rfl, rfl⟩
    obtain ⟨f, hf, hlo, hhi⟩ := h _ (Nat.le_refl _) (by simp [shmHeader])
    have hne : f ≠ .seq := by rintro rfl; simp at hf
    have := shmHeader.disjoint f .seq hne
    have hseq : shmHeader.width .seq = 8 := rfl
    omega

theorem safe_setFormat (fmt : AudioFormat) (h : Parity ring k [] m) :
    Safe access (restartTerms ring k) (.attached ring) (Ends (restartTerms ring k) (.attached ring))
      (startFormat fmt (.attached ring)) [] m := by
  refine safe_bind (safe_mono ?_ (safe_every (fun _ _ => trivial) ?_ (storesOnly_setFormat fmt)
    (I := fun made m => ¬ Opened ring made ∧ Parity ring k made m) ⟨not_opened_nil, h⟩))
  · intro _ made m hI
    exact safe_done (.ready ring 0) rfl hI.1 hI.2
  · rintro made m m' ⟨hclosed, h⟩ hs
    have hparity := parity_env h hs
    refine ⟨hparity, fun op hop => ⟨trivial, ?_⟩⟩
    have hclosed' : ¬ Opened ring (op :: made) := by
      rw [opened_cons]
      intro ho
      exact ho.elim (storesIn_format hop) hclosed
    have hside := hop.sameOutside m'
    exact ⟨hclosed', parity_same hparity (word_sameOutside hside (by decide))
      (word_sameOutside hside (by decide)) (iff_of_false hclosed' hclosed)⟩

theorem inside_opened (h : Opened ring made) : inside ring made = 1 := if_pos h

theorem inside_closed (h : ¬ Opened ring made) : inside ring made = 0 := if_neg h

theorem safe_copy (pos : ℕ) (src : List UInt8) (hopen : Opened ring made)
    (h : Parity ring k made m) : Safe access (restartTerms ring k) c
      (fun _ made m => Opened ring made ∧ Parity ring k made m)
      (ring.copyIn (ring.mask pos) (ring.kept src)) made m := by
  refine safe_every (fun _ _ => trivial) ?_ (storesOnly_copyIn pos src) ⟨hopen, h⟩
  rintro made m m' ⟨hopen, h⟩ hs
  have hparity := parity_env h hs
  refine ⟨hparity, fun op hop => ⟨trivial, hopen.cons op, ?_⟩⟩
  have hside := hop.sameOutside m'
  exact parity_same hparity (word_payload hside) (word_payload hside)
    (iff_of_true (hopen.cons op) hopen)

/-- The two stores of a push move `seq` one up each, from whatever value it had. -/
theorem safe_push (src : List UInt8) (pushes : ℕ) (h : Parity ring k [] m) :
    Safe access (restartTerms ring k) (.ready ring pushes)
      (Ends (restartTerms ring k) (.ready ring pushes)) (startPush src (.ready ring pushes)) []
      m := by
  simp only [startPush, ShmAudioBuffer.pushOverwrite]
  by_cases hn : (ring.kept src).length = 0
  · rw [if_pos hn, pure_bind]
    exact safe_done (.ready ring (pushes + 1)) rfl not_opened_nil h
  rw [if_neg hn]
  simp only [bind_assoc]
  have hwidth : 256 ^ shmHeader.width .seq = 2 ^ 64 := by decide
  apply safe_read not_opened_nil h
  intro made m hclosed h
  apply safe_load
  intro m₁ h₁
  have p₁ := parity_env h h₁
  have hclosed₁ := not_opened_load hclosed (shmHeader.width .seq) (ring.hdr + shmHeader.offset .seq)
  refine ⟨p₁, fun _ => ⟨trivial, safe_store fun m₂ h₂ => ?_⟩⟩
  have p₂ : Parity ring k _ m₂ :=
    parity_env (parity_same p₁ rfl rfl (iff_of_false hclosed₁ hclosed)) h₂
  refine ⟨p₂, fun _ => ⟨trivial, safe_bind (safe_mono ?_ (safe_copy _ src (opened_store _) ?_))⟩⟩
  · rintro _ made m₃ ⟨hopen, p₃⟩
    apply safe_store
    intro m₄ h₄
    have p₄ := parity_env p₃ h₄
    refine ⟨p₄, fun _ => ⟨trivial, safe_store fun m₅ h₅ => ?_⟩⟩
    have p₅ : Parity ring k made m₅ := parity_env (parity_same p₄
      (shmHeader.get_put_ne _ (by decide) _ _) (shmHeader.get_put_ne _ (by decide) _ _) Iff.rfl) h₅
    refine ⟨parity_same p₅ rfl rfl (iff_of_true (hopen.cons _) hopen), fun _ =>
      ⟨trivial, ⟨rfl, ?_, ?_⟩, trivial⟩⟩
    · rw [word, shmHeader.get_put, hwidth, inside_closed not_opened_nil]
      have hseq := p₁.seq
      rw [inside_closed hclosed] at hseq
      unfold wrappingAdd
      omega
    · rw [word, shmHeader.get_put_ne _ (by decide)]
      exact p₅.capacity
  · constructor
    · rw [word, shmHeader.get_put, hwidth, inside_opened (opened_store _)]
      have hseq := p₁.seq
      rw [inside_closed hclosed] at hseq
      unfold wrappingAdd
      omega
    · rw [word, shmHeader.get_put_ne _ (by decide)]
      exact p₂.capacity

end Producer

section Runs

variable {r : Run} {t : ℕ} {s : State}

def Invariant (ring : ShmAudioBuffer) (s : State) : Prop :=
  Holds access (restartTerms ring s.torn) s.producer s.mem

theorem parity_producer {ring : ShmAudioBuffer} (h : Invariant ring s) :
    Parity ring s.torn s.producer.made s.mem := by
  by_cases hb : s.producer.Busy
  · exact holds_during h hb
  · obtain ⟨hrest, hbetween⟩ := holds_between h hb
    rw [hrest]
    exact hbetween.2

/-- The dead producer's open critical section becomes part of the count. -/
theorem terminate_parity {ring : ShmAudioBuffer} {k : ℕ} {made : List Access} {m : Memory}
    (h : Parity ring k made m) : Parity ring (k + inside ring made) [] m :=
  ⟨by rw [h.seq, inside_closed not_opened_nil, Nat.add_zero], h.capacity⟩

theorem invariant_next {ring : ShmAudioBuffer} {total : ℕ} (h : Invariant ring s) (e : Event) :
    Invariant ring (next ring total e s) := by
  cases e with
  | attach =>
    refine (holds_invoke h fun c hc => ?_).1
    cases c with
    | detached => exact safe_attach total hc.2
    | attached b => exact ⟨hc, trivial⟩
    | ready b pushes => exact ⟨hc, trivial⟩
  | setFormat fmt =>
    refine (holds_invoke h fun c hc => ?_).1
    cases c with
    | detached => exact ⟨hc, trivial⟩
    | attached b =>
      obtain rfl : b = ring := hc.1
      exact safe_setFormat fmt hc.2
    | ready b pushes => exact ⟨hc, trivial⟩
  | push src =>
    refine (holds_invoke h fun c hc => ?_).1
    cases c with
    | detached => exact ⟨hc, trivial⟩
    | attached b => exact ⟨hc, trivial⟩
    | ready b pushes =>
      obtain rfl : b = ring := hc.1
      exact safe_push src pushes hc.2
  | produce =>
    rcases busy_or_rest s.producer with hb | ⟨c, hc⟩
    · exact (holds_access h hb trivial).1
    · have hstay : s.producer.access access s.mem = (s.producer, s.mem) := access_rest hc s.mem
      have hnext : next ring total .produce s = s := by simp only [next, hstay]
      rw [hnext]
      exact h
  | terminate => exact holds_rest ⟨trivial, terminate_parity (parity_producer h)⟩
  | consume head => exact holds_env h (shmHeader.put_sameOutside (by simp) head s.mem)

theorem invariant_run (r : Run) (t : ℕ) : Invariant r.ring (r.state t) := by
  induction t with
  | zero =>
    obtain ⟨before, hinit⟩ := r.initialized
    have hfresh := (fresh_init hinit).2.2.2
    refine holds_rest ⟨trivial, ?_, hfresh.capacity⟩
    change word r.ring .seq r.start % 2 = _
    rw [hfresh.seq, inside_closed not_opened_nil]
    rfl
  | succ t ih => exact invariant_next ih (r.event t)

/-- In every reachable state the parity of `seq` is that of the producers torn so far and
of the one inside its critical section now. -/
theorem seq_parity (r : Run) (t : ℕ) : word r.ring .seq (r.state t).mem % 2 =
    ((r.state t).torn + inside r.ring (r.state t).producer.made) % 2 :=
  (parity_producer (invariant_run r t)).seq

theorem settled_outside (h : Settled (r.state t)) :
    inside r.ring (r.state t).producer.made = 0 := by
  obtain ⟨b, pushes, hp, _⟩ := h
  obtain ⟨hrest, _⟩ := holds_between (invariant_run r t) (not_busy hp)
  rw [hrest]
  exact inside_closed not_opened_nil

theorem untorn (h : ∀ t, r.event t = .terminate → ¬ Opened r.ring (r.state t).producer.made)
    (t : ℕ) : (r.state t).torn = 0 := by
  induction t with
  | zero => rfl
  | succ t ih =>
    change (next r.ring r.total (r.event t) (r.state t)).torn = 0
    cases he : r.event t with
    | terminate =>
      change (r.state t).torn + inside r.ring (r.state t).producer.made = 0
      rw [ih, inside_closed (h t he)]
    | attach => exact ih
    | setFormat fmt => exact ih
    | push src => exact ih
    | produce => exact ih
    | consume head => exact ih

theorem seqLaw_state (r : Run) (t : ℕ) : SeqLaw r.ring (r.state t) ↔
    (Settled (r.state t) ∨ WritingPayload r.ring (r.state t) → (r.state t).torn % 2 = 0) := by
  have hseq := seq_parity r t
  constructor
  · rintro ⟨hsettled, hwriting⟩ (hs | hw)
    · have heven := hsettled hs
      rw [settled_outside hs] at hseq
      omega
    · have hodd := hwriting hw
      rw [inside_opened hw.2.1] at hseq
      omega
  · intro htorn
    refine ⟨fun hs => ?_, fun hw => ?_⟩
    · have heven := htorn (Or.inl hs)
      rw [settled_outside hs] at hseq
      omega
    · have heven := htorn (Or.inr hw)
      rw [inside_opened hw.2.1] at hseq
      omega

/-- The law holds in a state exactly when it says nothing about that state or an even
number of producers was terminated inside the critical section before it; so it holds in
every state of a run in which none is. -/
theorem seqLaw_iff (r : Run) :
    (∀ t, SeqLaw r.ring (r.state t) ↔
      (Settled (r.state t) ∨ WritingPayload r.ring (r.state t) → (r.state t).torn % 2 = 0)) ∧
    ((∀ t, r.event t = .terminate → ¬ Opened r.ring (r.state t).producer.made) →
      ∀ t, SeqLaw r.ring (r.state t)) := by
  refine ⟨seqLaw_state r, fun hclean t => (seqLaw_state r t).mpr fun _ => ?_⟩
  rw [untorn hclean]

/-- One push is cut off behind its first store to `seq`; the next producer completes one. -/
def tornEvents : List Event :=
  .attach :: List.replicate 4 .produce ++
    .setFormat ⟨48000, 1, .s16Le, 2⟩ :: List.replicate 4 .produce ++
    .push [7] :: List.replicate 3 .produce ++
    .terminate ::
    .attach :: List.replicate 4 .produce ++
    .setFormat ⟨48000, 1, .s16Le, 2⟩ :: List.replicate 4 .produce ++
    .push [8] :: List.replicate 6 .produce

def tornRun : Run where
  ring := ⟨0, 2, isPowerOfTwo_two⟩
  total := 256
  start := ((ShmAudioBuffer.init 0 256 2).run access fun _ => 0).2
  initialized := ⟨fun _ => 0, rfl⟩
  event t := tornEvents.getD t .produce

theorem seqLaw_torn : ¬ SeqLaw tornRun.ring (tornRun.state 32) := by
  intro hlaw
  have hsettled : Settled (tornRun.state 32) :=
    ⟨tornRun.ring, 1, result_eq_some.mp (by decide +kernel), by decide⟩
  have hodd : word tornRun.ring .seq (tornRun.state 32).mem = 3 := by decide +kernel
  have heven := hlaw.1 hsettled
  rw [hodd] at heven
  exact absurd heven (by decide)

end Runs

end ProducerRestart
