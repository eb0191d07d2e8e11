import Lalah.AudioRead

/-! One producer and one consumer on the ring, interleaved access by access. A read that
returns has seen one even `seq` from its first load to its last, and between two instants
with the same even `seq` only the format words and the head can have changed. -/
namespace AudioTearFreedom

open InteractionProgram RelyGuarantee ByteMemory StreamWindow ShmContract AudioRing AudioRead

/-- Between calls, with what the last one returned, or inside the loop of `read_quantum`. -/
inductive Reader where
  | idle (last : Option (ℕ × List UInt8))
  | reading (l : ReadLoop)
  deriving DecidableEq, Repr

structure State where
  mem : Memory
  producer : Party Access Access.Reply (List (List UInt8))
  consumer : Party Access Access.Reply Reader

inductive Event where
  | push (src : List UInt8)
  | setFormat (fmt : AudioFormat)
  | produce
  | read (out : List UInt8) (maxLatency : ℕ)
  | consume
  deriving DecidableEq, Repr

section System

variable (ring : ShmAudioBuffer)

def startPush (src : List UInt8) (pushed : List (List UInt8)) : MemProg (List (List UInt8)) :=
  ring.pushOverwrite src >>= fun _ => .ret (pushed ++ [src])

def startFormat (fmt : AudioFormat) (pushed : List (List UInt8)) :
    MemProg (List (List UInt8)) :=
  ring.setFormat fmt >>= fun _ => .ret pushed

def startRead (out : List UInt8) (maxLatency : ℕ) : Reader → MemProg Reader
  | .idle _ => ring.readStart out maxLatency >>= fun l => .ret (.reading l)
  | .reading l => .ret (.reading l)

def afterPass : Pass → Reader
  | .again l => .reading l
  | .done n out => .idle (some (n, out))

def readOn : Reader → MemProg Reader
  | .idle last => .ret (.idle last)
  | .reading l => ring.readPass l >>= fun p => .ret (afterPass p)

def next : Event → State → State
  | .push src, s => { s with producer := s.producer.invoke (startPush ring src) }
  | .setFormat fmt, s => { s with producer := s.producer.invoke (startFormat ring fmt) }
  | .produce, s =>
    { s with producer := (s.producer.access access s.mem).1
             mem := (s.producer.access access s.mem).2 }
  | .read out maxLatency, s =>
    { s with consumer := s.consumer.invoke (startRead ring out maxLatency) }
  | .consume, s =>
    { s with consumer := (s.consumer.advance access (readOn ring) s.mem).1
             mem := (s.consumer.advance access (readOn ring) s.mem).2 }

end System

/-- Any order of the parties' accesses, from a region that `init` has set up. -/
structure Run where
  ring : ShmAudioBuffer
  start : Memory
  initialized : ∃ before total,
    (ShmAudioBuffer.init ring.hdr total ring.cap).run access before = (some ring, start)
  event : ℕ → Event

def Run.state (r : Run) : ℕ → State
  | 0 => ⟨r.start, .rest [], .rest (.idle none)⟩
  | t + 1 => next r.ring (r.event t) (r.state t)

def Run.mem (r : Run) (t : ℕ) : Memory := (r.state t).mem

def Run.pushed (r : Run) (t : ℕ) : List (List UInt8) := (r.state t).producer.ctl

/-- From the first store of a push to its last; until the first one it has only loaded. -/
def Run.PushInProgress (r : Run) (t : ℕ) : Prop := Opened r.ring (r.state t).producer.made

def Idle (s : State) : Prop :=
  match s.consumer.prog with
  | .ret (.idle _) => True
  | _ => False

instance (s : State) : Decidable (Idle s) := by
  unfold Idle
  split <;> infer_instance

/-- The call that step `i` begins has returned at instant `j`. -/
structure Run.Returns (r : Run) (i : ℕ) (out : List UInt8) (maxLatency j n : ℕ)
    (out' : List UInt8) : Prop where
  begins : r.event i = .read out maxLatency
  idle : Idle (r.state i)
  before : i < j
  inside : ∀ t, i < t → t < j → ¬ Idle (r.state t)
  returned : (r.state j).consumer.prog = .ret (.idle (some (n, out')))

section Steps

variable (ring : ShmAudioBuffer)

abbrev SideCells : ℕ → Prop :=
  shmHeader.Cells ring.hdr [.sampleRate, .channels, .format, .frameBytes, .head]

structure Invariant (s : State) : Prop where
  producer : Holds access (producerTerms ring) s.producer s.mem
  consumer : StoresOnly (HeadCells ring) s.consumer.prog

structure Moves (s s' : State) : Prop where
  seq : word ring .seq s'.mem = (word ring .seq s.mem + 1) % 2 ^ 64 ∨
    word ring .seq s'.mem = word ring .seq s.mem ∧
      (word ring .seq s.mem % 2 = 0 → SameOutside (SideCells ring) s.mem s'.mem)
  pushed : s.producer.ctl <+: s'.producer.ctl

variable {ring} {s : State}

theorem moves_same {s' : State} (hm : s'.mem = s.mem) (hp : s.producer.ctl <+: s'.producer.ctl) :
    Moves ring s s' := by
  refine ⟨Or.inr ⟨by rw [hm], fun _ => ?_⟩, hp⟩
  rw [hm]
  exact sameOutside_refl _ _

theorem moves_head {s' : State} (hm : SameOutside (HeadCells ring) s.mem s'.mem)
    (hp : s'.producer = s.producer) : Moves ring s s' := by
  refine ⟨Or.inr ⟨word_sameOutside hm (by decide), fun _ => hm.mono fun a ha => ?_⟩, ?_⟩
  · exact shmHeader.cells_mono (by simp) ha
  · exact hp ▸ List.prefix_refl _

theorem pushed_follows {pushed pushed' : List (List UInt8)}
    (h : pushed' = pushed ∨ (producerTerms ring).follows pushed pushed') : pushed <+: pushed' := by
  rcases h with rfl | rfl | ⟨src, rfl⟩
  · exact List.prefix_refl _
  · exact List.prefix_refl _
  · exact List.prefix_append _ _

theorem invariant_next (h : Invariant ring s) (e : Event) :
    Invariant ring (next ring e s) ∧ Moves ring s (next ring e s) := by
  cases e with
  | push src =>
    obtain ⟨hholds, hctl⟩ := holds_invoke h.producer fun c hc => safe_push src hc
    exact ⟨⟨hholds, h.consumer⟩, moves_same rfl (pushed_follows hctl)⟩
  | setFormat fmt =>
    obtain ⟨hholds, hctl⟩ := holds_invoke h.producer fun c hc => safe_setFormat fmt hc
    exact ⟨⟨hholds, h.consumer⟩, moves_same rfl (pushed_follows hctl)⟩
  | produce =>
    rcases busy_or_rest s.producer with hb | ⟨c, hc⟩
    · obtain ⟨hholds, hguar, hctl⟩ := holds_access h.producer hb trivial
      refine ⟨⟨hholds, h.consumer⟩, ?_, pushed_follows hctl⟩
      rcases hguar with hodd | ⟨heq, hframe⟩
      · exact Or.inl hodd
      · refine Or.inr ⟨heq, fun heven => (hframe heven).mono fun a ha => ?_⟩
        exact shmHeader.cells_mono (by simp) ha
    · have hstay : s.producer.access access s.mem = (s.producer, s.mem) := access_rest hc s.mem
      have hnext : next ring .produce s = s := by simp only [next, hstay]
      rw [hnext]
      exact ⟨h, moves_same rfl (List.prefix_refl _)⟩
  | read out maxLatency =>
    refine ⟨⟨h.producer, every_invoke h.consumer fun c => ?_⟩, moves_same rfl (List.prefix_refl _)⟩
    cases c with
    | idle last => exact every_bind (storesOnly_readStart _ _) fun _ => trivial
    | reading l => trivial
  | consume =>
    have hcall : ∀ c, StoresOnly (HeadCells ring) (readOn ring c) := by
      intro c
      cases c with
      | idle last => trivial
      | reading l => exact every_bind (storesOnly_readPass l) fun _ => trivial
    have hmem : SameOutside (HeadCells ring) s.mem
        (s.consumer.advance access (readOn ring) s.mem).2 := h.consumer.advance s.mem
    exact ⟨⟨holds_env h.producer hmem, every_advance (fun _ _ => trivial) h.consumer hcall s.mem⟩,
      moves_head hmem rfl⟩

end Steps

section Runs

variable {r : Run} {j t u : ℕ}

theorem invariant_run (r : Run) (t : ℕ) : Invariant r.ring (r.state t) := by
  induction t with
  | zero =>
    obtain ⟨before, total, hinit⟩ := r.initialized
    exact ⟨holds_rest (quiet_fresh (fresh_init hinit).2.2.2), trivial⟩
  | succ t ih => exact (invariant_next ih (r.event t)).1

theorem run_moves (r : Run) (t : ℕ) : Moves r.ring (r.state t) (r.state (t + 1)) :=
  (invariant_next (invariant_run r t) (r.event t)).2

theorem pushed_mono (h : t ≤ u) : r.pushed t <+: r.pushed u :=
  prefix_of_steps (fun t => (run_moves r t).pushed) h

theorem writes_mono (h : t ≤ u) : writes (r.pushed t) ≤ writes (r.pushed u) :=
  (pushed_mono h).sublist.filter _ |>.length_le

theorem seq_phase (hj : (r.pushed j).length < 2 ^ 63) (h : t ≤ j) :
    ∃ o ≤ 1, word r.ring .seq (r.mem t) = 2 * writes (r.pushed t) + o := by
  have hle : writes (r.pushed t) ≤ writes (r.pushed j) := writes_mono h
  have hlen : writes (r.pushed j) ≤ (r.pushed j).length := List.length_filter_le _ _
  have hholds := (invariant_run r t).producer
  by_cases hb : (r.state t).producer.Busy
  · rcases holds_during hholds hb with ⟨_, hquiet⟩ | ⟨_, hseq⟩
    · exact ⟨0, by omega, hquiet.seq.trans (Nat.mod_eq_of_lt (by unfold Run.pushed at *; omega))⟩
    · exact ⟨1, by omega, hseq.trans (Nat.mod_eq_of_lt (by unfold Run.pushed at *; omega))⟩
  · have hquiet := (holds_between hholds hb).2
    exact ⟨0, by omega, hquiet.seq.trans (Nat.mod_eq_of_lt (by unfold Run.pushed at *; omega))⟩

theorem seq_mono (hj : (r.pushed j).length < 2 ^ 63) (h : t ≤ u) (hu : u ≤ j) :
    word r.ring .seq (r.mem t) ≤ word r.ring .seq (r.mem u) := by
  induction u, h using Nat.le_induction with
  | base => exact Nat.le_refl _
  | succ u htu ih =>
    apply (ih (by omega)).trans
    obtain ⟨o, ho, hseq⟩ := seq_phase hj (show u ≤ j by omega)
    obtain ⟨o', ho', hseq'⟩ := seq_phase hj hu
    have hw : writes (r.pushed u) ≤ writes (r.pushed (u + 1)) := writes_mono (by omega)
    rcases (run_moves r u).seq with hup | ⟨hsame, _⟩
    · unfold Run.mem at *; omega
    · exact hsame.ge

/-- With an even sequence word no push is in progress and the ring is the stream's. -/
theorem quiet_of_even (heven : word r.ring .seq (r.mem t) % 2 = 0) :
    ¬ r.PushInProgress t ∧ Quiet r.ring (r.pushed t) (r.mem t) := by
  have hholds := (invariant_run r t).producer
  by_cases hb : (r.state t).producer.Busy
  · rcases holds_during hholds hb with hquiet | ⟨_, hseq⟩
    · exact hquiet
    · unfold Run.mem at heven
      rw [hseq] at heven
      omega
  · obtain ⟨hrest, hquiet⟩ := holds_between hholds hb
    refine ⟨?_, hquiet⟩
    rintro ⟨v, hv⟩
    rw [hrest] at hv
    simp [Party.rest] at hv

/-- The seqlock's argument: from an even value to the same value later, only the format
words and the head have changed. -/
theorem side_only {a b : ℕ} (hj : (r.pushed j).length < 2 ^ 63) (hb : b ≤ j)
    (heven : word r.ring .seq (r.mem a) % 2 = 0)
    (hsame : word r.ring .seq (r.mem b) = word r.ring .seq (r.mem a)) :
    ∀ t, a ≤ t → t ≤ b → SameOutside (SideCells r.ring) (r.mem a) (r.mem t) := by
  intro t hat htb
  induction t, hat using Nat.le_induction with
  | base => exact sameOutside_refl _ _
  | succ t hat ih =>
    have hlo := seq_mono hj hat (by omega)
    have hup : word r.ring .seq (r.mem t) ≤ word r.ring .seq (r.mem (t + 1)) :=
      seq_mono hj (by omega) (by omega)
    have hhi := seq_mono hj htb hb
    apply (ih (by omega)).trans
    rcases (run_moves r t).seq with hmove | ⟨_, hside⟩
    · unfold Run.mem at *
      omega
    · exact hside (by unfold Run.mem at *; omega)

end Runs

section Calls

variable {r : Run} {i t j n maxLatency : ℕ} {out out' : List UInt8}

def Fits (out : List UInt8) (l : ReadLoop) : Prop :=
  l.out.length = out.length ∧ l.quantum ≤ out.length

/-- What the call that step `i` began has come to: its first load, between two passes, or
inside a pass. -/
inductive InCall (r : Run) (i : ℕ) (out : List UInt8) (maxLatency t : ℕ) : Prop where
  | starting (h : (r.state t).consumer.prog = startRead r.ring out maxLatency (.idle none))
  | resting (l : ReadLoop) (hl : Fits out l)
      (h : (r.state t).consumer.prog = .ret (.reading l))
  | passing (l : ReadLoop) (hl : Fits out l) (u : ℕ) (hu : i < u)
      (busy : (r.state t).consumer.Busy)
      (h : Reach access r.mem u (readOn r.ring (.reading l)) t (r.state t).consumer.prog)

def LastPass (r : Run) (i : ℕ) (out : List UInt8) (j : ℕ) (last : Option (ℕ × List UInt8)) :
    Prop :=
  ∃ l u, Fits out l ∧ i < u ∧
    Reach access r.mem u (readOn r.ring (.reading l)) j (.ret (.idle last))

theorem reach_afterPass {l : ReadLoop} {u v : ℕ} {c : Reader}
    (h : Reach access r.mem u (readOn r.ring (.reading l)) v (.ret c)) :
    ∃ p, c = afterPass p ∧ Reach access r.mem u (r.ring.readPass l) v (.ret p) := by
  obtain ⟨w, p, hp, hret⟩ := Reach.bind_inv h
  obtain ⟨rfl, rfl⟩ := Reach.ret_inv hret
  exact ⟨p, rfl, hp⟩

theorem fits_start (out : List UInt8) (maxLatency v : ℕ) :
    Fits out ⟨max v 1, out.length / max v 1 * max v 1, maxLatency, out⟩ :=
  ⟨rfl, Nat.div_mul_le_self _ _⟩

theorem fits_again {l l' : ReadLoop} {u v : ℕ} (hl : Fits out l)
    (h : Reach access r.mem u (r.ring.readPass l) v (.ret (.again l'))) : Fits out l' := by
  obtain ⟨hsame, hlen⟩ := reach_readPass_again (by rw [hl.1]; exact hl.2) h
  rw [hsame]
  exact ⟨hlen.trans hl.1, hl.2⟩

theorem inCall_wait (h : InCall r i out maxLatency t)
    (hsame : (r.state (t + 1)).consumer.prog = (r.state t).consumer.prog) :
    InCall r i out maxLatency (t + 1) := by
  rcases h with hp | ⟨l, hl, hp⟩ | ⟨l, hl, u, hu, hb, hreach⟩
  · exact .starting (hsame.trans hp)
  · exact .resting l hl (hsame.trans hp)
  · have hpause := hreach.pause hb
    obtain ⟨op, k, hk⟩ := hb
    exact .passing l hl u hu ⟨op, k, hsame.trans hk⟩ (hsame ▸ hpause)

theorem inCall_read (h : InCall r i out maxLatency t) (out₂ : List UInt8) (maxLatency₂ : ℕ) :
    ((r.state t).consumer.invoke (startRead r.ring out₂ maxLatency₂)).prog =
      (r.state t).consumer.prog := by
  rcases h with hp | ⟨l, _, hp⟩ | ⟨_, _, _, _, hb, _⟩
  · rw [invoke_busy ⟨_, _, hp⟩]
  · rw [invoke_rest hp, settle_prog, hp]
    rfl
  · rw [invoke_busy hb]

theorem inCall_consume (hit : i ≤ t) (h : InCall r i out maxLatency t)
    (hstep : (r.state (t + 1)).consumer =
      ((r.state t).consumer.advance access (readOn r.ring) (r.mem t)).1)
    (hmem : r.mem (t + 1) =
      ((r.state t).consumer.advance access (readOn r.ring) (r.mem t)).2) :
    InCall r i out maxLatency (t + 1) ∨
      ∃ last, LastPass r i out (t + 1) last ∧
        (r.state (t + 1)).consumer.prog = .ret (.idle last) := by
  rcases h with hp | ⟨l, hl, hp⟩ | ⟨l, hl, u, hu, hb, hreach⟩
  · rw [advance_busy ⟨_, _, hp⟩, access_act hp] at hstep
    refine Or.inl (.resting _ (fits_start out maxLatency (word r.ring .frameBytes (r.mem t))) ?_)
    rw [hstep]
    rfl
  · rw [advance_rest hp, invoke_rest hp] at hstep
    have hprog : (r.state (t + 1)).consumer.prog = readOn r.ring (.reading l) := by
      rw [hstep, settle_prog]
    refine Or.inl (.passing l hl (t + 1) (by omega) ⟨_, _, hprog⟩ ?_)
    rw [hprog]
    exact .refl _ _
  · rw [advance_busy hb] at hstep hmem
    have hreach' := hreach.access hb hmem
    rw [← hstep] at hreach'
    rcases busy_or_rest (r.state (t + 1)).consumer with hb' | ⟨c, hc⟩
    · exact Or.inl (.passing l hl u hu hb' hreach')
    · rw [hc] at hreach'
      obtain ⟨p, rfl, hpass⟩ := reach_afterPass hreach'
      cases p with
      | again l' => exact Or.inl (.resting l' (fits_again hl hpass) hc)
      | done n out' => exact Or.inr ⟨_, ⟨l, u, hl, hu, hreach'⟩, hc⟩

theorem inCall_next (hit : i ≤ t) (h : InCall r i out maxLatency t) :
    InCall r i out maxLatency (t + 1) ∨
      ∃ last, LastPass r i out (t + 1) last ∧
        (r.state (t + 1)).consumer.prog = .ret (.idle last) := by
  have hstate : r.state (t + 1) = next r.ring (r.event t) (r.state t) := rfl
  cases he : r.event t with
  | push src => exact Or.inl (inCall_wait h (by rw [hstate, he]; rfl))
  | setFormat fmt => exact Or.inl (inCall_wait h (by rw [hstate, he]; rfl))
  | produce => exact Or.inl (inCall_wait h (by rw [hstate, he]; rfl))
  | read out₂ maxLatency₂ =>
    refine Or.inl (inCall_wait h ?_)
    rw [hstate, he]
    exact inCall_read h out₂ maxLatency₂
  | consume =>
    apply inCall_consume hit h
    · rw [hstate, he]; rfl
    · rw [Run.mem, hstate, he]; rfl

theorem inCall_idle (h : InCall r i out maxLatency t) : ¬ Idle (r.state t) := by
  unfold Idle
  rcases h with hp | ⟨l, _, hp⟩ | ⟨_, _, _, _, ⟨op, k, hp⟩, _⟩
  all_goals
    rw [hp]
    exact id

/-- A call that has returned made its last pass inside the call. -/
theorem returns_lastPass (h : r.Returns i out maxLatency j n out') :
    LastPass r i out j (some (n, out')) := by
  have hstart : InCall r i out maxLatency (i + 1) := by
    refine .starting ?_
    have hidle := h.idle
    unfold Idle at hidle
    split at hidle
    next last hp =>
      have hstate : r.state (i + 1) = next r.ring (r.event i) (r.state i) := rfl
      rw [hstate, h.begins]
      exact (congrArg Party.prog (invoke_rest hp)).trans (settle_prog _ _ _)
    next => exact hidle.elim
  have hrun : ∀ t, i < t → t < j → InCall r i out maxLatency t := by
    intro t hit htj
    induction t, hit using Nat.le_induction with
    | base => exact hstart
    | succ t hit ih =>
      rcases inCall_next (by omega) (ih (by omega)) with hin | ⟨last, _, hlast⟩
      · exact hin
      · exact absurd (by simp [Idle, hlast]) (h.inside (t + 1) (by omega) htj)
  have hj : i + 1 < j := by
    rcases Nat.lt_or_ge (i + 1) j with hlt | hge
    · exact hlt
    · obtain rfl : j = i + 1 := by have := h.before; omega
      exact absurd (by simp [Idle, h.returned]) (inCall_idle hstart)
  obtain ⟨t, rfl⟩ : ∃ t, j = t + 1 := ⟨j - 1, by omega⟩
  rcases inCall_next (by omega) (hrun t (by omega) (by omega)) with hin | ⟨last, hlast, hp⟩
  · exact absurd (by simp [Idle, h.returned]) (inCall_idle hin)
  · rw [h.returned] at hp
    obtain rfl : some (n, out') = last := by simpa using hp
    exact hlast

end Calls

section Untorn

variable {r : Run} {j u n : ℕ} {l : ReadLoop} {out' : List UInt8}

/-- The bytes a returned pass has copied are the stream's at its first load of `seq`. -/
theorem accepted_live (p : AcceptedPass r.ring r.mem l u j n out')
    (hpushes : (r.pushed j).length < 2 ^ 63)
    (hbytes : (stream r.ring (r.pushed j)).length < 2 ^ 64) :
    word r.ring .tail (r.mem p.atSeq) = (stream r.ring (r.pushed p.atSeq)).length ∧
      (stream r.ring (r.pushed p.atSeq)).length ≤ p.head + r.ring.cap ∧
      p.head + n ≤ (stream r.ring (r.pushed p.atSeq)).length ∧
      p.live = ((stream r.ring (r.pushed p.atSeq)).drop p.head).take n := by
  obtain ⟨_, hquiet⟩ := quiet_of_even p.even
  have hbegin := p.tail_after
  have hhead := p.head_after
  have hcopy := p.copy.le
  have htail2 := p.tail2_after
  have hseq2 := p.seq2_after
  have hend := p.ends
  have hside := side_only hpushes hend.le p.even p.unchanged
  have hlen : (stream r.ring (r.pushed p.atSeq)).length < 2 ^ 64 :=
    (stream_mono (pushed_mono (by omega))).length_le.trans_lt hbytes
  have htail : ∀ t, p.atSeq ≤ t → t ≤ p.atSeq2 →
      word r.ring .tail (r.mem t) = (stream r.ring (r.pushed p.atSeq)).length := by
    intro t hlo hhi
    rw [word_sameOutside (hside t hlo hhi) (by decide), hquiet.tail, Nat.mod_eq_of_lt hlen]
  have haim := p.aimed
  rw [htail p.atTail (by omega) (by omega)] at haim
  obtain ⟨_, hwindow⟩ := aim_spec haim
  have hlap := p.recheck
  rw [htail p.atTail2 (by omega) (by omega), wrappingSub_of_le (by omega) hlen] at hlap
  obtain ⟨_, hcount, hcells⟩ := reach_copyOut (by omega) p.copy
  refine ⟨htail _ (Nat.le_refl _) (by omega), by omega, hwindow, ?_⟩
  apply List.ext_getElem
  · rw [hcount, List.length_take, List.length_drop]
    omega
  · intro x hx _
    obtain ⟨v, hlo, hhi, hbyte⟩ := hcells x hx
    rw [hbyte, cell_sameOutside (hside v (by omega) (by omega)),
      hquiet.live (p.head + x) (by omega) (by omega), List.getElem_take, List.getElem_drop]

theorem read_quantum_untorn (r : Run) {i j n maxLatency : ℕ} {out out' : List UInt8}
    (hpushes : (r.pushed j).length < 2 ^ 63)
    (hbytes : (stream r.ring (r.pushed j)).length < 2 ^ 64)
    (h : r.Returns i out maxLatency j n out') :
    ∃ k, i < k ∧ k < j ∧ ¬ r.PushInProgress k ∧
      let S := stream r.ring (r.pushed k)
      word r.ring .tail (r.mem k) = S.length ∧
      Retains r.ring.cap r.ring.cap (cell r.ring (r.mem k)) S ∧
      ∃ head, S.length ≤ head + r.ring.cap ∧ head + n ≤ S.length ∧ n ≤ out.length ∧
        out' = (S.drop head).take n ++ List.replicate (out.length - n) 0 ∧
        word r.ring .head (r.mem j) = head + n := by
  obtain ⟨l, u, hl, hu, hreach⟩ := returns_lastPass h
  obtain ⟨pass, hdone, hpass⟩ := reach_afterPass hreach
  cases pass with
  | again l' => simp [afterPass] at hdone
  | done n₁ out₁ =>
    simp only [afterPass, Reader.idle.injEq, Option.some.injEq, Prod.mk.injEq] at hdone
    obtain ⟨rfl, rfl⟩ := hdone
    obtain ⟨p⟩ := reach_readPass hpass
    obtain ⟨hpush, hquiet⟩ := quiet_of_even p.even
    obtain ⟨htail, hlap, hwindow, hlive⟩ := accepted_live p hpushes hbytes
    have hwant := (aim_spec p.aimed).1
    have hfit := hl.2
    have hbegin := p.begins
    have hinside := p.within
    have hlen : (stream r.ring (r.pushed p.atSeq)).length < 2 ^ 64 :=
      (stream_mono (pushed_mono hinside.le)).length_le.trans_lt hbytes
    refine ⟨p.atSeq, by omega, hinside, hpush, htail, hquiet.live, p.head, hlap, hwindow,
      by omega, ?_, ?_⟩
    · exact p.filled.trans (by rw [hlive, hl.1])
    · rw [p.stored, Nat.mod_eq_of_lt (by omega)]

def lappedEvents : List Event :=
  .push [7, 8] :: List.replicate 7 .produce ++
    .read [1, 1, 1] 2 :: List.replicate 3 .consume ++
    .push [9] :: List.replicate 6 .produce

/-- A ring of two bytes; the second push falls between the first loads of the read. -/
def lappedRun : Run where
  ring := ⟨0, 2, isPowerOfTwo_two⟩
  start := ((ShmAudioBuffer.init 0 256 2).run access fun _ => 0xEE).2
  initialized := ⟨fun _ => 0xEE, 256, rfl⟩
  event t := lappedEvents.getD t .consume

theorem read_quantum_untorn_lapped :
    ∃ k, 8 < k ∧ k < 34 ∧ ¬ lappedRun.PushInProgress k ∧
      let S := stream lappedRun.ring (lappedRun.pushed k)
      word lappedRun.ring .tail (lappedRun.mem k) = S.length ∧
      Retains 2 2 (cell lappedRun.ring (lappedRun.mem k)) S ∧
      ∃ head, S.length ≤ head + 2 ∧ head + 2 ≤ S.length ∧ 2 ≤ [1, 1, 1].length ∧
        [8, 9, 0] = (S.drop head).take 2 ++ List.replicate ([1, 1, 1].length - 2) 0 ∧
        word lappedRun.ring .head (lappedRun.mem 34) = head + 2 := by
  have hinside : ∀ t ∈ List.range' 9 25, ¬ Idle (lappedRun.state t) := by decide +kernel
  have hreturns : lappedRun.Returns 8 [1, 1, 1] 2 34 2 [8, 9, 0] := by
    refine ⟨rfl, by decide +kernel, by decide, ?_, result_eq_some.mp (by decide +kernel)⟩
    intro t hlo hhi
    exact hinside t (by rw [List.mem_range'_1]; omega)
  exact read_quantum_untorn lappedRun (by decide +kernel) (by decide +kernel) hreturns

end Untorn

end AudioTearFreedom
