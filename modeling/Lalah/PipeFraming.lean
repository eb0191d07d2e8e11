import Lalah.PagePipe
import Lalah.VideoForwarder

/-! Frames in the FIFO. `write_frame` compares the frame with the free bytes of the pipe, but
a write needs free slots; a frame is split where the bytes are there and the slots are not. -/
namespace PipeFraming

open InteractionProgram RelyGuarantee PagePipe VideoForwarder

section Model

/-- What one system call leaves open: whether it fails, and how much of the last slot a
write can top up. -/
structure Behaviour where
  sizeFails : Bool
  queuedFails : Bool
  writeFails : Bool
  room : ℕ
  deriving DecidableEq, Repr

structure Channel where
  world : World
  pipe : Pipe
  behaviour : Behaviour

def Channel.write (bytes : List UInt8) (ch : Channel) : Except Errno ℕ × Channel :=
  let count := ch.pipe.taken ch.behaviour.room bytes.length
  if ch.behaviour.writeFails = true then (.error .other, ch)
  else if ch.pipe.readers = false then (.error .epipe, ch)
  else if count = 0 ∧ bytes ≠ [] then (.error .eagain, ch)
  else (.ok count, { ch with pipe := ch.pipe.write ch.behaviour.room bytes })

def pipeAccess : (op : HostOp) → Channel → op.Reply × Channel
  | .getPipeSize, ch => (if ch.behaviour.sizeFails = true then -1 else ch.pipe.size, ch)
  | .fionread, ch => (if ch.behaviour.queuedFails = true then none else some ch.pipe.queued, ch)
  | .write bytes, ch => ch.write bytes
  | op, ch => ((hostAccess op ch.world).1, { ch with world := (hostAccess op ch.world).2 })

/-- The variables behind the read of a frame; `connected` is `fd >= 0`. `wrote` is not in the
source: the frames for which `write_frame` returned `Wrote`. -/
structure Session where
  connected : Bool
  dropped : ℕ
  wrote : List (List UInt8)
  deriving DecidableEq, Repr

def forwardFrame (frame : List UInt8) (s : Session) : HostProg Session := do
  match ← writeFrame frame with
  | .wrote => return { s with wrote := s.wrote ++ [frame] }
  | .dropped => return { s with dropped := s.dropped + 1 }
  | .readerGone =>
    call .close
    return { s with connected := false }

def startWrite (frame : List UInt8) (s : Session) : HostProg Session :=
  if s.connected = true then forwardFrame frame s else .ret s

structure State where
  channel : Channel
  thread : Party HostOp HostOp.Reply Session

/-- The thread comes to its next frame or makes its next call; the reader takes bytes,
resizes the pipe, goes or comes. -/
inductive Event where
  | hand (frame : List UInt8)
  | forward (behaviour : Behaviour)
  | drain (k : ℕ)
  | resize (count : ℕ)
  | readers (present : Bool)
  deriving DecidableEq, Repr

def next : Event → State → State
  | .hand frame, s => { s with thread := s.thread.invoke (startWrite frame) }
  | .forward behaviour, s =>
    let (thread, channel) := s.thread.access pipeAccess { s.channel with behaviour := behaviour }
    ⟨channel, thread⟩
  | .drain k, s => { s with channel := { s.channel with pipe := s.channel.pipe.drain k } }
  | .resize count, s =>
    { s with channel := { s.channel with pipe := s.channel.pipe.resize count } }
  | .readers present, s =>
    { s with channel := { s.channel with pipe := { s.channel.pipe with readers := present } } }

structure Run where
  world : World
  pipe : Pipe
  opened : pipe.writes = []
  behaviour : Behaviour
  event : ℕ → Event

def Run.state (r : Run) : ℕ → State
  | 0 => ⟨⟨r.world, r.pipe, r.behaviour⟩, .rest ⟨true, 0, []⟩⟩
  | t + 1 => next (r.event t) (r.state t)

def Run.session (r : Run) (t : ℕ) : Session := (r.state t).thread.ctl

def Run.pipeAt (r : Run) (t : ℕ) : Pipe := (r.state t).channel.pipe

/-- The bytes put into the pipe are the frames that were written, one after the other: of all
others there is nothing. -/
def Run.Framed (r : Run) (t : ℕ) : Prop := put (r.pipeAt t).writes = (r.session t).wrote.flatten

/-- The write fails, or there is room for all of it or none. -/
def Channel.Meets (ch : Channel) (n : ℕ) : Prop :=
  ch.behaviour.writeFails = true ∨ ch.pipe.readers = false ∨ ch.pipe.Fits ch.behaviour.room n

/-- The step makes no write, or one that `Meets` the pipe as it is then. -/
def Run.Meets (r : Run) (t : ℕ) : Prop := ∀ behaviour frame k,
  r.event t = .forward behaviour → (r.state t).thread.prog = .act (.write frame) k →
    Channel.Meets { (r.state t).channel with behaviour := behaviour } frame.length

/-- A write fails and leaves the pipe alone, or the pipe takes what it can. -/
theorem write_cases (bytes : List UInt8) (ch : Channel) :
    (∃ e, ch.write bytes = (.error e, ch) ∧ (ch.behaviour.writeFails = true ∨
      ch.pipe.readers = false ∨ ch.pipe.taken ch.behaviour.room bytes.length = 0)) ∨
    (ch.write bytes = (.ok (ch.pipe.taken ch.behaviour.room bytes.length),
      { ch with pipe := ch.pipe.write ch.behaviour.room bytes }) ∧
      ¬ ch.behaviour.writeFails = true ∧ ¬ ch.pipe.readers = false ∧
      (bytes ≠ [] → 0 < ch.pipe.taken ch.behaviour.room bytes.length)) := by
  by_cases hfails : ch.behaviour.writeFails = true
  · exact Or.inl ⟨.other, if_pos hfails, Or.inl hfails⟩
  by_cases hgone : ch.pipe.readers = false
  · exact Or.inl ⟨.epipe, (if_neg hfails).trans (if_pos hgone), Or.inr (Or.inl hgone)⟩
  by_cases hnone : ch.pipe.taken ch.behaviour.room bytes.length = 0 ∧ bytes ≠ []
  · exact Or.inl ⟨.eagain, (if_neg hfails).trans ((if_neg hgone).trans (if_pos hnone)),
      Or.inr (Or.inr hnone.1)⟩
  · exact Or.inr ⟨(if_neg hfails).trans ((if_neg hgone).trans (if_neg hnone)), hfails, hgone,
      fun hbytes => Nat.pos_of_ne_zero fun hzero => hnone ⟨hzero, hbytes⟩⟩

/-- `forwardFrame` is the last part of the loop of `run_video`. -/
theorem runVideo_writing (cfg : Config) {v : VideoThread} (hp : v.point = .writing)
    (wrote : List (List UInt8)) :
    runVideo cfg v = forwardFrame v.frame ⟨v.connected, v.dropped, wrote⟩ >>= fun s =>
      .ret { v with point := .top, connected := s.connected, dropped := s.dropped } := by
  simp only [runVideo, hp, forwardFrame, bind_assoc]
  congr 1
  funext outcome
  cases outcome <;> rfl

end Model

section Ledger

/-- The frames written are those that the pipe took in full. -/
def Ledger (s : Session) (ch : Channel) : Prop := full ch.pipe.writes = s.wrote

def ledgerTerms : Terms HostOp Channel Session where
  rely := fun ch ch' => ch'.pipe.writes = ch.pipe.writes
  allow := fun _ _ _ => True
  guar := fun _ _ => True
  during := fun s _ ch => Ledger s ch
  between := Ledger
  follows := fun _ _ => True
  rely_refl := fun _ => rfl
  rely_trans := fun _ _ _ h h' => h'.trans h
  between_stable := fun _ _ _ h hr => (congrArg full hr).trans h

variable {s : Session} {ch : Channel} {made : List HostOp} {α : Type} {frame : List UInt8}
  {Q : α → List HostOp → Channel → Prop}

theorem quiet_access {op : HostOp} (h : ∀ bytes, op ≠ .write bytes) (ch : Channel) :
    (pipeAccess op ch).2.pipe = ch.pipe := by
  cases op with
  | write bytes => exact absurd rfl (h bytes)
  | _ => rfl

theorem safe_ask {op : HostOp} {k : op.Reply → HostProg α} (hop : ∀ bytes, op ≠ .write bytes)
    (h : Ledger s ch)
    (hk : ∀ reply made ch', Ledger s ch' → Safe pipeAccess ledgerTerms s Q (k reply) made ch') :
    Safe pipeAccess ledgerTerms s Q (call op >>= k) made ch := by
  intro ch' hr
  have h' : Ledger s ch' := ledgerTerms.between_stable _ _ _ h hr
  refine ⟨h', fun _ => ⟨trivial, hk _ _ _ ?_⟩⟩
  rw [Ledger, quiet_access hop]
  exact h'

def due (frame : List UInt8) (s : Session) : WriteOutcome → List (List UInt8)
  | .wrote => s.wrote ++ [frame]
  | _ => s.wrote

/-- What the reply to the `write` of a frame means. -/
def outcome (frame : List UInt8) : Except Errno ℕ → WriteOutcome
  | .ok n => if n = frame.length then .wrote else .dropped
  | .error .epipe => .readerGone
  | .error _ => .dropped

theorem offer_eq (frame : List UInt8) :
    offer frame = .act (.write frame) fun reply => .ret (outcome frame reply) := by
  refine congrArg (Prog.act (HostOp.write frame)) (funext fun reply => ?_)
  rcases reply with e | n
  · cases e <;> rfl
  · rfl

theorem due_of_part {reply : Except Errno ℕ} (h : reply ≠ .ok frame.length) :
    due frame s (outcome frame reply) = s.wrote := by
  rcases reply with e | n
  · cases e <;> rfl
  · rw [outcome, if_neg fun heq => h (congrArg Except.ok heq)]
    rfl

/-- The reply says whether the frame is now in the pipe in full. -/
theorem write_full (frame : List UInt8) (ch : Channel) :
    ((ch.write frame).1 = .ok frame.length ∧
      full (ch.write frame).2.pipe.writes = full ch.pipe.writes ++ [frame]) ∨
    ((ch.write frame).1 ≠ .ok frame.length ∧
      full (ch.write frame).2.pipe.writes = full ch.pipe.writes) := by
  rcases write_cases frame ch with ⟨e, hwrite, _⟩ | ⟨hwrite, _⟩
  · rw [hwrite]
    exact Or.inr ⟨by simp, rfl⟩
  · rw [hwrite]
    have hsnoc := full_snoc ch.pipe.writes (ch.pipe.takes ch.behaviour.room frame)
    by_cases hw : (ch.pipe.takes ch.behaviour.room frame).Full
    · rw [if_pos hw] at hsnoc
      exact Or.inl ⟨congrArg Except.ok hw, hsnoc⟩
    · rw [if_neg hw] at hsnoc
      exact Or.inr ⟨fun heq => hw (Except.ok.inj heq), hsnoc⟩

theorem safe_offer (h : Ledger s ch) : Safe pipeAccess ledgerTerms s
    (fun outcome _ ch' => full ch'.pipe.writes = due frame s outcome) (offer frame) made ch := by
  rw [offer_eq]
  intro ch' hr
  have h' : full ch'.pipe.writes = s.wrote := ledgerTerms.between_stable _ _ _ h hr
  refine ⟨h', fun _ => ⟨trivial, ?_⟩⟩
  change full (ch'.write frame).2.pipe.writes = due frame s (outcome frame (ch'.write frame).1)
  rcases write_full frame ch' with ⟨hreply, hfull⟩ | ⟨hreply, hfull⟩
  · rw [hfull, h', hreply, outcome, if_pos rfl]
    rfl
  · rw [hfull, h', due_of_part hreply]

theorem safe_writeFrame (h : Ledger s ch) : Safe pipeAccess ledgerTerms s
    (fun outcome _ ch' => full ch'.pipe.writes = due frame s outcome) (writeFrame frame) made
    ch := by
  apply safe_ask (by simp) h
  intro pipeSz made₁ ch₁ h₁
  split
  · apply safe_ask (by simp) h₁
    intro queued made₂ ch₂ h₂
    cases queued with
    | none => exact safe_offer h₂
    | some queued =>
      dsimp only
      split
      · exact h₂
      · exact safe_offer h₂
  · exact safe_offer h₁

theorem safe_startWrite (h : Ledger s ch) : Safe pipeAccess ledgerTerms s (Ends ledgerTerms s)
    (startWrite frame s) [] ch := by
  rw [startWrite]
  split
  · refine safe_bind (safe_mono (fun outcome made' ch' h' => ?_) (safe_writeFrame h))
    cases outcome with
    | wrote => exact ⟨h', trivial⟩
    | dropped => exact ⟨h', trivial⟩
    | readerGone =>
      apply safe_ask (by simp) h'
      intro _ _ ch'' h''
      exact ⟨h'', trivial⟩
  · exact ⟨h, trivial⟩

end Ledger

section Runs

def AllWhole (p : Pipe) : Prop := ∀ w ∈ p.writes, w.Whole

theorem holds_run (r : Run) (t : ℕ) :
    Holds pipeAccess ledgerTerms (r.state t).thread (r.state t).channel := by
  induction t with
  | zero => exact holds_rest (congrArg full r.opened)
  | succ t ih =>
    have hstate : r.state (t + 1) = next (r.event t) (r.state t) := rfl
    rw [hstate]
    cases r.event t with
    | hand frame => exact (holds_invoke ih fun s hs => safe_startWrite hs).1
    | forward behaviour =>
      have hnow : Holds pipeAccess ledgerTerms (r.state t).thread
          { (r.state t).channel with behaviour := behaviour } := holds_env ih rfl
      rcases busy_or_rest (r.state t).thread with hb | ⟨s, hs⟩
      · exact (holds_access hnow hb trivial).1
      · simp only [next, access_rest hs]
        exact hnow
    | drain k => exact holds_env ih rfl
    | resize count => exact holds_env ih (Pipe.resize_writes count _)
    | readers present => exact holds_env ih rfl

/-- At every instant the frames written are those that the pipe took in full. -/
theorem ledger_run (r : Run) (t : ℕ) : Ledger (r.session t) (r.state t).channel := by
  by_cases hb : (r.state t).thread.Busy
  · exact holds_during (holds_run r t) hb
  · exact (holds_between (holds_run r t) hb).2

theorem write_whole_iff (bytes : List UInt8) (ch : Channel) :
    AllWhole (ch.write bytes).2.pipe ↔ AllWhole ch.pipe ∧ ch.Meets bytes.length := by
  rcases write_cases bytes ch with ⟨e, hwrite, hwhy⟩ | ⟨hwrite, hworks, hthere, _⟩
  · rw [hwrite]
    refine (and_iff_left ?_).symm
    rcases hwhy with hfails | hgone | hnone
    · exact Or.inl hfails
    · exact Or.inr (Or.inl hgone)
    · exact Or.inr (Or.inr ((ch.pipe.taken_whole_iff _ _).mp (Or.inl hnone)))
  · have hmeets : ch.Meets bytes.length ↔ ch.pipe.Fits ch.behaviour.room bytes.length := by
      rw [Channel.Meets, or_iff_right hworks, or_iff_right hthere]
    have hwhole : (ch.pipe.takes ch.behaviour.room bytes).Whole ↔
        ch.pipe.Fits ch.behaviour.room bytes.length := ch.pipe.taken_whole_iff _ _
    rw [hwrite, hmeets, ← hwhole]
    change (∀ w ∈ ch.pipe.writes ++ [ch.pipe.takes ch.behaviour.room bytes], w.Whole) ↔ _
    rw [List.forall_mem_append, List.forall_mem_singleton]
    rfl

section Step

variable {r : Run} {t : ℕ} {behaviour : Behaviour}

theorem meets_of_event (h : ∀ behaviour, r.event t ≠ .forward behaviour) : r.Meets t :=
  fun behaviour _ _ he _ => absurd he (h behaviour)

theorem meets_of_quiet (h : ∀ bytes k, (r.state t).thread.prog ≠ .act (.write bytes) k) :
    r.Meets t := fun _ bytes k _ hp => absurd hp (h bytes k)

theorem meets_write {bytes : List UInt8} {k : Except Errno ℕ → HostProg Session}
    (he : r.event t = .forward behaviour)
    (hp : (r.state t).thread.prog = .act (.write bytes) k) :
    r.Meets t ↔ Channel.Meets { (r.state t).channel with behaviour := behaviour } bytes.length := by
  constructor
  · intro h
    exact h behaviour bytes k he hp
  · intro h behaviour' bytes' k' he' hp'
    rw [he] at he'
    rw [hp] at hp'
    cases he'
    cases hp'
    exact h

theorem whole_forward (he : r.event t = .forward behaviour) :
    AllWhole (next (.forward behaviour) (r.state t)).channel.pipe ↔
      AllWhole (r.pipeAt t) ∧ r.Meets t := by
  cases hp : (r.state t).thread.prog with
  | ret s =>
    have hmeets : r.Meets t := by
      apply meets_of_quiet
      simp [hp]
    simp only [next, access_rest hp]
    exact (and_iff_left hmeets).symm
  | act op k =>
    simp only [next, access_act hp]
    by_cases hop : ∃ bytes, op = .write bytes
    · obtain ⟨bytes, rfl⟩ := hop
      rw [meets_write he hp]
      exact write_whole_iff bytes { (r.state t).channel with behaviour := behaviour }
    · have hquiet : ∀ bytes, op ≠ .write bytes := fun bytes heq => hop ⟨bytes, heq⟩
      have hmeets : r.Meets t := by
        apply meets_of_quiet
        intro bytes k' hprog
        rw [hp] at hprog
        cases hprog
        exact hquiet bytes rfl
      rw [and_iff_left hmeets, quiet_access hquiet]
      rfl

/-- One step: all writes stay whole just when the step's write meets the pipe. -/
theorem whole_step (r : Run) (t : ℕ) :
    AllWhole (r.pipeAt (t + 1)) ↔ AllWhole (r.pipeAt t) ∧ r.Meets t := by
  have hpipe : r.pipeAt (t + 1) = (next (r.event t) (r.state t)).channel.pipe := rfl
  rw [hpipe]
  cases he : r.event t with
  | hand frame => exact (and_iff_left (meets_of_event (by simp [he]))).symm
  | forward behaviour => exact whole_forward he
  | drain k => exact (and_iff_left (meets_of_event (by simp [he]))).symm
  | resize count =>
    rw [and_iff_left (meets_of_event (by simp [he])), AllWhole, AllWhole]
    have hwrites : ((r.state t).channel.pipe.resize count).writes = (r.pipeAt t).writes :=
      Pipe.resize_writes count _
    change (∀ w ∈ ((r.state t).channel.pipe.resize count).writes, w.Whole) ↔ _
    rw [hwrites]
  | readers present => exact (and_iff_left (meets_of_event (by simp [he]))).symm

end Step

theorem whole_iff (r : Run) (t : ℕ) : AllWhole (r.pipeAt t) ↔ ∀ u < t, r.Meets u := by
  induction t with
  | zero =>
    refine iff_of_true (fun w hw => ?_) fun u hu => absurd hu (Nat.not_lt_zero u)
    rw [show (r.pipeAt 0).writes = [] from r.opened] at hw
    exact absurd hw List.not_mem_nil
  | succ t ih =>
    rw [whole_step, ih]
    exact Nat.forall_lt_succ_right.symm

/-- The stream is one of whole frames just when every write met the pipe. -/
theorem framed_iff (r : Run) (t : ℕ) : r.Framed t ↔ ∀ u < t, r.Meets u := by
  have hledger : full (r.pipeAt t).writes = (r.session t).wrote := ledger_run r t
  rw [Run.Framed, ← hledger, put_eq_full_iff]
  exact whole_iff r t

end Runs

section Paged

structure Measured (ch : Channel) : Prop where
  pages : Paged ch.pipe.slots
  slot : 0 < ch.pipe.slotCount
  size : ch.behaviour.sizeFails = false
  queued : ch.behaviour.queuedFails = false

def pagedTerms : Terms HostOp Channel Session where
  rely := fun ch ch' => (Measured ch → Measured ch') ∧ ch.pipe.free ≤ ch'.pipe.free ∧
    ch.pipe.slotCount ≤ ch'.pipe.slotCount
  allow := fun _ _ _ => True
  guar := fun ch ch' => AllWhole ch.pipe → AllWhole ch'.pipe
  during := fun _ _ => Measured
  between := fun _ => Measured
  follows := fun _ _ => True
  rely_refl := fun _ => ⟨id, Nat.le_refl _, Nat.le_refl _⟩
  rely_trans := fun _ _ _ h h' => ⟨h'.1 ∘ h.1, h.2.1.trans h'.2.1, h.2.2.trans h'.2.2⟩
  between_stable := fun _ _ _ h hr => hr.1 h

variable {s : Session} {ch : Channel} {made : List HostOp} {frame : List UInt8}

theorem measured_write (h : Measured ch) (hpage : page ∣ frame.length) :
    Measured (ch.write frame).2 := by
  rcases write_cases frame ch with ⟨e, hwrite, -⟩ | ⟨hwrite, -⟩
  · rw [hwrite]
    exact h
  · rw [hwrite]
    exact ⟨paged_write h.pages hpage, h.slot, h.size, h.queued⟩

/-- There are free slots for the frame, and nobody but the thread takes one. -/
theorem safe_offer_paged (h : Measured ch) (hpage : page ∣ frame.length)
    (hroom : frame.length ≤ ch.pipe.free * page) : Safe pipeAccess pagedTerms s
      (fun _ _ => Measured) (offer frame) made ch := by
  rw [offer_eq]
  intro ch' hr
  have h' : Measured ch' := hr.1 h
  refine ⟨h', fun _ => ⟨fun hwhole => ?_, measured_write h' hpage⟩⟩
  have hfree := Nat.mul_le_mul_right page hr.2.1
  exact (write_whole_iff frame ch').mpr ⟨hwhole, Or.inr (Or.inr (Or.inr (Or.inr (by omega))))⟩

theorem lasting_measured : Lasting pagedTerms s Measured :=
  ⟨fun _ _ h hr => hr.1 h, fun _ _ h => h, fun _ => id⟩

theorem safe_writeFrame_paged (h : Measured ch) (hpage : page ∣ frame.length) :
    Safe pipeAccess pagedTerms s (fun _ _ => Measured) (writeFrame frame) made ch := by
  apply safe_look lasting_measured (fun _ => rfl) h
  intro made₁ ch₁ _ h₁
  have hsize : (pipeAccess .getPipeSize ch₁).1 = (ch₁.pipe.size : ℤ) := if_neg (by simp [h₁.size])
  rw [hsize]
  split
  · apply safe_look lasting_measured (fun _ => rfl) h₁
    intro made₂ ch₂ hr h₂
    have hqueued : (pipeAccess .fionread ch₂).1 = some ch₂.pipe.queued :=
      if_neg (by simp [h₂.queued])
    rw [hqueued]
    dsimp only
    split
    · exact h₂
    · have hgrown : ch₁.pipe.size ≤ ch₂.pipe.size := Nat.mul_le_mul_right page hr.2.2
      exact safe_offer_paged h₂ hpage (free_paged h₂.pages hpage (by omega))
  next hnone =>
    have hpos : 0 < ch₁.pipe.size := Nat.mul_pos h₁.slot (by decide)
    omega

theorem safe_startWrite_paged (h : Measured ch) (hpage : page ∣ frame.length) :
    Safe pipeAccess pagedTerms s (Ends pagedTerms s) (startWrite frame s) [] ch := by
  rw [startWrite]
  split
  · refine safe_bind (safe_mono (fun outcome made' ch' h' => ?_) (safe_writeFrame_paged h hpage))
    cases outcome with
    | wrote => exact ⟨h', trivial⟩
    | dropped => exact ⟨h', trivial⟩
    | readerGone =>
      apply safe_look lasting_measured (fun _ => rfl) h'
      intro _ ch'' _ h''
      exact ⟨h'', trivial⟩
  · exact ⟨h, trivial⟩

/-- Frames of whole pages, into a pipe of whole pages that only grows, and every call that
measures the pipe works. -/
structure Run.Paged (r : Run) : Prop where
  pages : PagePipe.Paged r.pipe.slots
  slot : 0 < r.pipe.slotCount
  frames : ∀ t frame, r.event t = .hand frame → page ∣ frame.length
  grows : ∀ t count, r.event t = .resize count → (r.pipeAt t).slotCount ≤ count
  measures : ∀ t behaviour, r.event t = .forward behaviour →
    behaviour.sizeFails = false ∧ behaviour.queuedFails = false

def Channel.measuring (ch : Channel) : Channel :=
  { ch with behaviour := ⟨false, false, ch.behaviour.writeFails, ch.behaviour.room⟩ }

theorem rely_measuring (ch : Channel) : pagedTerms.rely ch ch.measuring :=
  ⟨fun h => ⟨h.pages, h.slot, rfl, rfl⟩, Nat.le_refl _, Nat.le_refl _⟩

theorem rely_pipe {ch : Channel} {pipe : Pipe} (hpages : Paged ch.pipe.slots → Paged pipe.slots)
    (hfree : ch.pipe.free ≤ pipe.free) (hcount : ch.pipe.slotCount ≤ pipe.slotCount) :
    pagedTerms.rely ch { ch with pipe := pipe } :=
  ⟨fun h => ⟨hpages h.pages, h.slot.trans_le hcount, h.size, h.queued⟩, hfree, hcount⟩

theorem resize_grows {p : Pipe} {count : ℕ} (h : p.slotCount ≤ count) :
    p.resize count = { p with slotCount := count, within := p.within.trans h } :=
  dif_pos (p.within.trans h)

theorem paged_run (r : Run) (h : r.Paged) (t : ℕ) :
    Holds pipeAccess pagedTerms (r.state t).thread (r.state t).channel.measuring ∧
      AllWhole (r.pipeAt t) := by
  induction t with
  | zero =>
    refine ⟨holds_rest ⟨h.pages, h.slot, rfl, rfl⟩, fun w hw => ?_⟩
    rw [show (r.pipeAt 0).writes = [] from r.opened] at hw
    exact absurd hw List.not_mem_nil
  | succ t ih =>
    obtain ⟨hholds, hwhole⟩ := ih
    have hstate : r.state (t + 1) = next (r.event t) (r.state t) := rfl
    rw [Run.pipeAt, hstate]
    cases he : r.event t with
    | hand frame =>
      have hpage := h.frames t frame he
      exact ⟨(holds_invoke hholds fun s hs => safe_startWrite_paged hs hpage).1, hwhole⟩
    | forward behaviour =>
      obtain ⟨hsize, hqueued⟩ := h.measures t behaviour he
      have hnow : Holds pipeAccess pagedTerms (r.state t).thread
          { (r.state t).channel with behaviour := behaviour } := by
        apply holds_env hholds
        exact ⟨fun h => ⟨h.pages, h.slot, hsize, hqueued⟩, Nat.le_refl _, Nat.le_refl _⟩
      rcases busy_or_rest (r.state t).thread with hb | ⟨s, hs⟩
      · obtain ⟨hafter, hguar, -⟩ := holds_access hnow hb trivial
        exact ⟨holds_env hafter (rely_measuring _), hguar hwhole⟩
      · simp only [next, access_rest hs]
        exact ⟨holds_env hnow (rely_measuring _), hwhole⟩
    | drain k =>
      refine ⟨holds_env hholds (rely_pipe (paged_drained k) ?_ (Nat.le_refl _)), hwhole⟩
      exact Nat.sub_le_sub_left (drained_length_le k _) _
    | resize count =>
      have hgrows : (r.state t).channel.pipe.slotCount ≤ count := h.grows t count he
      change Holds _ _ _ (Channel.measuring { (r.state t).channel with
        pipe := (r.state t).channel.pipe.resize count }) ∧
          AllWhole ((r.state t).channel.pipe.resize count)
      rw [resize_grows hgrows]
      exact ⟨holds_env hholds (rely_pipe id (Nat.sub_le_sub_right hgrows _) hgrows), hwhole⟩
    | readers present =>
      exact ⟨holds_env hholds (rely_pipe id (Nat.le_refl _) (Nat.le_refl _)), hwhole⟩

/-- Where frames and pipe are whole pages, to check the free bytes is to check the free slots,
and the stream is one of whole frames. -/
theorem framed_paged (r : Run) (h : r.Paged) (t : ℕ) : r.Framed t ∧ ∀ u < t, r.Meets u := by
  have hwhole := (paged_run r h t).2
  refine ⟨?_, (whole_iff r t).mp hwhole⟩
  have hledger : full (r.pipeAt t).writes = (r.session t).wrote := ledger_run r t
  rw [Run.Framed, ← hledger, put_eq_full_iff]
  exact hwhole

end Paged

section Split

/-- The calls that measure the pipe work, and a write may top up the last slot with the part
of a frame of 38400 bytes that fills no page. -/
def working : Behaviour := ⟨false, false, false, 38400 % page⟩

theorem forward_act {ch : Channel} {s : Session} {made : List HostOp} {op : HostOp}
    {k : op.Reply → HostProg Session} {behaviour : Behaviour} :
    next (.forward behaviour) ⟨ch, settle s made (.act op k)⟩ =
      ⟨(pipeAccess op { ch with behaviour := behaviour }).2,
        settle s (op :: made) (k (pipeAccess op { ch with behaviour := behaviour }).1)⟩ := rfl

theorem call_alone {frame : List UInt8} {ch : Channel} {s : Session} (hopen : s.connected = true)
    (hreaders : ch.pipe.readers = true) (hsize : 0 < ch.pipe.size)
    (hroom : frame.length + ch.pipe.queued ≤ ch.pipe.size)
    (htaken : ch.pipe.taken working.room frame.length ≠ 0) :
    next (.forward working) (next (.forward working) (next (.forward working)
        (next (.hand frame) ⟨ch, .rest s⟩))) =
      ⟨{ ch with pipe := ch.pipe.write working.room frame, behaviour := working },
        .rest (if ch.pipe.taken working.room frame.length = frame.length
          then { s with wrote := s.wrote ++ [frame] }
          else { s with dropped := s.dropped + 1 })⟩ := by
  have hpositive : (0 : ℤ) < ch.pipe.size := by exact_mod_cast hsize
  have hfits : ¬ (ch.pipe.size : ℤ) - ch.pipe.queued < frame.length := by omega
  have hhand : next (.hand frame) ⟨ch, .rest s⟩ = ⟨ch, settle s [] (forwardFrame frame s)⟩ := by
    simp [next, Party.invoke, Party.rest, startWrite, hopen]
  have hsized : pipeAccess .getPipeSize { ch with behaviour := working } =
      ((ch.pipe.size : ℤ), { ch with behaviour := working }) := rfl
  have hqueued : pipeAccess .fionread { ch with behaviour := working } =
      (some ch.pipe.queued, { ch with behaviour := working }) := rfl
  have hwrite : pipeAccess (.write frame) { ch with behaviour := working } =
      (.ok (ch.pipe.taken working.room frame.length),
        { ch with pipe := ch.pipe.write working.room frame, behaviour := working }) := by
    have hworks : ¬ working.writeFails = true := by decide
    simp [pipeAccess, Channel.write, hreaders, htaken, hworks]
  rw [hhand, forwardFrame, writeFrame, bind_assoc]
  simp only [call, perform_bind, forward_act, hsized, hqueued, hpositive, if_true, hfits,
    if_false, offer_eq, act_bind, ret_bind]
  rw [hwrite]
  by_cases hfull : ch.pipe.taken working.room frame.length = frame.length
  · simp only [outcome, if_pos hfull]
    rfl
  · simp only [outcome, if_neg hfull]
    rfl

def emptyPipe : Pipe := ⟨[], 16, by decide, true, []⟩

def splitRun (frame : List UInt8) : Run where
  world := ⟨fun _ => 0, ⟨true, true, 0, none, .ok 0⟩, 0, 0⟩
  pipe := emptyPipe
  opened := rfl
  behaviour := working
  event t := [.hand frame, .forward working, .forward working, .forward working, .drain 11264,
    .hand frame, .forward working, .forward working, .forward working].getD t (.drain 0)

theorem getD_mem {α : Type} (l : List α) (t : ℕ) (d : α) : l.getD t d ∈ d :: l := by
  rw [List.getD_eq_getElem?_getD]
  cases h : l[t]? with
  | none => exact List.mem_cons_self
  | some a => exact List.mem_cons_of_mem _ (List.mem_of_getElem? h)

theorem splitRun_paged {frame : List UInt8} (hpage : page ∣ frame.length) :
    (splitRun frame).Paged := by
  have hevent : ∀ t, (splitRun frame).event t ∈ _ := fun t => getD_mem _ t _
  have hslot : 0 < emptyPipe.slotCount := by decide
  refine ⟨trivial, hslot, fun t frame' he => ?_, fun t count he => ?_, fun t behaviour he => ?_⟩
  · have hsame : frame' = frame := by simpa [he] using hevent t
    exact hsame ▸ hpage
  · exact absurd (hevent t) (by simp [he])
  · have hsame : behaviour = working := by simpa [he] using hevent t
    exact hsame ▸ ⟨rfl, rfl⟩

/-- With frames of whole pages the same steps split nothing. -/
example {frame : List UInt8} (hpage : page ∣ frame.length) (t : ℕ) : (splitRun frame).Framed t :=
  (framed_paged _ (splitRun_paged hpage) t).1

theorem splitRun_first {frame : List UInt8} (hlength : frame.length = 38400) :
    (splitRun frame).state 4 = ⟨⟨(splitRun frame).world, emptyPipe.write working.room frame,
      working⟩, .rest ⟨true, 0, [frame]⟩⟩ := by
  have hsize : 0 < emptyPipe.size := by decide
  have hroom : frame.length + emptyPipe.queued ≤ emptyPipe.size := by
    rw [hlength]
    decide
  have hfull : emptyPipe.taken working.room frame.length = frame.length := by
    rw [hlength]
    decide
  have hcall := @call_alone frame ⟨(splitRun frame).world, emptyPipe, working⟩ ⟨true, 0, []⟩ rfl rfl
    hsize hroom (by rw [hfull, hlength]; decide)
  rw [if_pos hfull] at hcall
  exact hcall

def halfRead (frame : List UInt8) : Pipe := (emptyPipe.write working.room frame).drain 11264

theorem halfRead_measures {frame : List UInt8} (hlength : frame.length = 38400) :
    (halfRead frame).size = 65536 ∧ (halfRead frame).queued = 27136 ∧
      (halfRead frame).taken working.room frame.length = 34304 := by
  have hslots : (halfRead frame).slots = ⟨4096, 1024, by decide, by decide⟩ ::
      (List.replicate 6 (Slot.fresh page (Nat.le_refl page)) ++ [Slot.fresh 1536 (by decide)]) := by
    change drained 11264 (topped (emptyPipe.topUp working.room frame.length) [] ++
      pages (emptyPipe.fresh working.room frame.length)) = _
    rw [hlength]
    decide +kernel
  have hcount : (halfRead frame).slotCount = 16 := rfl
  have hfree : (halfRead frame).free = 8 := by rw [Pipe.free, hslots, hcount]; rfl
  have hroom : (halfRead frame).room = 2560 := by rw [Pipe.room, hslots]; rfl
  refine ⟨?_, ?_, ?_⟩
  · rw [Pipe.size, hcount]
    rfl
  · rw [Pipe.queued, hslots]
    rfl
  · rw [Pipe.taken, Pipe.fresh, Pipe.topUp, hroom, hfree, hlength]
    decide

theorem splitRun_second {frame : List UInt8} (hlength : frame.length = 38400) :
    (splitRun frame).state 9 = ⟨⟨(splitRun frame).world, (halfRead frame).write working.room frame,
      working⟩, .rest ⟨true, 1, [frame]⟩⟩ := by
  obtain ⟨hsize, hqueued, htaken⟩ := halfRead_measures hlength
  have hcall := @call_alone frame ⟨(splitRun frame).world, halfRead frame, working⟩
    ⟨true, 0, [frame]⟩ rfl rfl (by rw [hsize]; decide) (by rw [hsize, hqueued, hlength])
    (by rw [htaken]; decide)
  rw [htaken, if_neg (by rw [hlength]; decide)] at hcall
  have hdrain : (splitRun frame).state 5 = next (.drain 11264) ((splitRun frame).state 4) := rfl
  have hbefore : (splitRun frame).state 5 =
      ⟨⟨(splitRun frame).world, halfRead frame, working⟩, .rest ⟨true, 0, [frame]⟩⟩ := by
    rw [hdrain, splitRun_first hlength]
    rfl
  have hsteps : (splitRun frame).state 9 = next (.forward working) (next (.forward working)
    (next (.forward working) (next (.hand frame) ((splitRun frame).state 5)))) := rfl
  rw [hsteps, hbefore]
  exact hcall

theorem splitRun_put {frame : List UInt8} (hlength : frame.length = 38400) :
    put ((splitRun frame).pipeAt 9).writes = frame ++ frame.take 34304 := by
  have hfirst : (emptyPipe.takes working.room frame).bytes = frame := by
    apply bytes_full
    change emptyPipe.taken working.room frame.length = frame.length
    rw [hlength]
    decide
  have hsecond : ((halfRead frame).takes working.room frame).bytes = frame.take 34304 :=
    congrArg frame.take (halfRead_measures hlength).2.2
  rw [Run.pipeAt, splitRun_second hlength]
  change put [emptyPipe.takes working.room frame, (halfRead frame).takes working.room frame] = _
  rw [put_cons, put_cons, hfirst, hsecond]
  exact congrArg (frame ++ ·) (List.append_nil _)

/-- The second frame is counted as dropped, and a part of it is in the stream. -/
theorem frame_split : ¬ (splitRun (List.replicate 38400 0)).Framed 9 ∧
    ¬ 38400 ∣ (put ((splitRun (List.replicate 38400 0)).pipeAt 9).writes).length := by
  have hframe := @List.length_replicate UInt8 38400 0
  have hlength : (put ((splitRun (List.replicate 38400 0)).pipeAt 9).writes).length = 72704 := by
    rw [splitRun_put hframe, List.length_append, List.length_take, List.length_replicate]
    rfl
  have hsession : (splitRun (List.replicate 38400 0)).session 9 =
      ⟨true, 1, [List.replicate 38400 0]⟩ := by
    rw [Run.session, splitRun_second hframe]
    rfl
  constructor
  · intro hframed
    have hsame := congrArg List.length hframed
    rw [hlength, hsession, List.flatten_cons, List.length_append, List.length_replicate] at hsame
    exact absurd hsame (by decide)
  · rw [hlength]
    decide

end Split

end PipeFraming
