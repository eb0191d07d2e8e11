import Lalah.FrameContent
import Lalah.PipeFraming

/-! Producer, ring, video thread and FIFO as one system. A run of it is a run of the video
thread whose system calls are answered by the pipe, so what was proved of all answers holds;
and what the pipe is offered are frames of the producer, in order, none of them twice. -/
namespace VideoPipeline

open InteractionProgram RelyGuarantee ByteMemory ShmContract ShmVideoContract VideoRing
  VideoForwarder FrameOrder FrameContent PagePipe PipeFraming

section Model

/-- `found` is what the next open finds; the history of the pipe starts there. -/
structure Fifo where
  channel : Channel
  found : Pipe

def Fifo.opened (f : Fifo) : Fifo where
  channel := { f.channel with
    world := (hostAccess .openFifo f.channel.world).2
    pipe := if f.channel.world.answer.opened = true then { f.found with writes := [] }
      else f.channel.pipe }
  found := f.found

def fifoAccess : (op : HostOp) → Fifo → op.Reply × Fifo
  | .openFifo, f => (f.channel.world.answer.opened, f.opened)
  | op, f => ((pipeAccess op f.channel).1, { f with channel := (pipeAccess op f.channel).2 })

structure State where
  fifo : Fifo
  producer : Party Access Access.Reply (List (List UInt8))
  thread : Party HostOp HostOp.Reply VideoThread

/-- The producer pushes, the thread makes its next call, and the reader of the FIFO takes
bytes, resizes the pipe, goes or comes. -/
inductive Event where
  | push (src : List UInt8)
  | produce
  | forward (answer : Answer) (behaviour : Behaviour) (found : Pipe)
  | drain (k : ℕ)
  | resize (count : ℕ)
  | readers (present : Bool)

def State.setMemory (s : State) (mem : Memory) (completed : ℕ) : State :=
  { s with fifo.channel.world := { s.fifo.channel.world with mem := mem, completed := completed } }

def State.setPipe (s : State) (pipe : Pipe) : State :=
  { s with fifo.channel.pipe := pipe }

def Fifo.facing (f : Fifo) (answer : Answer) (behaviour : Behaviour) (found : Pipe) : Fifo where
  channel := ⟨{ f.channel.world with answer := answer }, f.channel.pipe, behaviour⟩
  found := found

def next (buf : ShmVideoBuffer) (cfg : Config) : Event → State → State
  | .push src, s =>
    let p := s.producer.invoke (startPush buf src)
    { s with producer := p }.setMemory s.fifo.channel.world.mem p.ctl.length
  | .produce, s =>
    let (p, m) := s.producer.access access s.fifo.channel.world.mem
    { s with producer := p }.setMemory m p.ctl.length
  | .forward answer behaviour found, s =>
    let (thread, fifo) :=
      s.thread.advance fifoAccess (runVideo cfg) (s.fifo.facing answer behaviour found)
    { s with thread := thread, fifo := fifo }
  | .drain k, s => s.setPipe (s.fifo.channel.pipe.drain k)
  | .resize count, s => s.setPipe (s.fifo.channel.pipe.resize count)
  | .readers present, s => s.setPipe { s.fifo.channel.pipe with readers := present }

structure Run where
  handle : ShmVideoBuffer
  vf : VideoFormat
  before : Memory
  buf : ShmVideoBuffer
  slots : ℕ
  start : Memory
  published : (handle.setGeometry vf).run access before = ((buf, .ok slots), start)
  attached : ShmVideoBuffer
  sameRegion : attached.hdr = handle.hdr
  cfg : Config
  answer : Answer
  pipe : Pipe
  unwritten : pipe.writes = []
  behaviour : Behaviour
  event : ℕ → Event

def Run.state (r : Run) : ℕ → State
  | 0 => ⟨⟨⟨⟨r.start, r.answer, 0, 0⟩, r.pipe, r.behaviour⟩, r.pipe⟩, .rest [],
      .rest ⟨.geometry, r.attached, [], false, 0, 0, []⟩⟩
  | t + 1 => next r.buf r.cfg (r.event t) (r.state t)

def Run.pushed (r : Run) (t : ℕ) : List (List UInt8) := (r.state t).producer.ctl

def Run.thread (r : Run) (t : ℕ) : VideoThread := (r.state t).thread.ctl

def Run.writes (r : Run) (t : ℕ) : List Taken := (r.state t).fifo.channel.pipe.writes

def Run.frame (r : Run) (t k : ℕ) : List UInt8 := padded r.buf ((r.pushed t).getD k [])

end Model

section Refinement

/-- The same parties over the same region; the answers that are left there do not matter. -/
structure Refines (s : State) (q : VideoForwarder.State) : Prop where
  producer : q.producer = s.producer
  thread : q.thread = s.thread
  world : ∃ answer, q.world = { s.fifo.channel.world with answer := answer }

variable {s : State} {q : VideoForwarder.State} {buf : ShmVideoBuffer} {cfg : Config}

theorem write_world (bytes : List UInt8) (ch : Channel) :
    (ch.write bytes).2.world = ch.world := by
  rcases write_cases bytes ch with ⟨e, hwrite, _⟩ | ⟨hwrite, _⟩
  · rw [hwrite]
  · rw [hwrite]

theorem call_answered (op : HostOp) (f : Fifo) : ∃ answer answer',
    (hostAccess op { f.channel.world with answer := answer }).1 = (fifoAccess op f).1 ∧
    (hostAccess op { f.channel.world with answer := answer }).2 =
      { (fifoAccess op f).2.channel.world with answer := answer' } := by
  cases op with
  | getPipeSize =>
    refine ⟨{ f.channel.world.answer with pipeSize := (fifoAccess .getPipeSize f).1 }, _, rfl, rfl⟩
  | fionread =>
    refine ⟨{ f.channel.world.answer with queued := (fifoAccess .fionread f).1 }, _, rfl, rfl⟩
  | write bytes =>
    have hworld : (fifoAccess (.write bytes) f).2.channel.world = f.channel.world :=
      write_world bytes f.channel
    rw [hworld]
    exact ⟨{ f.channel.world.answer with written := (fifoAccess (.write bytes) f).1 }, _, rfl, rfl⟩
  | _ => exact ⟨f.channel.world.answer, f.channel.world.answer, rfl, rfl⟩

/-- A step of the system is one of producer and video thread, or it moves neither. -/
theorem refines_next (h : Refines s q) (e : Event) :
    Refines (next buf cfg e s) q ∨
      ∃ e', Refines (next buf cfg e s) (VideoForwarder.next buf cfg e' q) := by
  obtain ⟨hproducer, hthread, answer₀, hworld⟩ := h
  obtain ⟨w, p, v⟩ := q
  dsimp only at hproducer hthread hworld
  subst hproducer hthread hworld
  cases e with
  | push src => exact Or.inr ⟨.push src, rfl, rfl, answer₀, rfl⟩
  | produce => exact Or.inr ⟨.produce, rfl, rfl, answer₀, rfl⟩
  | forward answer behaviour found =>
    rcases busy_or_rest s.thread with ⟨op, k, hk⟩ | ⟨c, hc⟩
    · obtain ⟨answer₁, answer₂, hreply, hafter⟩ :=
        call_answered op (s.fifo.facing answer behaviour found)
      refine Or.inr ⟨.forward answer₁, rfl, ?_, answer₂, ?_⟩
      · simp only [VideoForwarder.next, next, advance_busy ⟨op, k, hk⟩, access_act hk]
        exact congrArg (fun reply => settle s.thread.ctl (op :: s.thread.made) (k reply)) hreply
      · simp only [VideoForwarder.next, next, advance_busy ⟨op, k, hk⟩, access_act hk]
        exact hafter
    · refine Or.inr ⟨.forward answer, rfl, ?_, answer, ?_⟩
      · simp only [VideoForwarder.next, next, advance_rest hc]
      · simp only [VideoForwarder.next, next, advance_rest hc]
        rfl
  | drain k => exact Or.inl ⟨rfl, rfl, answer₀, rfl⟩
  | resize count => exact Or.inl ⟨rfl, rfl, answer₀, rfl⟩
  | readers present => exact Or.inl ⟨rfl, rfl, answer₀, rfl⟩

def Run.over (r : Run) (events : List VideoForwarder.Event) : VideoForwarder.Run where
  handle := r.handle
  vf := r.vf
  before := r.before
  buf := r.buf
  slots := r.slots
  start := r.start
  published := r.published
  attached := r.attached
  sameRegion := r.sameRegion
  cfg := r.cfg
  answer := r.answer
  event t := events.getD t .produce

theorem over_prefix (r : Run) (events : List VideoForwarder.Event) (e : VideoForwarder.Event)
    {n : ℕ} (h : n ≤ events.length) :
    (r.over (events ++ [e])).state n = (r.over events).state n := by
  induction n with
  | zero => rfl
  | succ n ih =>
    have hevent : (r.over (events ++ [e])).event n = (r.over events).event n :=
      List.getD_append _ _ _ _ h
    change VideoForwarder.next _ _ ((r.over (events ++ [e])).event n) _ = _
    rw [hevent, ih (by omega)]
    rfl

theorem over_snoc (r : Run) (events : List VideoForwarder.Event) (e : VideoForwarder.Event) :
    (r.over (events ++ [e])).state (events ++ [e]).length =
      VideoForwarder.next r.buf r.cfg e ((r.over events).state events.length) := by
  have hevent : (r.over (events ++ [e])).event events.length = e := by
    simp [Run.over]
  rw [List.length_append, List.length_singleton]
  change VideoForwarder.next _ _ ((r.over (events ++ [e])).event events.length) _ = _
  rw [hevent, over_prefix r events e (Nat.le_refl _)]
  rfl

/-- Every state of the system is one of producer and video thread, and the pipe besides. -/
theorem run_refines (r : Run) (t : ℕ) :
    ∃ events, Refines (r.state t) ((r.over events).state events.length) := by
  induction t with
  | zero => exact ⟨[], rfl, rfl, r.answer, rfl⟩
  | succ t ih =>
    obtain ⟨events, hrefines⟩ := ih
    rcases @refines_next _ _ r.buf r.cfg hrefines (r.event t) with hstay | ⟨e, hstep⟩
    · exact ⟨events, hstay⟩
    · refine ⟨events ++ [e], ?_⟩
      rw [over_snoc]
      exact hstep

end Refinement

section Frames

variable {r : Run} {t u : ℕ}

theorem pushed_step (r : Run) (t : ℕ) : r.pushed t <+: r.pushed (t + 1) := by
  obtain ⟨events, hrefines⟩ := run_refines r t
  have hbefore : r.pushed t = ((r.over events).state events.length).producer.ctl := by
    rw [hrefines.producer]
    rfl
  rcases @refines_next _ _ r.buf r.cfg hrefines (r.event t) with hstay | ⟨e, hstep⟩
  · have hafter : r.pushed (t + 1) = r.pushed t := by
      rw [hbefore, hstay.producer]
      rfl
    rw [hafter]
  · have hafter : r.pushed (t + 1) = (VideoForwarder.next r.buf r.cfg e
        ((r.over events).state events.length)).producer.ctl := by
      rw [hstep.producer]
      rfl
    rw [hbefore, hafter]
    exact (invariant_next (geometry (r.over events)) (invariant_run _ _) e).2

theorem pushed_mono (h : t ≤ u) : r.pushed t <+: r.pushed u := prefix_of_steps (pushed_step r) h

end Frames

section Stream

variable (buf : ShmVideoBuffer) (all : List (List UInt8))

/-- The pipe was offered frames with some of these numbers, in this order. -/
def Offered (numbers : List ℕ) (f : Fifo) : Prop :=
  ∃ ks, List.Sublist ks numbers ∧
    f.channel.pipe.writes.map Taken.offered = ks.map (shown buf all)

/-- The numbers of the frames that may be in the pipe: the last one handed is still to come
where its `write_frame` is. -/
def ready (v : VideoThread) : List ℕ :=
  if v.point = .writing then v.handed.dropLast else v.handed

def streamTerms : Terms HostOp Fifo VideoThread where
  rely f f' := f'.channel.pipe.writes = f.channel.pipe.writes
  allow := fun _ _ _ => True
  guar := fun _ _ => True
  during v _ f := Offered buf all v.handed f
  between v f := Offered buf all (ready v) f
  follows := fun _ _ => True
  rely_refl := fun _ => rfl
  rely_trans := fun _ _ _ h h' => h'.trans h
  between_stable := by
    rintro v f f' ⟨ks, hsub, hwrites⟩ hr
    exact ⟨ks, hsub, hr ▸ hwrites⟩

variable {buf all} {c : VideoThread} {made : List HostOp} {α : Type} {f f' : Fifo}
  {numbers : List ℕ} {frame : List UInt8} {newest : ℕ}

def NoWrite (op : HostOp) : Prop := ∀ bytes, op ≠ .write bytes

theorem offered_mono {more : List ℕ} (hsub : List.Sublist numbers more)
    (h : Offered buf all numbers f) : Offered buf all more f := by
  obtain ⟨ks, hks, hwrites⟩ := h
  exact ⟨ks, hks.trans hsub, hwrites⟩

theorem offered_quiet {op : HostOp} (hop : NoWrite op) (h : Offered buf all numbers f) :
    Offered buf all numbers (fifoAccess op f).2 := by
  obtain ⟨ks, hks, hwrites⟩ := h
  cases op with
  | write bytes => exact absurd rfl (hop bytes)
  | openFifo =>
    cases hopened : f.channel.world.answer.opened with
    | true => exact ⟨[], List.nil_sublist _, by simp [fifoAccess, Fifo.opened, hopened]⟩
    | false => exact ⟨ks, hks, by simpa [fifoAccess, Fifo.opened, hopened] using hwrites⟩
  | _ => exact ⟨ks, hks, hwrites⟩

theorem safe_unwritten {p : HostProg α} {F : α → Prop} (hnumbers : List.Sublist numbers c.handed)
    (hp : p.Ensures (fun _ _ => True) NoWrite F) (h : Offered buf all numbers f) :
    Safe fifoAccess (streamTerms buf all) c (fun a _ f => F a ∧ Offered buf all numbers f) p
      made f := by
  refine safe_ensures (I := fun _ => Offered buf all numbers) (fun _ _ => trivial) ?_ hp h
  rintro made f f' ⟨ks, hks, hwrites⟩ hr
  have hoffered : Offered buf all numbers f' := ⟨ks, hks, hr ▸ hwrites⟩
  exact ⟨offered_mono hnumbers hoffered, fun op hop => ⟨trivial, offered_quiet hop hoffered⟩⟩

theorem offered_write (hlast : c.handed.getLast? = some newest) (hframe : frame = shown buf all newest)
    (h : Offered buf all c.handed.dropLast f) :
    Offered buf all c.handed (fifoAccess (.write frame) f).2 := by
  obtain ⟨ks, hks, hwrites⟩ := h
  have hhanded : c.handed.dropLast ++ [newest] = c.handed :=
    List.dropLast_append_getLast? newest hlast
  change Offered buf all c.handed { f with channel := (f.channel.write frame).2 }
  rcases write_cases frame f.channel with ⟨e, hwrite, _⟩ | ⟨hwrite, _⟩
  · rw [hwrite]
    exact ⟨ks, hks.trans (List.dropLast_sublist _), hwrites⟩
  · rw [hwrite]
    refine ⟨ks ++ [newest], ?_, ?_⟩
    · rw [← hhanded]
      exact hks.append (List.Sublist.refl _)
    · change (f.channel.pipe.writes ++ [f.channel.pipe.takes f.channel.behaviour.room frame]).map
        Taken.offered = _
      rw [List.map_append, List.map_append, hwrites, hframe]
      rfl

theorem noWrite_call {op : HostOp} (hop : NoWrite op) :
    (call op).Ensures (fun _ _ => True) NoWrite fun _ => True := ⟨hop, fun _ _ => trivial⟩

theorem safe_offer (hlast : c.handed.getLast? = some newest) (hframe : frame = shown buf all newest)
    (h : Offered buf all c.handed.dropLast f) : Safe fifoAccess (streamTerms buf all) c
      (fun _ _ f => Offered buf all c.handed f) (offer frame) made f := by
  rw [offer_eq]
  rintro f' hr
  obtain ⟨ks, hks, hwrites⟩ := h
  have h' : Offered buf all c.handed.dropLast f' := ⟨ks, hks, hr ▸ hwrites⟩
  refine ⟨offered_mono (List.dropLast_sublist _) h', fun _ => ⟨trivial, ?_⟩⟩
  exact offered_write hlast hframe h'

theorem safe_writeFrame (hlast : c.handed.getLast? = some newest)
    (hframe : frame = shown buf all newest) (h : Offered buf all c.handed.dropLast f) :
    Safe fifoAccess (streamTerms buf all) c (fun _ _ f => Offered buf all c.handed f)
      (writeFrame frame) made f := by
  have hdrop : List.Sublist c.handed.dropLast c.handed := List.dropLast_sublist _
  apply safe_bind
  apply safe_mono _ (safe_unwritten hdrop (@noWrite_call .getPipeSize (by simp [NoWrite])) h)
  rintro pipeSz made₁ f₁ ⟨-, h₁⟩
  split
  · apply safe_bind
    apply safe_mono _ (safe_unwritten hdrop (@noWrite_call .fionread (by simp [NoWrite])) h₁)
    rintro queued made₂ f₂ ⟨-, h₂⟩
    cases queued with
    | none => exact safe_offer hlast hframe h₂
    | some queued =>
      dsimp only
      split
      · exact offered_mono hdrop h₂
      · exact safe_offer hlast hframe h₂
  · exact safe_offer hlast hframe h₁

end Stream

section Runs

variable {r : Run} {j t : ℕ}

def Run.Meets (r : Run) (t : ℕ) : Prop := ∀ answer behaviour found bytes k,
  r.event t = .forward answer behaviour found → (r.state t).thread.prog = .act (.write bytes) k →
    Channel.Meets ((r.state t).fifo.facing answer behaviour found).channel bytes.length

end Runs

end VideoPipeline
