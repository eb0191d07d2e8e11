import Lalah.VideoKeepAlive

/-! The two threads of the video keep-alive: the owner spawns the worker, waits for its report and
joins it in the end. The report goes over a channel of one place, the order to stop over a
flag. -/
namespace KeepAliveHandshake

open InteractionProgram CallProtocol VideoKeepAlive
open DeviceWalk hiding permits after protocol

section System

/-- The thread that calls `start`, and in the end drops what it was given: the last three are
inside `shutdown`, and behind it. -/
inductive Owner where
  | spawning | receiving
  | joining (err : String)
  | failed (err : String)
  | holding (name : String)
  | storing | reaping | dropped
  deriving DecidableEq

structure State where
  owner : Owner
  thread : Option (Party WorkerOp WorkerOp.Reply Point)
  graph : Graph
  stop : Bool
  channel : Option (Except String String)

/-- `owner` is the next step of the owner, with what a spawn returns; `drop` the end of what it
holds; `worker` the next step of the worker, with what its call returns. -/
inductive Event where
  | owner (spawned : Except String Unit)
  | drop
  | worker (reply : (op : WorkerOp) → op.Reply)

def State.ended (s : State) : Bool :=
  match s.thread with
  | some ⟨_, _, .ret .done⟩ => true
  | _ => false

/-- A receive waits for the report, or for the end of the thread that holds the sender; a join
waits for the end of the thread. -/
def State.own (s : State) (spawned : Except String Unit) : State :=
  match s.owner with
  | .spawning =>
    match spawned with
    | .error err => { s with owner := .failed ("spawn video thread: " ++ err) }
    | .ok () => { s with owner := .receiving, thread := some (.rest .opening) }
  | .receiving =>
    match s.channel with
    | some (.ok name) => { s with owner := .holding name, channel := none }
    | some (.error err) => { s with owner := .joining err, channel := none }
    | none =>
      if s.ended then
        { s with owner := .joining "video keep-alive thread exited before reporting" }
      else s
  | .joining err => if s.ended then { s with owner := .failed err } else s
  | .storing => { s with owner := .reaping, stop := true }
  | .reaping => if s.ended then { s with owner := .dropped } else s
  | .failed _ | .holding _ | .dropped => s

def State.drop (s : State) : State :=
  match s.owner with
  | .holding _ => { s with owner := .storing }
  | _ => s

variable (cfg : Config)

def State.answer (s : State) (reply : (op : WorkerOp) → op.Reply) : (op : WorkerOp) → op.Reply
  | .loadStop => s.stop
  | op => reply op

def State.post (s : State) : WorkerOp → Option (Except String String)
  | .send report => some report
  | _ => s.channel

def State.full (s : State) : WorkerOp → Bool
  | .send _ => s.channel.isSome
  | _ => false

def State.work (s : State) (reply : (op : WorkerOp) → op.Reply) : State :=
  match s.thread with
  | none => s
  | some p =>
    match p.prog with
    | .ret _ => { s with thread := some (p.invoke (worker cfg)) }
    | .act op k =>
      if s.full op then s
      else
        { s with
          thread := some (settle p.ctl (op :: p.made) (k (s.answer reply op)))
          graph := after cfg op (s.answer reply op) s.graph
          channel := s.post op }

def next : Event → State → State
  | .owner spawned, s => s.own spawned
  | .drop, s => s.drop
  | .worker reply, s => s.work cfg reply

end System

structure Run where
  cfg : Config
  event : ℕ → Event

def Run.state (r : Run) : ℕ → State
  | 0 => ⟨.spawning, none, blank, false, none⟩
  | t + 1 => next r.cfg (r.event t) (r.state t)

section Handshake

def State.pending (s : State) : Option WorkerOp := s.thread.bind fun p => p.prog.pending

def Knows (s : State) : Owner → Prop
  | .spawning => s.thread = none ∧ s.stop = false
  | .receiving => s.thread.isSome ∧ s.channel = s.graph.report ∧ s.stop = false
  | .joining err => s.thread.isSome ∧ s.channel = none ∧ s.graph.report = some (.error err)
  | .failed err =>
    (s.thread = none ∧ ∃ spawn, err = "spawn video thread: " ++ spawn) ∨
      (s.ended = true ∧ s.graph.report = some (.error err))
  | .holding name => s.thread.isSome ∧ s.channel = none ∧ s.graph.report = some (.ok name) ∧
      s.stop = false
  | .storing => s.thread.isSome ∧ s.channel = none ∧ (∃ name, s.graph.report = some (.ok name)) ∧
      s.stop = false
  | .reaping => s.thread.isSome ∧ s.channel = none ∧ (∃ name, s.graph.report = some (.ok name)) ∧
      s.stop = true
  | .dropped => s.ended = true ∧ s.channel = none ∧ (∃ name, s.graph.report = some (.ok name)) ∧
      s.stop = true

structure Handshake (cfg : Config) (s : State) : Prop where
  unborn : s.thread = none → s.graph = blank ∧ s.channel = none
  abides : ∀ p, s.thread = some p → Abides (protocol cfg) (Between cfg) p s.graph
  sound : Sound cfg s.graph
  told : s.graph.told = true → s.stop = true
  knows : Knows s s.owner

variable {cfg : Config} {s : State} {r : Run} {t : ℕ}

theorem report_after {op : WorkerOp} (reply : op.Reply) (g : Graph)
    (h : ∀ report, op ≠ .send report) : (after cfg op reply g).report = g.report := by
  cases op with
  | send report => exact absurd rfl (h report)
  | request q => rcases (reply : Except Hresult Unit) with err | ⟨⟩ <;> cases q <;> rfl
  | getEvent => rcases (reply : Except Hresult Int32) with err | code <;> rfl
  | _ => rfl

theorem told_after {op : WorkerOp} (reply : (op : WorkerOp) → op.Reply)
    (htold : s.graph.told = true → s.stop = true)
    (h : (after cfg op (s.answer reply op) s.graph).told = true) : s.stop = true := by
  cases op with
  | loadStop => exact h
  | request q =>
    apply htold
    revert h
    simp only [State.answer]
    rcases (reply (.request q) : Except Hresult Unit) with err | ⟨⟩ <;> cases q <;> exact id
  | getEvent =>
    apply htold
    revert h
    simp only [State.answer]
    rcases (reply .getEvent : Except Hresult Int32) with err | code <;> exact id
  | _ => exact htold h

theorem ended_iff : s.ended = true ↔ ∃ p, s.thread = some p ∧ p.prog = .ret .done := by
  unfold State.ended
  split
  next c made hp => simp [hp]
  next hno =>
    constructor
    · exact nofun
    · rintro ⟨⟨c, made, prog⟩, hp, rfl⟩
      exact absurd hp (hno c made)

theorem not_ended {p : Party WorkerOp WorkerOp.Reply Point} {op : WorkerOp}
    {k : op.Reply → WorkerProg Point} (hp : s.thread = some p) (hop : p.prog = .act op k) :
    ¬ s.ended = true := by
  intro hended
  obtain ⟨q, hq, hdone⟩ := ended_iff.mp hended
  obtain rfl := Option.some.inj (hp.symm.trans hq)
  simp [hop] at hdone

theorem Handshake.finished (h : Handshake cfg s) (hended : s.ended = true) : Finished s.graph := by
  obtain ⟨p, hp, hprog⟩ := ended_iff.mp hended
  have habides := h.abides p hp
  rwa [Abides, hprog] at habides

theorem handshake_own (h : Handshake cfg s) (spawned : Except String Unit) :
    Handshake cfg (s.own spawned) := by
  obtain ⟨hunborn, habides, hsound, htold, hknows⟩ := id h
  unfold State.own
  cases howner : s.owner with
  | spawning =>
    rw [howner] at hknows
    obtain ⟨hthread, hstop⟩ := hknows
    obtain ⟨hgraph, hchannel⟩ := hunborn hthread
    cases spawned with
    | error err => exact ⟨hunborn, habides, hsound, htold, Or.inl ⟨hthread, err, rfl⟩⟩
    | ok u =>
      refine ⟨nofun, fun p hp => ?_, hsound, htold, rfl, ?_, hstop⟩
      · obtain rfl := Option.some.inj hp
        exact hgraph
      · rw [hchannel, hgraph]
        rfl
  | receiving =>
    rw [howner] at hknows
    obtain ⟨hthread, hchannel, hstop⟩ := hknows
    have hborn : s.thread ≠ none := Option.isSome_iff_ne_none.mp hthread
    dsimp only
    split
    next name hname =>
      exact ⟨fun hnone => absurd hnone hborn, habides, hsound, htold, hthread, rfl,
        hchannel.symm.trans hname, hstop⟩
    next err herr =>
      exact ⟨fun hnone => absurd hnone hborn, habides, hsound, htold, hthread, rfl,
        hchannel.symm.trans herr⟩
    next hnone =>
      have hreport : s.graph.report = none := hchannel.symm.trans hnone
      split
      next hended =>
        rcases (h.finished hended).report with ⟨err, herr⟩ | ⟨⟨name, hname⟩, _⟩
        · simp [hreport] at herr
        · simp [hreport] at hname
      next => exact h
  | joining err =>
    rw [howner] at hknows
    dsimp only
    split
    next hended =>
      exact ⟨hunborn, habides, hsound, htold, Or.inr ⟨hended, hknows.2.2⟩⟩
    next => exact h
  | storing =>
    rw [howner] at hknows
    obtain ⟨hthread, hchannel, hreport, _⟩ := hknows
    exact ⟨hunborn, habides, hsound, fun _ => rfl, hthread, hchannel, hreport, rfl⟩
  | reaping =>
    rw [howner] at hknows
    dsimp only
    split
    next hended => exact ⟨hunborn, habides, hsound, htold, hended, hknows.2⟩
    next => exact h
  | _ => exact h

theorem handshake_drop (h : Handshake cfg s) : Handshake cfg s.drop := by
  obtain ⟨hunborn, habides, hsound, htold, hknows⟩ := id h
  unfold State.drop
  split
  next name howner =>
    rw [howner] at hknows
    obtain ⟨hthread, hchannel, hreport, hstop⟩ := hknows
    exact ⟨hunborn, habides, hsound, htold, hthread, hchannel, ⟨name, hreport⟩, hstop⟩
  next => exact h

theorem knows_quiet {s' : State} {owner : Owner} (h : Knows s owner) (hthread : s.thread.isSome)
    (hthread' : s'.thread.isSome) (hchannel : s'.channel = s.channel)
    (hreport : s'.graph.report = s.graph.report) (hstop : s'.stop = s.stop)
    (hended : s.ended = true → s'.ended = true) : Knows s' owner := by
  have hborn : s.thread ≠ none := Option.isSome_iff_ne_none.mp hthread
  cases owner with
  | spawning => exact absurd h.1 hborn
  | failed err =>
    rcases h with ⟨hnone, _⟩ | ⟨hend, hfailed⟩
    · exact absurd hnone hborn
    · exact Or.inr ⟨hended hend, hreport.trans hfailed⟩
  | dropped =>
    simp only [Knows, hchannel, hreport, hstop]
    exact ⟨hended h.1, h.2⟩
  | _ =>
    simp only [Knows, hchannel, hreport, hstop]
    exact ⟨hthread', h.2⟩

theorem owner_receiving (hthread : s.thread.isSome) (hended : ¬ s.ended = true)
    (hreport : s.graph.report = none) (h : Knows s s.owner) : s.owner = .receiving := by
  have hborn : s.thread ≠ none := Option.isSome_iff_ne_none.mp hthread
  cases howner : s.owner with
  | receiving => rfl
  | spawning =>
    rw [howner] at h
    exact absurd h.1 hborn
  | failed err =>
    rw [howner] at h
    rcases h with ⟨hnone, _⟩ | ⟨hend, _⟩
    · exact absurd hnone hborn
    · exact absurd hend hended
  | dropped =>
    rw [howner] at h
    exact absurd h.1 hended
  | _ => simp [howner, Knows, hreport] at h

theorem handshake_work (h : Handshake cfg s) (reply : (op : WorkerOp) → op.Reply) :
    Handshake cfg (s.work cfg reply) := by
  obtain ⟨hunborn, habides, hsound, htold, hknows⟩ := id h
  unfold State.work
  split
  next => exact h
  next p hp =>
    have hthread : s.thread.isSome := by rw [hp]; rfl
    split
    next c hc =>
      refine ⟨nofun, fun p' hp' => ?_, hsound, htold, ?_⟩
      · obtain rfl := Option.some.inj hp'
        exact abides_invoke (habides p hp) obeys_worker
      · apply knows_quiet hknows hthread
        · rfl
        · rfl
        · rfl
        · rfl
        · intro hended
          obtain ⟨q, hq, hdone⟩ := ended_iff.mp hended
          obtain rfl := Option.some.inj (hp.symm.trans hq)
          exact ended_iff.mpr ⟨_, rfl, by rw [invoke_rest hdone, settle_prog]; rfl⟩
    next op k hop =>
      split
      · exact h
      next hroom =>
      obtain ⟨hpermits, hrest⟩ := abides_act (habides p hp) hop
      have hended := not_ended hp hop
      refine ⟨nofun, fun p' hp' => ?_, sound_after _ hpermits hsound, told_after reply htold, ?_⟩
      · obtain rfl := Option.some.inj hp'
        exact hrest _ _ _
      by_cases hsend : ∀ report, op ≠ .send report
      · apply knows_quiet hknows hthread
        · rfl
        · cases op with
          | send report => exact absurd rfl (hsend report)
          | _ => rfl
        · exact report_after _ _ hsend
        · rfl
        · exact fun hend => absurd hend hended
      · push Not at hsend
        obtain ⟨report, rfl⟩ := hsend
        have hnone : s.graph.report = none := by
          rcases report with err | name
          · exact hpermits.1
          · exact hpermits.1
        have howner := owner_receiving hthread hended hnone hknows
        rw [howner] at hknows
        change Knows _ s.owner
        rw [howner]
        exact ⟨rfl, rfl, hknows.2.2⟩

theorem handshake_run (r : Run) (t : ℕ) : Handshake r.cfg (r.state t) := by
  induction t with
  | zero => exact ⟨fun _ => ⟨rfl, rfl⟩, nofun, sound_blank, nofun, rfl, rfl⟩
  | succ t ih =>
    have hstate : r.state (t + 1) = next r.cfg (r.event t) (r.state t) := rfl
    rw [hstate]
    cases r.event t with
    | owner spawned => exact handshake_own ih spawned
    | drop => exact handshake_drop ih
    | worker reply => exact handshake_work ih reply

theorem own_graph (s : State) (spawned : Except String Unit) : (s.own spawned).graph = s.graph := by
  unfold State.own
  split
  · split <;> rfl
  · split
    · rfl
    · rfl
    · split <;> rfl
  · split <;> rfl
  · rfl
  · split <;> rfl
  · rfl
  · rfl
  · rfl

theorem drop_graph (s : State) : s.drop.graph = s.graph := by
  unfold State.drop
  split <;> rfl

/-- No event that halts the graph is freed at this step. -/
def Run.Calm (r : Run) (t : ℕ) : Prop :=
  ∀ code, (r.state t).pending = some (.freeEventParams code) → halting code = false

theorem stranded_next (h : Stranded (r.state t).graph) (hcalm : r.Calm t) :
    Stranded (r.state (t + 1)).graph := by
  have hstate : r.state (t + 1) = next r.cfg (r.event t) (r.state t) := rfl
  rw [hstate]
  cases r.event t with
  | owner spawned =>
    change Stranded ((r.state t).own spawned).graph
    rwa [own_graph]
  | drop =>
    change Stranded (r.state t).drop.graph
    rwa [drop_graph]
  | worker reply =>
    simp only [next, State.work]
    split
    next => exact h
    next p hp =>
      split
      next => exact h
      next op k hop =>
        split
        · exact h
        · obtain ⟨hpermits, _⟩ := abides_act ((handshake_run r t).abides p hp) hop
          refine stranded_after _ hpermits (fun code hcode => hcalm code ?_) h
          rw [State.pending, hp, Option.bind_some, hop, ← hcode]
          rfl

theorem stranded_run {u : ℕ} (htu : t ≤ u) (h : Stranded (r.state t).graph)
    (hcalm : ∀ v, t ≤ v → v < u → r.Calm v) : Stranded (r.state u).graph := by
  induction u, htu using Nat.le_induction with
  | base => exact h
  | succ u htu ih =>
    have hbefore := ih fun v htv hvu => hcalm v htv (by omega)
    exact stranded_next hbefore (hcalm u htu (Nat.lt_succ_self u))

/-- The calls of the worker, and what the owner has to do with them, in every order of steps and
with every reply: each call is permitted, and the report never waits; the owner that was given
a name has the graph of the first device that matches, which runs, is between the stop and the run
of a restart, or has lost its last run, and then stands still until an event halts it again; the
one that was given an error has no thread any more, and no graph that runs; and behind the drop
both are gone. -/
theorem keep_alive_handshake (r : Run) (t : ℕ) :
    (∀ op, (r.state t).pending = some op → permits r.cfg op (r.state t).graph ∧
      (r.state t).full op = false) ∧
    (∀ name, (r.state t).owner = .holding name → (r.state t).thread.isSome ∧
      (r.state t).ended = false ∧ Rendered r.cfg (r.state t).graph name ∧
      ((r.state t).graph.running = true ∨ (r.state t).graph.lost = true ∨
        (r.state t).graph.due = .run) ∧
      ((r.state t).graph.running = false → (r.state t).graph.due = .nothing →
        ∀ u, t ≤ u → (∀ v, t ≤ v → v < u → r.Calm v) → (r.state u).graph.running = false)) ∧
    (∀ err, (r.state t).owner = .failed err → (r.state t).graph.running = false ∧
      (((r.state t).thread = none ∧ ∃ spawn, err = "spawn video thread: " ++ spawn) ∨
        ((r.state t).ended = true ∧ ∃ hr, err = openError r.cfg hr))) ∧
    ((r.state t).owner = .dropped → (r.state t).ended = true ∧
      (r.state t).graph.running = false ∧ (r.state t).graph.due = .ended) := by
  have h := handshake_run r t
  have hknows := h.knows
  refine ⟨fun op hop => ?_, fun name howner => ?_, fun err howner => ?_, fun howner => ?_⟩
  · obtain ⟨p, hp, hpending⟩ := Option.bind_eq_some_iff.mp hop
    obtain ⟨k, hk⟩ := pending_eq_some.mp hpending
    have hpermits := (abides_act (h.abides p hp) hk).1
    refine ⟨hpermits, ?_⟩
    cases op with
    | send report =>
      have hnone : (r.state t).graph.report = none := by
        rcases report with err | name
        · exact hpermits.1
        · exact hpermits.1
      have howner := owner_receiving (by simp [hp]) (not_ended hp hk) hnone hknows
      rw [howner] at hknows
      simp [State.full, hknows.2.1, hnone]
    | _ => rfl
  · rw [howner] at hknows
    obtain ⟨hsome, _, hreport, hstop⟩ := hknows
    have hrunning : (r.state t).graph.due ≠ .ended := by
      intro hdue
      simp [h.told (h.sound.ended hdue).1] at hstop
    refine ⟨hsome, ?_, h.sound.opened name hreport, ?_, fun hstopped hdue u htu hcalm => ?_⟩
    · rw [Bool.eq_false_iff]
      intro hended
      rcases (h.finished hended).report with ⟨err, herr⟩ | ⟨_, hdue, _⟩
      · simp [hreport] at herr
      · exact hrunning hdue
    · simpa [hrunning] using h.sound.alive name hreport
    · have hstranded : Stranded (r.state t).graph :=
        ⟨⟨name, hreport⟩, hstopped, hdue ▸ nofun, hdue ▸ nofun⟩
      exact (stranded_run htu hstranded hcalm).stopped
  · rw [howner] at hknows
    rcases hknows with ⟨hnone, hspawn⟩ | ⟨hended, hreport⟩
    · refine ⟨?_, Or.inl ⟨hnone, hspawn⟩⟩
      rw [(h.unborn hnone).1]
      rfl
    · exact ⟨(h.finished hended).running, Or.inr ⟨hended, (h.sound.failed err hreport).2.2.2⟩⟩
  · rw [howner] at hknows
    obtain ⟨hended, _, ⟨name, hreport⟩, _⟩ := hknows
    have hfinished := h.finished hended
    refine ⟨hended, hfinished.running, ?_⟩
    rcases hfinished.report with ⟨err, herr⟩ | ⟨_, hdue, _⟩
    · simp [hreport] at herr
    · exact hdue

end Handshake

section Progress

/-- How many steps of its own a worker with the order to stop is from its end. -/
def remains (g : Graph) : WorkerProg Point → ℕ
  | .ret .done => 0
  | .ret _ => 3
  | .act .loadStop _ => 2
  | .act _ _ => if g.told then 1 else 7 - g.calls

def State.left (s : State) : ℕ :=
  match s.thread with
  | none => 0
  | some p => remains s.graph p.prog

variable {cfg : Config} {g : Graph} {s : State} {r : Run} {t n : ℕ}

theorem permits_turn {op : WorkerOp} {name : String} (h : Sound cfg g)
    (hreport : g.report = some (.ok name)) (hop : permits cfg op g) :
    (op = .loadStop ∧ g.due = .nothing) ∨ (op = .stop ∧ g.due = .nothing ∧ g.told = true) ∨
      (op ≠ .loadStop ∧ g.told = false ∧ g.calls < 4 ∧
        ∀ reply, (after cfg op reply g).told = false ∧
          (after cfg op reply g).calls = g.calls + 1) := by
  have hobeyed := h.obeyed
  cases op with
  | loadStop => exact Or.inl ⟨rfl, hop.2.1⟩
  | getEvent =>
    refine Or.inr (Or.inr ⟨?_, hop.2.2.1, hop.2.2.2, fun reply => ?_⟩)
    · simp
    rcases (reply : Except Hresult Int32) with err | code <;> exact ⟨hop.2.2.1, rfl⟩
  | sleep ms =>
    exact Or.inr (Or.inr ⟨by simp, hop.2.2.1, hop.2.2.2, fun _ => ⟨hop.2.2.1, rfl⟩⟩)
  | freeEventParams code =>
    have htold : g.told = false := by simpa [hop.1] using hobeyed
    exact Or.inr (Or.inr ⟨by simp, htold, hop.2, fun _ => ⟨htold, rfl⟩⟩)
  | stop =>
    rcases hop with ⟨hdue, hcalls⟩ | ⟨hdue, htold⟩
    · have htold : g.told = false := by simpa [hdue] using hobeyed
      exact Or.inr (Or.inr ⟨by simp, htold, hcalls, fun _ => ⟨htold, rfl⟩⟩)
    · exact Or.inr (Or.inl ⟨rfl, hdue, htold⟩)
  | request q =>
    obtain ⟨rfl, hdue, hcalls⟩ : q = .run ∧ g.due = .run ∧ g.calls < 4 := by
      simpa [permits, hreport] using hop
    have htold : g.told = false := by simpa [hdue] using hobeyed
    refine Or.inr (Or.inr ⟨by simp, htold, hcalls, fun reply => ?_⟩)
    rcases (reply : Except Hresult Unit) with err | ⟨⟩ <;> exact ⟨htold, rfl⟩
  | send report => rcases report with err | name <;> simp [permits, hreport] at hop
  | _ => simp [permits, hreport] at hop

theorem remains_le (g : Graph) (p : WorkerProg Point) : remains g p ≤ 7 := by
  unfold remains
  split
  · omega
  · omega
  · omega
  · split <;> omega

theorem remains_turn {p : WorkerProg Point} (htold : g.told = false) (hcalls : g.calls ≤ 4) :
    remains g p ≤ 7 - g.calls := by
  unfold remains
  split
  · omega
  · omega
  · omega
  · rw [htold]
    exact Nat.le_refl _

theorem between_report {c : Point} {name : String} (hreport : g.report = some (.ok name))
    (h : Between cfg c g) :
    c = .keeping ∧ g.due = .nothing ∧ g.told = false ∨ c = .done ∧ g.due = .ended := by
  cases c with
  | opening =>
    obtain rfl : g = blank := h
    cases hreport
  | walking chosen =>
    obtain ⟨seen, _, rfl⟩ := h
    cases hreport
  | keeping => exact Or.inl ⟨rfl, h.due, h.told⟩
  | done =>
    rcases h.report with ⟨err, herr⟩ | ⟨_, hdue, _⟩
    · simp [hreport] at herr
    · exact Or.inr ⟨rfl, hdue⟩

theorem remains_told {p : WorkerProg Point} {name : String} (hreport : g.report = some (.ok name))
    (htold : g.told = true) (h : Obeys (protocol cfg) (Between cfg) p g) : remains g p ≤ 1 := by
  cases p with
  | ret c =>
    rcases between_report hreport h with ⟨_, _, hfalse⟩ | ⟨rfl, _⟩
    · simp [htold] at hfalse
    · exact Nat.zero_le _
  | act op k =>
    cases op with
    | loadStop =>
      obtain ⟨⟨_, _, hfalse⟩, _⟩ := h
      simp [htold] at hfalse
    | _ => simp [remains, htold]

theorem remains_ended {p : WorkerProg Point} {name : String}
    (hreport : g.report = some (.ok name)) (hsound : Sound cfg g) (hdue : g.due = .ended)
    (h : Obeys (protocol cfg) (Between cfg) p g) : remains g p = 0 := by
  cases p with
  | ret c =>
    rcases between_report hreport h with ⟨_, hnothing, _⟩ | ⟨rfl, _⟩
    · simp [hdue] at hnothing
    · rfl
  | act op k => exact absurd h.1 (permits_ended hsound hdue)

theorem remains_act {op : WorkerOp} {k : op.Reply → WorkerProg Point} (h : op ≠ .loadStop) :
    remains g (.act op k) = if g.told then 1 else 7 - g.calls := by
  cases op with
  | loadStop => exact absurd rfl h
  | _ => rfl

/-- A call of a worker that has the order to stop. -/
theorem remains_after {op : WorkerOp} {k : op.Reply → WorkerProg Point} {name : String}
    {reply : op.Reply} (hsound : Sound cfg g) (hreport : g.report = some (.ok name))
    (h : Obeys (protocol cfg) (Between cfg) (.act op k) g)
    (hstop : ∀ g', op = .loadStop → (after cfg op reply g').told = true) :
    remains (after cfg op reply g) (k reply) < remains g (.act op k) := by
  obtain ⟨hpermits, hrest⟩ := h
  have hquiet : ∀ report, op ≠ .send report := by
    rintro report rfl
    rcases report with err | other <;> simp [protocol, permits, hreport] at hpermits
  have hstay : (after cfg op reply g).report = some (.ok name) := by
    rw [report_after reply g hquiet, hreport]
  have hsound' := sound_after reply hpermits hsound
  rcases permits_turn hsound hreport hpermits with ⟨rfl, _⟩ | ⟨rfl, hdue, htold⟩ |
    ⟨hother, htold, hcalls, hturn⟩
  · exact Nat.lt_succ_of_le (remains_told hstay (hstop g rfl) (hrest reply))
  · have hend : (after cfg .stop reply g).due = .ended := if_neg (by simp [hdue])
    have hlast := @remains_act g .stop k (by simp)
    rw [remains_ended hstay hsound' hend (hrest reply), hlast, htold]
    exact Nat.one_pos
  · obtain ⟨htold', hcalls'⟩ := hturn reply
    have hle := @remains_turn (after cfg op reply g) (k reply) htold' (by omega)
    rw [remains_act hother, htold]
    refine hle.trans_lt ?_
    rw [hcalls']
    exact Nat.sub_lt_sub_left (by omega) (Nat.lt_succ_self _)

/-- Each step of its own brings a worker with the order to stop nearer to its end. -/
theorem left_work (h : Handshake cfg s) {name : String}
    (hreport : s.graph.report = some (.ok name)) (hstop : s.stop = true)
    (reply : (op : WorkerOp) → op.Reply) :
    s.ended = true ∨ (s.work cfg reply).left < s.left := by
  cases hthread : s.thread with
  | none =>
    rw [(h.unborn hthread).1] at hreport
    cases hreport
  | some p =>
    have habides := h.abides p hthread
    rcases busy_or_rest p with ⟨op, k, hop⟩ | ⟨c, hc⟩
    · rw [Abides, hop] at habides
      have hroom : s.full op = false := by
        cases op with
        | send report =>
          have hpermits := habides.1
          rcases report with err | other <;> simp [protocol, permits, hreport] at hpermits
        | _ => rfl
      have hless := @remains_after cfg s.graph op k name (s.answer reply op) h.sound hreport
        habides (by rintro g' rfl; exact hstop)
      right
      simpa [State.left, State.work, hthread, hop, hroom] using hless
    · rw [Abides, hc] at habides
      rcases between_report hreport habides with ⟨rfl, _⟩ | ⟨rfl, _⟩
      · right
        simp only [State.left, State.work, hthread, hc, invoke_rest hc, settle_prog]
        exact Nat.lt_succ_self 2
      · exact Or.inl (ended_iff.mpr ⟨p, hthread, hc⟩)

def Run.worked (r : Run) (t : ℕ) : ℕ → ℕ
  | 0 => 0
  | n + 1 => r.worked t n + match r.event (t + n) with | .worker _ => 1 | _ => 0

def Leaving (s : State) : Prop := s.owner = .reaping ∨ s.owner = .dropped

theorem Leaving.ordered (hleaving : Leaving s) (h : Handshake cfg s) :
    s.stop = true ∧ ∃ name, s.graph.report = some (.ok name) := by
  have hknows := h.knows
  rcases hleaving with howner | howner
  · rw [howner] at hknows
    exact ⟨hknows.2.2.2, hknows.2.2.1⟩
  · rw [howner] at hknows
    exact ⟨hknows.2.2.2, hknows.2.2.1⟩

theorem leaving_own (h : Leaving s) (spawned : Except String Unit) :
    Leaving (s.own spawned) ∧ (s.own spawned).thread = s.thread ∧
      (s.own spawned).graph = s.graph := by
  rcases h with howner | howner
  · simp only [State.own, howner]
    split
    · exact ⟨Or.inr rfl, rfl, rfl⟩
    · exact ⟨Or.inl howner, rfl, rfl⟩
  · have hsame : s.own spawned = s := by simp only [State.own, howner]
    rw [hsame]
    exact ⟨Or.inr howner, rfl, rfl⟩

theorem leaving_drop (h : Leaving s) : s.drop = s := by
  rcases h with howner | howner <;> simp only [State.drop, howner]

theorem owner_work (reply : (op : WorkerOp) → op.Reply) :
    (s.work cfg reply).owner = s.owner := by
  unfold State.work
  split
  · rfl
  split
  · rfl
  split <;> rfl

theorem ended_work (hended : s.ended = true) (reply : (op : WorkerOp) → op.Reply) :
    (s.work cfg reply).ended = true := by
  obtain ⟨p, hp, hdone⟩ := ended_iff.mp hended
  simp only [State.work, hp, hdone]
  exact ended_iff.mpr ⟨_, rfl, by rw [invoke_rest hdone, settle_prog]; rfl⟩

/-- The worker comes to its end at the pace of its steps. -/
theorem leaving_run (r : Run) (h : Leaving (r.state t)) (n : ℕ) :
    Leaving (r.state (t + n)) ∧
      ((r.state (t + n)).ended = true ∨ (r.state (t + n)).left + r.worked t n ≤ 7) := by
  induction n with
  | zero =>
    have hle : (r.state t).left ≤ 7 := by
      unfold State.left
      split
      · omega
      · exact remains_le _ _
    exact ⟨h, Or.inr hle⟩
  | succ n ih =>
    obtain ⟨hleaving, hpace⟩ := ih
    have hshake := handshake_run r (t + n)
    obtain ⟨hstop, name, hreport⟩ := hleaving.ordered hshake
    have hstate : r.state (t + (n + 1)) = next r.cfg (r.event (t + n)) (r.state (t + n)) := rfl
    rw [hstate, Run.worked]
    cases r.event (t + n) with
    | owner spawned =>
      obtain ⟨hnext, hthread, hgraph⟩ := leaving_own hleaving spawned
      refine ⟨hnext, ?_⟩
      simp only [next, State.ended, State.left, hthread, hgraph]
      exact hpace
    | drop =>
      simp only [next, leaving_drop hleaving]
      exact ⟨hleaving, hpace⟩
    | worker reply =>
      refine ⟨hleaving.imp (owner_work reply).trans (owner_work reply).trans, ?_⟩
      rcases hpace with hended | hle
      · exact Or.inl (ended_work hended reply)
      · rcases left_work hshake hreport hstop reply with hended | hless
        · exact Or.inl (ended_work hended reply)
        · right
          simp only [next]
          omega

/-- A drop never hangs: whatever the calls return, the worker has ended when it has made eight
more steps, and the join returns. -/
theorem drop_returns (r : Run) {t n : ℕ} (howner : (r.state t).owner = .reaping)
    (hworked : 8 ≤ r.worked t n) : (r.state (t + n)).ended = true ∧
      ∀ spawned, ((r.state (t + n)).own spawned).owner = .dropped := by
  obtain ⟨hleaving, hpace⟩ := leaving_run r (Or.inl howner) n
  have hended : (r.state (t + n)).ended = true := hpace.resolve_right (by omega)
  refine ⟨hended, fun spawned => ?_⟩
  rcases hleaving with howner | howner
  · simp only [State.own, howner, hended, if_true]
  · simp only [State.own, howner]

def obliging (walked : Bool) : (op : WorkerOp) → op.Reply
  | .walk .createClassEnumerator => (sOk, true)
  | .walk .next => if walked then (sFalse, none) else (sOk, some 7)
  | .walk (.read _) => .ok (⟨vtBstr, "Live Gamer"⟩ : Variant)
  | .walk .createDevEnum | .walk .createBindCtx | .walk (.bindToStorage _)
  | .walk (.bindToObject _) | .request _ => .ok ()
  | .loadStop => false
  | .getEvent => .error eFail
  | .walk .variantClear | .coInitializeEx | .send _ | .freeEventParams _ | .stop | .sleep _ => ()

def promptDrop : Run where
  cfg := ⟨⟨id, some "Gamer"⟩, true, fun _ => ""⟩
  event t :=
    if t = 0 ∨ t = 23 ∨ t = 25 then .owner (.ok ()) else if t = 24 then .drop
    else .worker (obliging (8 < t))

theorem drop_returns_prompt : (promptDrop.state 34).ended = true ∧
    ∀ spawned, ((promptDrop.state 34).own spawned).owner = .dropped :=
  @drop_returns promptDrop 26 8 (by decide +kernel) (by decide +kernel)

end Progress

end KeepAliveHandshake
