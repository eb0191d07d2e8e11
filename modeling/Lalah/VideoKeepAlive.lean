import Lalah.DeviceWalk

/-! The worker of the video keep-alive: it opens a capture graph on the first device that matches,
reports, and keeps the graph running until it is told to stop. What the system replies is free
at every call. -/
namespace VideoKeepAlive

open InteractionProgram CallProtocol DeviceWalk

section Calls

inductive Filter where
  | capture (name : String)
  | nullRenderer
  deriving DecidableEq, Repr

/-- The calls of `open_graph` with a `?` behind them, the walk apart. `renderer` tells whether
the stream is rendered to the null renderer, or to the default one, which opens a window. -/
inductive Request where
  | createGraph | createBuilder | setFiltergraph
  | createNullRenderer | addFilter (f : Filter)
  | renderStream (renderer : Bool)
  | castMediaControl | castMediaEvent | run
  deriving DecidableEq, Repr

inductive WorkerOp where
  | coInitializeEx
  | walk (op : WalkOp)
  | request (r : Request)
  | send (report : Except String String)
  | loadStop
  | getEvent | freeEventParams (code : Int32)
  | stop | sleep (ms : ℕ)

@[reducible] def WorkerOp.Reply : WorkerOp → Type
  | .walk op => op.Reply
  | .request _ => Except Hresult Unit
  | .loadStop => Bool
  | .getEvent => Except Hresult Int32
  | _ => Unit

abbrev WorkerProg := Prog WorkerOp WorkerOp.Reply

def call (op : WorkerOp) : WorkerProg op.Reply := perform op

abbrev Fallible := ExceptT Hresult WorkerProg

def attempt (r : Request) : Fallible Unit := ExceptT.mk (call (.request r))

def walking {α : Type} (p : WalkProg α) : WorkerProg α := p.lift .walk fun _ reply => reply

end Calls

section Worker

structure Config where
  search : Search
  useNullRenderer : Bool
  display : Hresult → String

/-- `open_graph` up to its walk, in it with the device chosen so far, then the loop. -/
inductive Point where
  | opening
  | walking (chosen : Option (Moniker × String))
  | keeping
  | done

variable (cfg : Config)

/-- The renderer that is passed explicitly, so that no window opens. -/
def addRenderer : Fallible Unit :=
  if cfg.useNullRenderer then do
    attempt .createNullRenderer
    attempt (.addFilter .nullRenderer)
  else return

def buildGraph (chosen : Option (Moniker × String)) : Fallible String := do
  match chosen with
  | none => throw eFail
  | some (moniker, name) =>
    ExceptT.mk (walking (DeviceWalk.call (.bindToObject moniker)))
    attempt .createGraph
    attempt .createBuilder
    attempt .setFiltergraph
    attempt (.addFilter (.capture name))
    addRenderer cfg
    attempt (.renderStream cfg.useNullRenderer)
    attempt .castMediaControl
    attempt .castMediaEvent
    attempt .run
    return name

def openError (err : Hresult) : String := "open video device: " ++ cfg.display err

def halting (code : Int32) : Bool :=
  code.toUInt32 = 1 || code.toUInt32 = 3 || code.toUInt32 = 2

def keepAlive : WorkerProg Point := do
  let event : Except Hresult Int32 ← call .getEvent
  match event with
  | .ok code =>
    call (.freeEventParams code)
    if halting code then
      call .stop
      let _ ← call (.request .run)
    return .keeping
  | .error _ =>
    call (.sleep 50)
    return .keeping

def worker : Point → WorkerProg Point
  | .opening => do
    call .coInitializeEx
    match ← walking graphDevices.run with
    | .error err =>
      call (.send (.error (openError cfg err)))
      return .done
    | .ok () => return .walking none
  | .walking chosen => do
    match ← walking graphTurn with
    | some (moniker, name) =>
      if chosen.isNone && cfg.search.isMatch name then return .walking (some (moniker, name))
      else return .walking chosen
    | none =>
      match ← (buildGraph cfg chosen).run with
      | .error err =>
        call (.send (.error (openError cfg err)))
        return .done
      | .ok name =>
        call (.send (.ok name))
        return .keeping
  | .keeping => do
    let told : Bool ← call .loadStop
    if told then
      call .stop
      return .done
    else keepAlive
  | .done => return .done

end Worker

section Protocol

/-- What the loop owes before it may ask for the next event. -/
inductive Due where
  | nothing
  | free (code : Int32)
  | stop | run
  | ended
  deriving DecidableEq

/-- What the calls so far have come to; `made` are the requests that have succeeded, `lost`
tells whether the last run has failed, `calls` counts the calls since the last test of the flag. -/
structure Graph where
  com : Bool
  devices : Devices
  made : List Request
  running : Bool
  lost : Bool
  due : Due
  calls : ℕ
  told : Bool
  report : Option (Except String String)

def blank : Graph := ⟨false, noDevices, [], false, false, .nothing, 0, false, none⟩

variable (cfg : Config)

def requires : Request → List Request
  | .createGraph | .createBuilder | .createNullRenderer => []
  | .setFiltergraph => [.createGraph, .createBuilder]
  | .addFilter (.capture _) => [.createGraph]
  | .addFilter .nullRenderer => [.createGraph, .createNullRenderer]
  | .renderStream true => [.setFiltergraph, .addFilter .nullRenderer]
  | .renderStream false => [.setFiltergraph]
  | .castMediaControl | .castMediaEvent => [.createGraph]
  | .run => [.castMediaControl]

/-- The graph of the first device of all with a matching name, its stream rendered as the
caller asked. -/
structure Rendered (g : Graph) (name : String) : Prop where
  walked : g.devices.walk = .over
  bound : ∃ moniker, g.devices.bound = some (moniker, name) ∧
    cfg.search.first g.devices.seen = some (moniker, name)
  added : .addFilter (.capture name) ∈ g.made
  rendered : .renderStream cfg.useNullRenderer ∈ g.made

def Opens (g : Graph) : Request → Prop
  | .addFilter (.capture name) => ∃ moniker, g.devices.bound = some (moniker, name)
  | .renderStream renderer => renderer = cfg.useNullRenderer
  | .run => ∃ name, Rendered cfg g name
  | _ => True

/-- A report is made once: of the name, when the graph runs, or of an error, when it does not.
Behind it each event is freed before the next, one that halts the graph is answered by a stop
and a run, and the last stop waits for the order; the flag is tested every four calls. -/
def permits : WorkerOp → Graph → Prop
  | .coInitializeEx, g => g.com = false ∧ g.report = none
  | .walk op, g => g.com = true ∧ g.report = none ∧ DeviceWalk.permits cfg.search op g.devices
  | .request r, g =>
    (g.report = none ∧ r ∉ g.made ∧ (∀ q ∈ requires r, q ∈ g.made) ∧ Opens cfg g r) ∨
      (r = .run ∧ g.due = .run ∧ g.calls < 4)
  | .send (.ok name), g => g.report = none ∧ g.running = true ∧ Rendered cfg g name
  | .send (.error err), g => g.report = none ∧ g.running = false ∧ ∃ hr, err = openError cfg hr
  | .loadStop, g => (∃ name, g.report = some (.ok name)) ∧ g.due = .nothing ∧ g.told = false
  | .getEvent, g | .sleep _, g =>
    (∃ name, g.report = some (.ok name)) ∧ g.due = .nothing ∧ g.told = false ∧ g.calls < 4
  | .freeEventParams code, g => g.due = .free code ∧ g.calls < 4
  | .stop, g => g.due = .stop ∧ g.calls < 4 ∨ g.due = .nothing ∧ g.told = true

def after : (op : WorkerOp) → op.Reply → Graph → Graph
  | .coInitializeEx, _, g => { g with com := true }
  | .walk op, reply, g =>
    { g with devices := DeviceWalk.after cfg.search graphEnds (·.bstr) op reply g.devices }
  | .request .run, .ok (), g =>
    { g with
      made := .run :: g.made
      running := true
      lost := false
      due := if g.due = .run then .nothing else g.due
      calls := g.calls + 1 }
  | .request .run, .error _, g =>
    { g with
      lost := true
      due := if g.due = .run then .nothing else g.due
      calls := g.calls + 1 }
  | .request r, .ok (), g => { g with made := r :: g.made }
  | .request _, .error _, g => g
  | .send report, _, g => { g with report := some report, calls := 0 }
  | .loadStop, told, g => { g with told := told, calls := 0 }
  | .getEvent, .ok code, g => { g with due := .free code, calls := g.calls + 1 }
  | .getEvent, .error _, g => { g with calls := g.calls + 1 }
  | .freeEventParams code, _, g =>
    { g with due := if halting code then .stop else .nothing, calls := g.calls + 1 }
  | .stop, _, g =>
    { g with
      running := false
      due := if g.due = .stop then .run else .ended
      calls := g.calls + 1 }
  | .sleep _, _, g => { g with calls := g.calls + 1 }

def protocol : Protocol WorkerOp WorkerOp.Reply Graph := ⟨permits cfg, after cfg⟩

end Protocol

section Obedience

variable (cfg : Config)

structure Keeping (g : Graph) : Prop where
  report : ∃ name, g.report = some (.ok name)
  due : g.due = .nothing
  told : g.told = false

structure Finished (g : Graph) : Prop where
  running : g.running = false
  report : (∃ err, g.report = some (.error err)) ∨
    (∃ name, g.report = some (.ok name)) ∧ g.due = .ended ∧ g.told = true

def walkedPast (seen : List (Moniker × String)) : Graph :=
  { blank with com := true, devices := ⟨true, .going, none, seen, none⟩ }

def Between : Point → Graph → Prop
  | .opening, g => g = blank
  | .walking chosen, g => ∃ seen, chosen = cfg.search.first seen ∧ g = walkedPast seen
  | .keeping, g => Keeping g
  | .done, g => Finished g

variable {cfg} {β : Type} {g : Graph} {E : Except Hresult β → Graph → Prop}

def assembled (seen : List (Moniker × String)) (bound : Option (Moniker × String))
    (made : List Request) : Graph :=
  { blank with com := true, devices := ⟨true, .over, none, seen, bound⟩, made := made }

variable {seen : List (Moniker × String)} {bound : Option (Moniker × String)}
  {made : List Request}

def Fits (made : List Request) (r : Request) : Prop :=
  r ≠ .run ∧ r ∉ made ∧ ∀ q ∈ requires r, q ∈ made

theorem obeys_request {r : Request} {Q : Except Hresult Unit → Graph → Prop} (hfits : Fits made r)
    (hopens : Opens cfg (assembled seen bound made) r)
    (herror : ∀ err, Q (.error err) (assembled seen bound made))
    (hok : Q (.ok ()) (assembled seen bound (r :: made))) :
    Obeys (protocol cfg) Q (attempt r).run (assembled seen bound made) := by
  obtain ⟨hrun, hfresh, hrequires⟩ := hfits
  refine obeys_fallible (P := protocol cfg) (WorkerOp.request r) id
    (Or.inl ⟨rfl, hfresh, hrequires, hopens⟩) ?_ ?_
  · rintro _ err rfl
    cases r with
    | run => exact absurd rfl hrun
    | _ => exact herror err
  · rintro _ ⟨⟩ rfl
    cases r with
    | run => exact absurd rfl hrun
    | _ => exact hok

theorem obeys_attempt {r : Request} {f : Unit → Fallible β} (hfits : Fits made r)
    (hopens : Opens cfg (assembled seen bound made) r)
    (herror : ∀ err, E (.error err) (assembled seen bound made))
    (hok : Obeys (protocol cfg) E (f ()).run (assembled seen bound (r :: made))) :
    Obeys (protocol cfg) E (attempt r >>= f).run (assembled seen bound made) :=
  obeys_try (obeys_request hfits hopens herror hok)

def Opened (cfg : Config) : Except Hresult String → Graph → Prop
  | .ok name, g => g.report = none ∧ g.running = true ∧ g.due = .nothing ∧ g.told = false ∧
      Rendered cfg g name
  | .error _, g => g.report = none ∧ g.running = false

theorem opened_error (err : Hresult) : Opened cfg (.error err) (assembled seen bound made) :=
  ⟨rfl, rfl⟩

theorem obeys_start {moniker : Moniker} {name : String}
    (hfirst : cfg.search.first seen = some (moniker, name))
    (hmade : .addFilter (.capture name) ∈ made ∧ .createGraph ∈ made)
    (hrenders : Fits made (.renderStream cfg.useNullRenderer))
    (hfresh : .castMediaControl ∉ made ∧ .castMediaEvent ∉ made ∧ .run ∉ made) :
    Obeys (protocol cfg) (Opened cfg) (do
      attempt (.renderStream cfg.useNullRenderer)
      attempt .castMediaControl
      attempt .castMediaEvent
      attempt .run
      return name : Fallible String).run (assembled seen (some (moniker, name)) made) := by
  apply obeys_attempt hrenders rfl opened_error
  apply obeys_attempt
  · simp [Fits, requires, hmade, hfresh]
  · trivial
  · exact opened_error
  apply obeys_attempt
  · simp [Fits, requires, hmade, hfresh]
  · trivial
  · exact opened_error
  have hrendered : ∀ more running due calls, Rendered cfg { assembled seen (some (moniker, name))
      (more ++ .renderStream cfg.useNullRenderer :: made) with
        running := running, due := due, calls := calls } name := by
    intro more running due calls
    refine ⟨rfl, ⟨moniker, rfl, hfirst⟩, ?_, ?_⟩
    · simp [assembled, hmade.1]
    · simp [assembled]
  apply obeys_try
  refine ⟨Or.inl ⟨rfl, ?_, ?_, name, hrendered [_, _] false .nothing 0⟩, fun reply => ?_⟩
  · simp [assembled, hfresh]
  · simp [assembled, requires]
  rcases (reply : Except Hresult Unit) with err | ⟨⟩
  · exact ⟨rfl, rfl⟩
  · exact ⟨rfl, rfl, rfl, rfl, hrendered [_, _, _] true .nothing 1⟩

def renderer (cfg : Config) : List Request :=
  if cfg.useNullRenderer then [.addFilter .nullRenderer, .createNullRenderer] else []

theorem obeys_addRenderer (hgraph : .createGraph ∈ made)
    (hfresh : .createNullRenderer ∉ made ∧ .addFilter .nullRenderer ∉ made) :
    Obeys (protocol cfg) (fun r g => match r with
      | .ok () => g = assembled seen bound (renderer cfg ++ made)
      | .error _ => g.report = none ∧ g.running = false) (addRenderer cfg).run
      (assembled seen bound made) := by
  unfold addRenderer renderer
  split
  · apply obeys_attempt
    · simp [Fits, requires, hfresh]
    · trivial
    · exact fun err => ⟨rfl, rfl⟩
    apply obeys_request
    · simp [Fits, requires, hfresh, hgraph]
    · trivial
    · exact fun err => ⟨rfl, rfl⟩
    · rfl
  · rfl

/-- Down to its loop the graph is either open and running, or an error left it at rest. -/
theorem obeys_buildGraph {chosen : Option (Moniker × String)}
    (hchosen : chosen = cfg.search.first seen) :
    Obeys (protocol cfg) (Opened cfg) (buildGraph cfg chosen).run (assembled seen none []) := by
  cases chosen with
  | none => exact ⟨rfl, rfl⟩
  | some device =>
    obtain ⟨moniker, name⟩ := device
    apply obeys_try
    refine ⟨⟨rfl, rfl, rfl, rfl, name, hchosen.symm⟩, fun reply => ?_⟩
    rcases (reply : Except Hresult Unit) with err | ⟨⟩
    · exact ⟨rfl, rfl⟩
    change Obeys _ (Opened cfg) (do
      attempt .createGraph
      attempt .createBuilder
      attempt .setFiltergraph
      attempt (.addFilter (.capture name))
      addRenderer cfg
      attempt (.renderStream cfg.useNullRenderer)
      attempt .castMediaControl
      attempt .castMediaEvent
      attempt .run
      return name : Fallible String).run (assembled seen (cfg.search.first seen) [])
    rw [← hchosen]
    apply obeys_attempt
    · simp [Fits, requires]
    · trivial
    · exact opened_error
    apply obeys_attempt
    · simp [Fits, requires]
    · trivial
    · exact opened_error
    apply obeys_attempt
    · simp [Fits, requires]
    · trivial
    · exact opened_error
    apply obeys_attempt
    · simp [Fits, requires]
    · exact ⟨moniker, rfl⟩
    · exact opened_error
    apply obeys_try
    apply obeys_mono _ (obeys_addRenderer (by simp) (by simp))
    intro r g hg
    cases r with
    | error err => exact hg
    | ok u =>
      obtain rfl := hg
      apply obeys_start hchosen.symm
      · simp
      · cases hrenderer : cfg.useNullRenderer <;> simp [Fits, requires, renderer, hrenderer]
      · cases hrenderer : cfg.useNullRenderer <;> simp [renderer, hrenderer]

theorem obeys_walking {α : Type} {p : WalkProg α} {Q : α → Devices → Prop} (hcom : g.com = true)
    (hreport : g.report = none)
    (h : Obeys (DeviceWalk.protocol cfg.search graphEnds (·.bstr)) Q p g.devices) :
    Obeys (protocol cfg) (fun a g' => ∃ d, g' = { g with devices := d } ∧ Q a d) (walking p) g :=
  obeys_lift Graph.devices (fun d g => { g with devices := d }) (fun _ _ hop =>
    ⟨hcom, hreport, hop⟩) (fun _ _ _ => rfl) rfl h

theorem obeys_report {err : Hresult} (hreport : g.report = none) (hrunning : g.running = false) :
    Obeys (protocol cfg) (Between cfg) (do
      call (.send (.error (openError cfg err)))
      return .done) g :=
  ⟨⟨hreport, hrunning, err, rfl⟩, fun _ => ⟨hrunning, Or.inl ⟨_, rfl⟩⟩⟩

theorem obeys_keepAlive (h : Keeping g) (hcalls : g.calls = 0) :
    Obeys (protocol cfg) (Between cfg) keepAlive g := by
  obtain ⟨hreport, hdue, htold⟩ := h
  have hcount : ∀ n < 4, g.calls + n < 4 := fun n hn => by omega
  refine ⟨⟨hreport, hdue, htold, hcount 0 (by decide)⟩, fun event => ?_⟩
  rcases (event : Except Hresult Int32) with err | code
  · exact ⟨⟨hreport, hdue, htold, hcount 1 (by decide)⟩, fun _ => ⟨hreport, hdue, htold⟩⟩
  refine ⟨⟨rfl, hcount 1 (by decide)⟩, fun _ => ?_⟩
  change Obeys _ _ (if halting code then _ else _)
    { g with due := if halting code then .stop else .nothing, calls := g.calls + 1 + 1 }
  by_cases hhalting : halting code = true
  · rw [if_pos hhalting, if_pos hhalting]
    refine ⟨Or.inl ⟨rfl, hcount 2 (by decide)⟩, fun _ => ?_⟩
    refine ⟨Or.inr ⟨rfl, rfl, hcount 3 (by decide)⟩, fun again => ?_⟩
    rcases (again : Except Hresult Unit) with err | ⟨⟩
    · exact ⟨hreport, rfl, htold⟩
    · exact ⟨hreport, rfl, htold⟩
  · rw [if_neg hhalting, if_neg hhalting]
    exact ⟨hreport, rfl, htold⟩

/-- From any point every call down to the next point is permitted, whatever the replies. -/
theorem obeys_worker (point : Point) (g : Graph) (h : Between cfg point g) :
    Obeys (protocol cfg) (Between cfg) (worker cfg point) g := by
  cases point with
  | opening =>
    obtain rfl : g = blank := h
    apply obeys_call
    · exact ⟨rfl, rfl⟩
    intro _
    apply obeys_bind
    apply obeys_mono _ (obeys_walking rfl rfl obeys_graphDevices)
    rintro r _ ⟨d, rfl, hd⟩
    cases r with
    | error err => exact obeys_report rfl rfl
    | ok u =>
      obtain rfl := hd
      exact ⟨[], rfl, rfl⟩
  | walking chosen =>
    obtain ⟨seen, hchosen, rfl⟩ := h
    have hturn := @obeys_turn cfg.search graphEnds (·.bstr) (walkedPast seen).devices _
      names_deviceNameFromMoniker rfl rfl
    apply obeys_bind
    apply obeys_mono _ (obeys_walking rfl rfl hturn)
    rintro r _ ⟨d, rfl, hd⟩
    cases r with
    | none =>
      obtain rfl : d = _ := hd
      apply obeys_bind
      apply obeys_mono _ (obeys_buildGraph hchosen)
      intro r g hg
      cases r with
      | error err => exact obeys_report hg.1 hg.2
      | ok name =>
        obtain ⟨hreport, hrunning, hdue, htold, hrendered⟩ := hg
        exact ⟨⟨hreport, hrunning, hrendered⟩, fun _ => ⟨⟨name, rfl⟩, hdue, htold⟩⟩
    | some device =>
      obtain rfl : d = _ := hd
      have hfirst := first_snoc cfg.search seen device
      rw [← hchosen] at hfirst
      change Obeys _ _ (if chosen.isNone && cfg.search.isMatch device.2 then
        Prog.ret (Point.walking (some device)) else Prog.ret (Point.walking chosen)) _
      split
      next hnew => exact ⟨_, (hfirst.trans (if_pos hnew)).symm, rfl⟩
      next hold => exact ⟨_, (hfirst.trans (if_neg hold)).symm, rfl⟩
  | keeping =>
    have hkeeping : Keeping g := h
    refine ⟨⟨hkeeping.report, hkeeping.due, hkeeping.told⟩, fun told => ?_⟩
    cases told with
    | true =>
      refine ⟨Or.inr ⟨hkeeping.due, rfl⟩, fun _ => ?_⟩
      exact ⟨rfl, Or.inr ⟨hkeeping.report, if_neg (hkeeping.due ▸ nofun), rfl⟩⟩
    | false => exact obeys_keepAlive ⟨hkeeping.report, hkeeping.due, rfl⟩ rfl
  | done => exact h

end Obedience

section Soundness

variable (cfg : Config)

structure Sound (g : Graph) : Prop where
  early : g.report = none → g.due = .nothing ∧ g.told = false
  opened : ∀ name, g.report = some (.ok name) → Rendered cfg g name
  alive : ∀ name, g.report = some (.ok name) → g.running = true ∨ g.lost = true ∨
    g.due = .run ∨ g.due = .ended
  failed : ∀ err, g.report = some (.error err) → g.running = false ∧ g.due = .nothing ∧
    g.told = false ∧ ∃ hr, err = openError cfg hr
  obeyed : g.told = true → g.due = .nothing ∨ g.due = .ended
  ended : g.due = .ended → g.told = true ∧ g.running = false

variable {cfg} {g : Graph}

theorem sound_blank : Sound cfg blank := ⟨fun _ => ⟨rfl, rfl⟩, nofun, nofun, nofun, nofun, nofun⟩

theorem rendered_after {name : String} {op : WorkerOp} (reply : op.Reply)
    (hwalk : ∀ o, op ≠ .walk o) (h : Rendered cfg g name) :
    Rendered cfg (after cfg op reply g) name := by
  obtain ⟨hover, hbound, hadded, hrendered⟩ := h
  cases op with
  | walk o => exact absurd rfl (hwalk o)
  | request r =>
    rcases (reply : Except Hresult Unit) with err | ⟨⟩
    · cases r <;> exact ⟨hover, hbound, hadded, hrendered⟩
    · cases r <;> exact ⟨hover, hbound, List.mem_cons_of_mem _ hadded,
        List.mem_cons_of_mem _ hrendered⟩
  | getEvent =>
    rcases (reply : Except Hresult Int32) with err | code <;>
      exact ⟨hover, hbound, hadded, hrendered⟩
  | _ => exact ⟨hover, hbound, hadded, hrendered⟩

theorem permits_failed {op : WorkerOp} {err : String} (h : Sound cfg g)
    (hreport : g.report = some (.error err)) : ¬ permits cfg op g := by
  obtain ⟨_, hdue, htold, _⟩ := h.failed err hreport
  intro hop
  cases op with
  | send report => rcases report with err | name <;> simp [permits, hreport] at hop
  | _ => simp [permits, hreport, hdue, htold] at hop

theorem permits_ended {op : WorkerOp} (h : Sound cfg g) (hdue : g.due = .ended) :
    ¬ permits cfg op g := by
  have htold := (h.ended hdue).1
  have hreport : g.report ≠ none := fun hnone => by simp [(h.early hnone).1] at hdue
  intro hop
  cases op with
  | send report => rcases report with err | name <;> simp [permits, hreport] at hop
  | _ => simp [permits, hreport, hdue, htold] at hop

theorem sound_opening (hreport : g.report = none) (hdue : g.due = .nothing)
    (htold : g.told = false) : Sound cfg g := by
  constructor
  · exact fun _ => ⟨hdue, htold⟩
  · simp [hreport]
  · simp [hreport]
  · simp [hreport]
  · simp [htold]
  · simp [hdue]

theorem sound_loop {name : String} (hreport : g.report = some (.ok name))
    (hrendered : Rendered cfg g name)
    (halive : g.running = true ∨ g.lost = true ∨ g.due = .run ∨ g.due = .ended)
    (hobeyed : g.told = true → g.due = .nothing ∨ g.due = .ended)
    (hended : g.due = .ended → g.told = true ∧ g.running = false) : Sound cfg g := by
  constructor
  · simp [hreport]
  · intro name' hname'
    obtain rfl : name = name' := by simpa [hreport] using hname'
    exact hrendered
  · exact fun _ _ => halive
  · simp [hreport]
  · exact hobeyed
  · exact hended

theorem sound_early {op : WorkerOp} (reply : op.Reply) (hop : permits cfg op g)
    (hreport : g.report = none) (h : Sound cfg g) : Sound cfg (after cfg op reply g) := by
  obtain ⟨hdue, htold⟩ := h.early hreport
  cases op with
  | coInitializeEx => exact sound_opening hreport hdue htold
  | walk o => exact sound_opening hreport hdue htold
  | request r =>
    rcases (reply : Except Hresult Unit) with err | ⟨⟩ <;> cases r <;>
      exact sound_opening hreport (by simp [after, hdue]) htold
  | send report =>
    rcases report with err | name
    · obtain ⟨_, hrunning, hshown⟩ := hop
      refine ⟨nofun, nofun, nofun, fun err' herr' => ?_, fun _ => Or.inl hdue, fun hended => ?_⟩
      · obtain rfl : err = err' := by simpa [after] using herr'
        exact ⟨hrunning, hdue, htold, hshown⟩
      · simp [after, hdue] at hended
    · have hrendered := @rendered_after cfg g name (.send (.ok name)) () nofun hop.2.2
      refine sound_loop rfl hrendered (Or.inl hop.2.1) (fun _ => Or.inl hdue) fun hended => ?_
      simp [after, hdue] at hended
  | _ => simp [permits, hreport, hdue, htold] at hop

theorem sound_late {op : WorkerOp} (reply : op.Reply) {name : String} (hop : permits cfg op g)
    (hreport : g.report = some (.ok name)) (h : Sound cfg g) :
    Sound cfg (after cfg op reply g) := by
  have hwalk : ∀ o, op ≠ .walk o := by
    rintro o rfl
    simp [permits, hreport] at hop
  have hstay := @rendered_after cfg g name op reply hwalk (h.opened name hreport)
  have halive := h.alive name hreport
  have hobeyed := h.obeyed
  cases op with
  | coInitializeEx => simp [permits, hreport] at hop
  | walk o => exact absurd rfl (hwalk o)
  | request r =>
    obtain ⟨rfl, hdue, _⟩ : r = .run ∧ g.due = .run ∧ g.calls < 4 := by
      simpa [permits, hreport] using hop
    rcases (reply : Except Hresult Unit) with err | ⟨⟩
    · refine sound_loop hreport hstay (Or.inr (Or.inl rfl)) (fun _ => Or.inl (if_pos hdue)) ?_
      exact fun hended => by simp [after, hdue] at hended
    · refine sound_loop hreport hstay (Or.inl rfl) (fun _ => Or.inl (if_pos hdue)) ?_
      exact fun hended => by simp [after, hdue] at hended
  | send report => rcases report with err | name <;> simp [permits, hreport] at hop
  | loadStop =>
    refine sound_loop hreport hstay halive (fun _ => Or.inl hop.2.1) ?_
    exact fun hended => by simp [after, hop.2.1] at hended
  | getEvent =>
    obtain ⟨_, hdue, htold, _⟩ := hop
    have hup : g.running = true ∨ g.lost = true := by simpa [hdue] using halive
    rcases (reply : Except Hresult Int32) with err | code
    · refine sound_loop hreport hstay halive hobeyed ?_
      exact fun hended => by simp [after, hdue] at hended
    · refine sound_loop hreport hstay (hup.imp_right Or.inl) ?_ nofun
      exact fun h => by simp [after, htold] at h
  | freeEventParams code =>
    have htold : g.told = false := by simpa [hop.1] using hobeyed
    have hup : g.running = true ∨ g.lost = true := by simpa [hop.1] using halive
    refine sound_loop hreport hstay (hup.imp_right Or.inl) ?_ ?_
    · exact fun h => by simp [after, htold] at h
    · intro hended
      cases hhalting : halting code <;> simp [after, hhalting] at hended
  | stop =>
    rcases hop with ⟨hdue, _⟩ | ⟨hdue, htold⟩
    · have htold : g.told = false := by simpa [hdue] using hobeyed
      refine sound_loop hreport hstay (Or.inr (Or.inr (Or.inl (if_pos hdue)))) ?_ ?_
      · exact fun h => by simp [after, htold] at h
      · exact fun hended => by simp [after, hdue] at hended
    · have hlast : (after cfg .stop reply g).due = .ended := if_neg (hdue ▸ nofun)
      refine sound_loop hreport hstay (Or.inr (Or.inr (Or.inr hlast))) ?_ ?_
      · exact fun _ => Or.inr hlast
      · exact fun _ => ⟨htold, rfl⟩
  | sleep ms =>
    refine sound_loop hreport hstay halive hobeyed ?_
    exact fun hended => by simp [after, hop.2.1] at hended

theorem sound_after {op : WorkerOp} (reply : op.Reply) (hop : permits cfg op g)
    (h : Sound cfg g) : Sound cfg (after cfg op reply g) := by
  cases hreport : g.report with
  | none => exact sound_early reply hop hreport h
  | some report =>
    cases report with
    | error err => exact absurd hop (permits_failed h hreport)
    | ok name => exact sound_late reply hop hreport h

/-- A restart has failed, and no event has come behind it that would be answered by another. -/
structure Stranded (g : Graph) : Prop where
  report : ∃ name, g.report = some (.ok name)
  stopped : g.running = false
  stop : g.due ≠ .stop
  run : g.due ≠ .run

/-- A graph that stands still is not run again before an event halts it. -/
theorem stranded_after {op : WorkerOp} (reply : op.Reply) (hop : permits cfg op g)
    (hcalm : ∀ code, op = .freeEventParams code → halting code = false) (h : Stranded g) :
    Stranded (after cfg op reply g) := by
  obtain ⟨⟨name, hreport⟩, hstopped, hstop, hrun⟩ := h
  cases op with
  | coInitializeEx => simp [permits, hreport] at hop
  | walk o => simp [permits, hreport] at hop
  | request r => simp [permits, hreport, hrun] at hop
  | send report => rcases report with err | name <;> simp [permits, hreport] at hop
  | getEvent =>
    rcases (reply : Except Hresult Int32) with err | code
    · exact ⟨⟨name, hreport⟩, hstopped, hstop, hrun⟩
    · exact ⟨⟨name, hreport⟩, hstopped, nofun, nofun⟩
  | freeEventParams code =>
    have hdue : (after cfg (.freeEventParams code) reply g).due = .nothing := by
      simp [after, hcalm code rfl]
    exact ⟨⟨name, hreport⟩, hstopped, hdue ▸ nofun, hdue ▸ nofun⟩
  | stop =>
    have hdue : (after cfg .stop reply g).due = .ended := if_neg hstop
    exact ⟨⟨name, hreport⟩, rfl, hdue ▸ nofun, hdue ▸ nofun⟩
  | _ => exact ⟨⟨name, hreport⟩, hstopped, hstop, hrun⟩

end Soundness

end VideoKeepAlive
