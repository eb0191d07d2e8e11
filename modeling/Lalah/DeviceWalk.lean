import Lalah.CallProtocol
import Mathlib.Data.List.Infix

/-! The walk over the devices of a DirectShow category. Each is asked for its friendly name;
the first whose name contains the filter is the one to bind. One loop walks to the end and
binds then, the others bind where they find it. -/
namespace DeviceWalk

open InteractionProgram CallProtocol

section Names

abbrev Hresult := UInt32

def sOk : Hresult := 0

def sFalse : Hresult := 1

def eFail : Hresult := 0x80004005

def isErr (hr : Hresult) : Bool := 0x80000000 ≤ hr

abbrev Moniker := ℕ

structure Variant where
  vt : UInt16
  bstr : String

def vtBstr : UInt16 := 8

/-- The friendly-name filter, with the lower-casing of the standard library. -/
structure Search where
  lowercase : String → String
  nameFilter : Option String

def Search.isMatch (q : Search) (name : String) : Bool :=
  match q.nameFilter with
  | none => true
  | some f => (q.lowercase f).toList <:+: (q.lowercase name).toList

def Search.first (q : Search) (seen : List (Moniker × String)) : Option (Moniker × String) :=
  seen.find? fun d => q.isMatch d.2

theorem first_snoc (q : Search) (seen : List (Moniker × String)) (device : Moniker × String) :
    q.first (seen ++ [device]) = if (q.first seen).isNone && q.isMatch device.2 then some device
      else q.first seen := by
  unfold Search.first
  rw [List.find?_append]
  cases hfirst : seen.find? fun d => q.isMatch d.2 with
  | none => cases hmatch : q.isMatch device.2 <;> simp [hmatch]
  | some d => simp

end Names

section Calls

inductive WalkOp where
  | createDevEnum | createClassEnumerator | createBindCtx | next
  | bindToStorage (m : Moniker) | read (m : Moniker) | variantClear
  | bindToObject (m : Moniker)

/-- `createClassEnumerator` and `next` are told by their raw result, with what they gave. -/
@[reducible] def WalkOp.Reply : WalkOp → Type
  | .createDevEnum | .createBindCtx | .bindToStorage _ | .bindToObject _ => Except Hresult Unit
  | .createClassEnumerator => Hresult × Bool
  | .next => Hresult × Option Moniker
  | .read _ => Except Hresult Variant
  | .variantClear => Unit

abbrev WalkProg := Prog WalkOp WalkOp.Reply

def call (op : WalkOp) : WalkProg op.Reply := perform op

/-- The name in an entry of text; an entry of another type counts as empty. -/
def Variant.text (var : Variant) : String := if var.vt = vtBstr then var.bstr else ""

/-- In `video.rs`: whatever the entry holds is read as a string. -/
def deviceNameFromMoniker (moniker : Moniker) : WalkProg (Option String) := do
  let bag : Except Hresult Unit ← call (.bindToStorage moniker)
  match bag with
  | .error _ => return none
  | .ok () =>
    let var : Except Hresult Variant ← call (.read moniker)
    match var with
    | .error _ => return none
    | .ok var => return some var.bstr

/-- In `dshow.rs`: an empty name counts as none. -/
def monikerName (moniker : Moniker) : WalkProg (Option String) := do
  let bag : Except Hresult Unit ← call (.bindToStorage moniker)
  match bag with
  | .error _ => return none
  | .ok () =>
    let var : Except Hresult Variant ← call (.read moniker)
    match var with
    | .error _ => return none
    | .ok var =>
      let name := var.text
      call .variantClear
      return if name.isEmpty then none else some name

def turn (ends : Hresult → Bool) (nameOf : Moniker → WalkProg (Option String)) :
    WalkProg (Option (Moniker × String)) := do
  let (hr, moniker) ← call .next
  if ends hr then return none
  match moniker with
  | none => return none
  | some m =>
    let name ← nameOf m
    return some (m, name.getD "")

/-- `open_graph`: any success but `S_FALSE` is taken for a device. -/
def graphEnds (hr : Hresult) : Bool := hr = sFalse || isErr hr

def graphTurn : WalkProg (Option (Moniker × String)) := turn graphEnds deviceNameFromMoniker

/-- `find_audio_source` and `find_video_source`. -/
def sourceEnds (hr : Hresult) : Bool := hr ≠ sOk

def sourceTurn : WalkProg (Option (Moniker × String)) := turn sourceEnds monikerName

abbrev Fallible := ExceptT Hresult WalkProg

def enumerate (check : Hresult → Bool → Fallible Unit) : Fallible Unit := do
  ExceptT.mk (call .createDevEnum)
  let reply ← ExceptT.lift (call .createClassEnumerator)
  check reply.1 reply.2

/-- `open_graph` down to its walk: an empty category fails. -/
def graphDevices : Fallible Unit := enumerate fun hr enumerator => do
  if hr = sFalse || isErr hr then throw eFail
  if !enumerator then throw eFail

/-- `find_audio_source` and `find_video_source` down to theirs. -/
def sourceDevices : Fallible Unit := enumerate fun hr enumerator => do
  if isErr hr then throw hr
  if !enumerator then throw eFail
  ExceptT.mk (call .createBindCtx)

end Calls

section Protocol

inductive Walk where
  | closed | going | over
  deriving DecidableEq, Repr

/-- The devices that the walk has come to, with their names; `naming` is the one whose name is
being asked for, and whether its property bag is there. -/
structure Devices where
  devEnum : Bool
  walk : Walk
  naming : Option (Moniker × Bool)
  seen : List (Moniker × String)
  bound : Option (Moniker × String)

def noDevices : Devices := ⟨false, .closed, none, [], none⟩

/-- Only a device that was enumerated is asked for its name, and only the first with a
matching one is bound, once. -/
def permits (q : Search) : WalkOp → Devices → Prop
  | .createDevEnum, d => d.devEnum = false
  | .createClassEnumerator, d => d.devEnum = true ∧ d.walk = .closed
  | .createBindCtx, _ => True
  | .next, d => d.walk = .going ∧ d.naming = none
  | .bindToStorage m, d => d.naming = some (m, false)
  | .read m, d => d.naming = some (m, true)
  | .variantClear, d => d.naming = none
  | .bindToObject m, d => d.naming = none ∧ d.bound = none ∧ ∃ name, q.first d.seen = some (m, name)

/-- A device without a name counts with the empty one. -/
def after (q : Search) (ends : Hresult → Bool) (text : Variant → String) :
    (op : WalkOp) → op.Reply → Devices → Devices
  | .createDevEnum, .ok (), d => { d with devEnum := true }
  | .createClassEnumerator, (hr, enumerator), d =>
    if isErr hr then d else if enumerator then { d with walk := .going } else d
  | .next, (hr, moniker), d =>
    if ends hr then { d with walk := .over }
    else match moniker with
      | none => { d with walk := .over }
      | some m => { d with naming := some (m, false) }
  | .bindToStorage m, .ok (), d => { d with naming := some (m, true) }
  | .bindToStorage m, .error _, d => { d with naming := none, seen := d.seen ++ [(m, "")] }
  | .read m, .ok var, d => { d with naming := none, seen := d.seen ++ [(m, text var)] }
  | .read m, .error _, d => { d with naming := none, seen := d.seen ++ [(m, "")] }
  | .bindToObject _, .ok (), d => { d with bound := q.first d.seen }
  | _, _, d => d

def protocol (q : Search) (ends : Hresult → Bool) (text : Variant → String) :
    Protocol WalkOp WalkOp.Reply Devices := ⟨permits q, after q ends text⟩

end Protocol

section Obedience

variable {q : Search} {ends : Hresult → Bool} {text : Variant → String} {d : Devices}
  {nameOf : Moniker → WalkProg (Option String)}

def Turned (d : Devices) : Option (Moniker × String) → Devices → Prop
  | none, d' => d' = { d with walk := .over }
  | some device, d' => d' = { d with seen := d.seen ++ [device] }

def Names (q : Search) (ends : Hresult → Bool) (text : Variant → String)
    (nameOf : Moniker → WalkProg (Option String)) : Prop :=
  ∀ m (d : Devices), d.naming = some (m, false) → Obeys (protocol q ends text)
    (fun name d' => d' = { d with naming := none, seen := d.seen ++ [(m, name.getD "")] })
    (nameOf m) d

theorem names_deviceNameFromMoniker : Names q ends (·.bstr) deviceNameFromMoniker := by
  intro m d hd
  refine ⟨hd, fun bag => ?_⟩
  rcases (bag : Except Hresult Unit) with err | ⟨⟩
  · exact rfl
  refine ⟨rfl, fun var => ?_⟩
  rcases (var : Except Hresult Variant) with err | var
  · exact rfl
  · exact rfl

theorem getD_nonempty (name : String) :
    (if name.isEmpty then none else some name).getD "" = name := by
  split
  next h => exact (String.isEmpty_iff.mp h).symm
  next => rfl

theorem names_monikerName : Names q ends Variant.text monikerName := by
  intro m d hd
  refine ⟨hd, fun bag => ?_⟩
  rcases (bag : Except Hresult Unit) with err | ⟨⟩
  · exact rfl
  refine ⟨rfl, fun var => ?_⟩
  rcases (var : Except Hresult Variant) with err | var
  · exact rfl
  have hname := getD_nonempty var.text
  refine ⟨rfl, fun _ => ?_⟩
  exact congrArg (fun name => { d with naming := none, seen := d.seen ++ [(m, name)] }) hname.symm

theorem obeys_turn (hnames : Names q ends text nameOf) (hwalk : d.walk = .going)
    (hnaming : d.naming = none) :
    Obeys (protocol q ends text) (Turned d) (turn ends nameOf) d := by
  refine ⟨⟨hwalk, hnaming⟩, fun reply => ?_⟩
  obtain ⟨hr, moniker⟩ := (reply : Hresult × Option Moniker)
  change Obeys _ _ (if ends hr then Prog.ret none else _)
    (if ends hr then { d with walk := .over } else _)
  by_cases hend : ends hr = true
  · rw [if_pos hend, if_pos hend]
    exact rfl
  rw [if_neg hend, if_neg hend]
  cases moniker with
  | none => exact rfl
  | some m =>
    apply obeys_bind
    apply obeys_mono _ (hnames m { d with naming := some (m, false) } rfl)
    rintro name _ rfl
    have hsame : ({ d with naming := none, seen := d.seen ++ [(m, name.getD "")] } : Devices) =
        { d with seen := d.seen ++ [(m, name.getD "")] } := by
      rw [← hnaming]
    exact hsame

def Enumerated : Except Hresult Unit → Devices → Prop
  | .ok (), d => d = { noDevices with devEnum := true, walk := .going }
  | .error _, d => d.bound = none

theorem obeys_enumerate {check : Hresult → Bool → Fallible Unit}
    (hcheck : ∀ hr enumerator, Obeys (protocol q ends text) Enumerated (check hr enumerator).run
      (after q ends text .createClassEnumerator (hr, enumerator)
        { noDevices with devEnum := true })) :
    Obeys (protocol q ends text) Enumerated (enumerate check).run noDevices := by
  apply obeys_try
  refine ⟨rfl, fun made => ?_⟩
  rcases (made : Except Hresult Unit) with err | ⟨⟩
  · exact rfl
  apply obeys_try
  exact ⟨⟨rfl, rfl⟩, fun reply => hcheck _ _⟩

end Obedience

section Categories

variable {q : Search}

theorem obeys_graphDevices :
    Obeys (protocol q graphEnds (·.bstr)) Enumerated graphDevices.run noDevices := by
  apply obeys_enumerate
  intro hr enumerator
  have hbound : (after q graphEnds (·.bstr) .createClassEnumerator (hr, enumerator)
      { noDevices with devEnum := true }).bound = none := by
    simp only [after]
    split
    · rfl
    · split <;> rfl
  by_cases hempty : (hr = sFalse || isErr hr) = true
  · rw [if_pos hempty]
    exact hbound
  rw [if_neg hempty]
  cases enumerator with
  | false => exact hbound
  | true =>
    have hok : ¬ isErr hr = true := fun h => hempty (by simp [h])
    change after q graphEnds (·.bstr) .createClassEnumerator (hr, true) _ = _
    simp only [after, if_neg hok]
    rfl

theorem obeys_sourceDevices :
    Obeys (protocol q sourceEnds Variant.text) Enumerated sourceDevices.run noDevices := by
  apply obeys_enumerate
  intro hr enumerator
  by_cases herr : isErr hr = true
  · rw [if_pos herr]
    simp only [after, if_pos herr]
    exact rfl
  simp only [after, if_neg herr]
  cases enumerator with
  | false => exact rfl
  | true =>
    refine ⟨trivial, fun ctx => ?_⟩
    rcases (ctx : Except Hresult Unit) with err | ⟨⟩
    · exact rfl
    · exact rfl

end Categories

end DeviceWalk
