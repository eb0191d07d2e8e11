import Lalah.ArgumentLoop

/-! The command line of the program in the guest. -/
namespace VmArguments

open ArgumentLoop

section Parse

def defaultDeviceId : String := ""

structure Args where
  deviceId : String
  dsAudio : Bool
  audioDevice : Option String
  videoKeepalive : Bool
  videoDevice : Option String
  videoRenderer : String
  videoPassthrough : Bool
  deriving DecidableEq, Repr

/-- What is printed in front of the usage; the status is two. -/
inductive Refusal where
  | usage
  | error (line : String)
  deriving DecidableEq, Repr

def initial : Args where
  deviceId := defaultDeviceId
  dsAudio := false
  audioDevice := none
  videoKeepalive := false
  videoDevice := none
  videoRenderer := "null"
  videoPassthrough := false

def arm : String → Arm Args Refusal
  | "--device" => .valued fun v a => .ok { a with deviceId := v }
  | "--ds-audio" => .flag fun a => { a with dsAudio := true }
  | "--audio-device" => .valued fun v a => .ok { a with audioDevice := some v, dsAudio := true }
  | "--video-keepalive" => .flag fun a => { a with videoKeepalive := true }
  | "--video-device" =>
    .valued fun v a => .ok { a with videoDevice := some v, videoKeepalive := true }
  | "--video-renderer" => .valued fun v a =>
    if v ≠ "null" ∧ v ≠ "window" then
      .error (.error "error: --video-renderer must be 'null' or 'window'")
    else .ok { a with videoRenderer := v }
  | "--video-passthrough" => .flag fun a => { a with videoPassthrough := true, dsAudio := true }
  | "-h" => .refused .usage
  | "--help" => .refused .usage
  | other => .refused (.error ("unknown argument: " ++ other))

def noDevice : Refusal :=
  .error "error: no capture device id (pass --device, --ds-audio, or set DEFAULT_DEVICE_ID)"

def parseArgs (argv : List String) : Except Refusal Args := do
  let args ← parse arm .usage argv initial
  if !args.dsAudio && args.deviceId = "" then .error noDevice else .ok args

end Parse

section Settings

inductive Renderer where
  | null | window
  deriving DecidableEq, Repr

def Renderer.name : Renderer → String
  | .null => "null"
  | .window => "window"

inductive Setting where
  | device (id : String)
  | dsAudio
  | audioDevice (name : String)
  | videoKeepalive
  | videoDevice (name : String)
  | videoRenderer (renderer : Renderer)
  | videoPassthrough
  deriving DecidableEq, Repr

namespace Setting

def words : Setting → List String
  | device id => ["--device", id]
  | dsAudio => ["--ds-audio"]
  | audioDevice name => ["--audio-device", name]
  | videoKeepalive => ["--video-keepalive"]
  | videoDevice name => ["--video-device", name]
  | videoRenderer renderer => ["--video-renderer", renderer.name]
  | videoPassthrough => ["--video-passthrough"]

def apply : Setting → Args → Args
  | device id, a => { a with deviceId := id }
  | dsAudio, a => { a with dsAudio := true }
  | audioDevice name, a => { a with audioDevice := some name, dsAudio := true }
  | videoKeepalive, a => { a with videoKeepalive := true }
  | videoDevice name, a => { a with videoDevice := some name, videoKeepalive := true }
  | videoRenderer renderer, a => { a with videoRenderer := renderer.name }
  | videoPassthrough, a => { a with videoPassthrough := true, dsAudio := true }

def deviceId? : Setting → Option String
  | device id => some id
  | _ => none

def audioDevice? : Setting → Option String
  | audioDevice name => some name
  | _ => none

def videoDevice? : Setting → Option String
  | videoDevice name => some name
  | _ => none

def videoRenderer? : Setting → Option String
  | videoRenderer renderer => some renderer.name
  | _ => none

/-- The settings that ask for the sound of DirectShow, some of them by the way. -/
def asksDsAudio : Setting → Bool
  | dsAudio | audioDevice _ | videoPassthrough => true
  | _ => false

def asksKeepalive : Setting → Bool
  | videoKeepalive | videoDevice _ => true
  | _ => false

def asksPassthrough : Setting → Bool
  | videoPassthrough => true
  | _ => false

end Setting

theorem renderer_name_injective : Function.Injective Renderer.name := by
  intro r r' h
  cases r <;> cases r' <;> simp_all [Renderer.name]

theorem words_injective : Function.Injective Setting.words := by
  intro s s' h
  cases s <;> cases s' <;> simp_all [Setting.words, renderer_name_injective.eq_iff]

theorem setting_turn (s : Setting) : Turn arm s.words s.apply := by
  cases s with
  | device | audioDevice | videoDevice => exact .valued rfl fun _ => rfl
  | dsAudio | videoKeepalive | videoPassthrough => exact .flag rfl
  | videoRenderer renderer => cases renderer <;> exact .valued rfl fun _ => rfl

theorem setting_flag (arg : String) (set : Args → Args) (h : arm arg = .flag set) :
    ∃ s : Setting, s.words = [arg] := by
  unfold arm at h
  split at h
  case h_2 => exact ⟨.dsAudio, rfl⟩
  case h_4 => exact ⟨.videoKeepalive, rfl⟩
  case h_7 => exact ⟨.videoPassthrough, rfl⟩
  all_goals cases h

theorem setting_valued (arg : String) (take : String → Args → Except Refusal Args)
    (value : String) (a a' : Args) (h : arm arg = .valued take) (htake : take value a = .ok a') :
    ∃ s : Setting, s.words = [arg, value] := by
  unfold arm at h
  split at h
  case h_1 => exact ⟨.device value, rfl⟩
  case h_3 => exact ⟨.audioDevice value, rfl⟩
  case h_5 => exact ⟨.videoDevice value, rfl⟩
  case h_6 =>
    cases h
    simp only at htake
    split at htake
    · cases htake
    next hname =>
      by_cases hnull : value = "null"
      · exact ⟨.videoRenderer .null, by rw [hnull]; rfl⟩
      · have hwindow : value = "window" := by
          by_contra hwindow
          exact hname ⟨hnull, hwindow⟩
        exact ⟨.videoRenderer .window, by rw [hwindow]; rfl⟩
  all_goals cases h

def settings : Settings arm Setting where
  words := Setting.words
  apply := Setting.apply
  injective := words_injective
  turn := setting_turn
  flag := setting_flag
  valued := setting_valued

def summary (ss : List Setting) : Args where
  deviceId := (ss.filterMap Setting.deviceId?).getLastD defaultDeviceId
  dsAudio := ss.any Setting.asksDsAudio
  audioDevice := (ss.filterMap Setting.audioDevice?).getLast?
  videoKeepalive := ss.any Setting.asksKeepalive
  videoDevice := (ss.filterMap Setting.videoDevice?).getLast?
  videoRenderer := (ss.filterMap Setting.videoRenderer?).getLastD "null"
  videoPassthrough := ss.any Setting.asksPassthrough

theorem args_ext {a b : Args} (hdevice : a.deviceId = b.deviceId) (hds : a.dsAudio = b.dsAudio)
    (haudio : a.audioDevice = b.audioDevice) (hkeepalive : a.videoKeepalive = b.videoKeepalive)
    (hvideo : a.videoDevice = b.videoDevice) (hrenderer : a.videoRenderer = b.videoRenderer)
    (hpassthrough : a.videoPassthrough = b.videoPassthrough) : a = b := by
  cases a
  cases b
  simp_all

theorem outcome_summary (ss : List Setting) : settings.outcome ss initial = summary ss := by
  apply args_ext
  · exact Settings.outcome_last Args.deviceId Setting.deviceId? (fun s _ => by cases s <;> rfl) ss _
  · exact Settings.outcome_any Args.dsAudio Setting.asksDsAudio (fun s _ => by cases s <;> rfl) ss
      rfl
  · exact Settings.outcome_getLast Args.audioDevice Setting.audioDevice?
      (fun s _ => by cases s <;> rfl) ss rfl
  · exact Settings.outcome_any Args.videoKeepalive Setting.asksKeepalive
      (fun s _ => by cases s <;> rfl) ss rfl
  · exact Settings.outcome_getLast Args.videoDevice Setting.videoDevice?
      (fun s _ => by cases s <;> rfl) ss rfl
  · exact Settings.outcome_last Args.videoRenderer Setting.videoRenderer?
      (fun s _ => by cases s <;> rfl) ss _
  · exact Settings.outcome_any Args.videoPassthrough Setting.asksPassthrough
      (fun s _ => by cases s <;> rfl) ss rfl

end Settings

section Outcome

variable {argv : List String} {args : Args}

/-- What the program may rely on behind its arguments. -/
structure Coherent (args : Args) : Prop where
  device : args.dsAudio = false → args.deviceId ≠ ""
  passthrough : args.videoPassthrough = true → args.dsAudio = true
  audioDevice : args.audioDevice ≠ none → args.dsAudio = true
  videoDevice : args.videoDevice ≠ none → args.videoKeepalive = true
  renderer : ∃ r : Renderer, args.videoRenderer = r.name

theorem any_of_getLast {F : Type} {ss : List Setting} {put : Setting → Option F}
    {mark : Setting → Bool} (hmark : ∀ s v, put s = some v → mark s = true)
    (h : (ss.filterMap put).getLast? ≠ none) : ss.any mark = true := by
  obtain ⟨v, hv⟩ := Option.ne_none_iff_exists'.mp h
  obtain ⟨s, hs, hput⟩ := List.mem_filterMap.mp (List.mem_of_getLast? hv)
  exact List.any_eq_true.mpr ⟨s, hs, hmark s v hput⟩

theorem any_mono {ss : List Setting} {mark mark' : Setting → Bool}
    (hmark : ∀ s, mark s = true → mark' s = true) (h : ss.any mark = true) :
    ss.any mark' = true := by
  obtain ⟨s, hs, hm⟩ := List.any_eq_true.mp h
  exact List.any_eq_true.mpr ⟨s, hs, hmark s hm⟩

theorem summary_renderer (ss : List Setting) :
    ∃ r : Renderer, (summary ss).videoRenderer = r.name := by
  cases h : (ss.filterMap Setting.videoRenderer?).getLast? with
  | none => exact ⟨.null, by simp [summary, List.getLastD_eq_getLast?, h]; rfl⟩
  | some name =>
    obtain ⟨s, -, hs⟩ := List.mem_filterMap.mp (List.mem_of_getLast? h)
    cases s with
    | videoRenderer renderer =>
      cases hs
      exact ⟨renderer, by simp [summary, List.getLastD_eq_getLast?, h]⟩
    | _ => cases hs

theorem summary_coherent {ss : List Setting}
    (h : (summary ss).dsAudio = true ∨ (summary ss).deviceId ≠ "") : Coherent (summary ss) := by
  refine ⟨fun hds => ?_, fun h => ?_, fun h => ?_, fun h => ?_, summary_renderer ss⟩
  · rcases h with h | h
    · simp [h] at hds
    · exact h
  · exact any_mono (fun s hs => by cases s <;> first | rfl | cases hs) h
  · exact any_of_getLast (fun s v hs => by cases s <;> first | rfl | cases hs) h
  · exact any_of_getLast (fun s v hs => by cases s <;> first | rfl | cases hs) h

theorem parseArgs_ok : parseArgs argv = .ok args ↔
    parse arm .usage argv initial = .ok args ∧ (args.dsAudio = true ∨ args.deviceId ≠ "") := by
  unfold parseArgs
  cases h : parse arm .usage argv initial with
  | error e => simp [bind, Except.bind]
  | ok a =>
    simp only [bind, Except.bind, Except.ok.injEq]
    split
    next hno =>
      simp only [Bool.and_eq_true, Bool.not_eq_true', decide_eq_true_eq] at hno
      constructor
      · intro h
        cases h
      · rintro ⟨rfl, h⟩
        simp [hno] at h
    next hdevice =>
      simp only [Bool.and_eq_true, Bool.not_eq_true', decide_eq_true_eq] at hdevice
      constructor
      · intro h
        cases h
        refine ⟨rfl, ?_⟩
        by_contra hboth
        simp_all
      · rintro ⟨rfl, -⟩
        rfl

theorem parseArgs_error {e : Refusal} : parseArgs argv = .error e ↔
    parse arm .usage argv initial = .error e ∨ ∃ args, parse arm .usage argv initial = .ok args ∧
      args.dsAudio = false ∧ args.deviceId = "" ∧ e = noDevice := by
  unfold parseArgs
  cases h : parse arm .usage argv initial with
  | error e' => simp [bind, Except.bind]
  | ok a =>
    simp only [bind, Except.bind]
    split
    next hno =>
      simp only [Bool.and_eq_true, Bool.not_eq_true', decide_eq_true_eq] at hno
      constructor
      · intro h
        cases h
        exact Or.inr ⟨a, rfl, hno.1, hno.2, rfl⟩
      · rintro (h | ⟨_, -, -, -, rfl⟩)
        · cases h
        · rfl
    next hdevice =>
      simp only [Bool.and_eq_true, Bool.not_eq_true', decide_eq_true_eq] at hdevice
      constructor
      · intro h
        cases h
      · rintro (h | ⟨args, h, hds, hid, -⟩)
        · cases h
        · cases h
          exact absurd ⟨hds, hid⟩ hdevice

theorem parseArgs_coherent (h : parseArgs argv = .ok args) : Coherent args := by
  obtain ⟨hparse, hdevice⟩ := parseArgs_ok.mp h
  obtain ⟨ss, -, rfl⟩ := settings.parse_ok_iff.mp hparse
  rw [outcome_summary] at hdevice ⊢
  exact summary_coherent hdevice

def spelled (args : Args) (r : Renderer) : List Setting :=
  [.device args.deviceId, .videoRenderer r] ++
    (if args.dsAudio then [.dsAudio] else []) ++ args.audioDevice.toList.map .audioDevice ++
    (if args.videoKeepalive then [.videoKeepalive] else []) ++
    args.videoDevice.toList.map .videoDevice ++
    (if args.videoPassthrough then [.videoPassthrough] else [])

def render (args : Args) : List String :=
  ["--device", args.deviceId, "--video-renderer", args.videoRenderer] ++
    (if args.dsAudio then ["--ds-audio"] else []) ++
    (args.audioDevice.toList.flatMap fun name => ["--audio-device", name]) ++
    (if args.videoKeepalive then ["--video-keepalive"] else []) ++
    (args.videoDevice.toList.flatMap fun name => ["--video-device", name]) ++
    (if args.videoPassthrough then ["--video-passthrough"] else [])

theorem line_spelled {r : Renderer} (h : args.videoRenderer = r.name) :
    settings.line (spelled args r) = render args := by
  obtain ⟨id, ds, audio, keepalive, video, renderer, passthrough⟩ := args
  obtain rfl : renderer = r.name := h
  cases ds <;> cases audio <;> cases keepalive <;> cases video <;> cases passthrough <;> rfl

theorem summary_spelled {r : Renderer} (h : Coherent args) (hr : args.videoRenderer = r.name) :
    summary (spelled args r) = args := by
  obtain ⟨id, ds, audio, keepalive, video, renderer, passthrough⟩ := args
  obtain rfl : renderer = r.name := hr
  obtain ⟨-, hpassthrough, haudio, hvideo, -⟩ := h
  cases ds <;> cases audio <;> cases keepalive <;> cases video <;> cases passthrough <;>
    first | rfl | simp_all

/-- An accepted line is exactly one list of settings, of which the last of a field wins and the
marks add up. A refused one is settings up to the first argument that cannot be read, or
settings that name no source of sound. And what a line can say is what is coherent. -/
theorem guest_command_line (argv : List String) :
    (∀ args, parseArgs argv = .ok args ↔ ∃! ss, argv = settings.line ss ∧ args = summary ss ∧
      (args.dsAudio = true ∨ args.deviceId ≠ "")) ∧
    (∀ e, parseArgs argv = .error e ↔ ∃ ss rest, argv = settings.line ss ++ rest ∧
      (Stuck arm .usage rest (summary ss) e ∨ rest = [] ∧ (summary ss).dsAudio = false ∧
        (summary ss).deviceId = "" ∧ e = noDevice)) ∧
    ∀ args, ((∃ line, parseArgs line = .ok args) ↔ Coherent args) ∧
      (parseArgs (render args) = .ok args ↔ Coherent args) := by
  have hok (argv : List String) (args : Args) : parse arm .usage argv initial = .ok args ↔
      ∃ ss, argv = settings.line ss ∧ args = summary ss := by
    simp only [settings.parse_ok_iff, outcome_summary]
  refine ⟨fun args => ?_, fun e => ?_, fun args => ?_⟩
  · rw [parseArgs_ok, hok]
    constructor
    · rintro ⟨⟨ss, hline, hargs⟩, hdevice⟩
      exact ⟨ss, ⟨hline, hargs, hdevice⟩, fun ss' h => settings.line_injective (h.1.symm.trans hline)⟩
    · rintro ⟨ss, ⟨hline, hargs, hdevice⟩, -⟩
      exact ⟨⟨ss, hline, hargs⟩, hdevice⟩
  · simp only [parseArgs_error, settings.parse_error_iff, hok, outcome_summary]
    constructor
    · rintro (⟨ss, rest, hline, hstuck⟩ | ⟨args, ⟨ss, hline, rfl⟩, hds, hid, he⟩)
      · exact ⟨ss, rest, hline, Or.inl hstuck⟩
      · exact ⟨ss, [], by rwa [List.append_nil], Or.inr ⟨rfl, hds, hid, he⟩⟩
    · rintro ⟨ss, rest, hline, hstuck | ⟨rfl, hds, hid, he⟩⟩
      · exact Or.inl ⟨ss, rest, hline, hstuck⟩
      · exact Or.inr ⟨summary ss, ⟨ss, by rwa [List.append_nil] at hline, rfl⟩, hds, hid, he⟩
  · have hrender (h : Coherent args) : parseArgs (render args) = .ok args := by
      obtain ⟨r, hr⟩ := h.renderer
      refine parseArgs_ok.mpr ⟨(hok _ _).mpr ⟨spelled args r, ?_, ?_⟩, ?_⟩
      · exact (line_spelled hr).symm
      · exact (summary_spelled h hr).symm
      · cases hds : args.dsAudio with
        | true => exact Or.inl rfl
        | false => exact Or.inr (h.device hds)
    refine ⟨⟨?_, fun h => ⟨render args, hrender h⟩⟩, parseArgs_coherent, hrender⟩
    rintro ⟨line, hline⟩
    exact parseArgs_coherent hline

/-- A flag is taken for the value of the flag in front of it. -/
example : parseArgs ["--device", "--ds-audio"] = .ok { initial with deviceId := "--ds-audio" } := by
  rfl

end Outcome

end VmArguments
