import Lalah.DshowCapture

/-! Runs of the capture over a DirectShow graph: its calls keep to their protocol, and the
buffers that the streaming threads deliver meet a format, or a geometry, that is published. -/
namespace DshowSession

open InteractionProgram CallProtocol ShmContract ShmVideoContract AudioFormatParse DshowCapture
open DeviceWalk hiding permits after protocol call Fallible

section Obedience

variable (cfg : Config)

/-- Everything that was read is freed, but for a media type that the parser refused, and the graph
was not run. -/
structure Ended (d : Session) : Prop where
  stopped : .run ∉ d.made
  audio : .audio ∈ d.owed → ∃ mt, d.audioType = some mt ∧ parseWfx cfg.platform mt = none
  video : .video ∈ d.owed → ∃ mt, d.videoType = some mt ∧
    parseVideoFormat cfg.videoPlatform mt = none

structure Assembling (d : Session) : Prop where
  stopped : .run ∉ d.made
  graph : .coInitializeEx ∈ d.made ∧ .createGraph ∈ d.made ∧ .setFiltergraph ∈ d.made ∧
    .castMediaControl ∈ d.made
  owed : d.owed = []
  unread : d.audioType = none ∧ d.videoType = none
  format : d.format = none
  geometry : d.geometry = none

structure Seeking (s : Stream) (d : Session) : Prop where
  walk : (d.devices s).walk = .going
  naming : (d.devices s).naming = none
  bound : (d.devices s).bound = none
  first : (cfg.search s).first (d.devices s).seen = none

structure Grabbing (d : Session) : Prop where
  cast : .castGrabber .audio ∈ d.made
  grabber : .addFilter (.grabber .audio) ∈ d.made
  null : .addFilter (.null .audio) ∈ d.made

def Camera (video : Bool) (d : Session) : Prop :=
  if video then cfg.wantVideo = true ∧ .addFilter (.source .video) ∈ d.made else True

structure Running (d : Session) : Prop where
  run : .run ∈ d.made
  owed : d.owed = []

def Between : Point → Session → Prop
  | .opening, d => d = blank
  | .seekingVideo, d => cfg.wantVideo = true ∧ Assembling d ∧ Seeking cfg .video d ∧
      d.devices .audio = noDevices
  | .seekingAudio video, d => Assembling d ∧ Seeking cfg .audio d ∧ Grabbing d ∧
      Camera cfg video d
  | .running, d => Running d
  | .done _, d => Ended cfg d

variable {cfg} {β : Type} {d : Session} {E : Except Hresult β → Session → Prop}

theorem ended_empty (hrun : .run ∉ d.made) (h : d.owed = []) : Ended cfg d := by
  constructor <;> simp [hrun, h]

theorem run_notMem {r : Request} {made : List Request} (hr : r ≠ .run) (hrun : .run ∉ made) :
    .run ∉ r :: made := by
  simp [hr.symm, hrun]

theorem obeys_request {r : Request} {Q : Except Hresult Unit → Session → Prop}
    (hrequires : ∀ q ∈ requires r, q ∈ d.made) (hopens : Opens cfg d r)
    (herror : ∀ err, Q (.error err) d) (hok : Q (.ok ()) { d with made := r :: d.made }) :
    Obeys (protocol cfg) Q (attempt r).run d := by
  refine obeys_fallible (P := protocol cfg) (CaptureOp.request r) id ⟨hrequires, hopens⟩ ?_ ?_
  · rintro _ err rfl
    exact herror err
  · rintro _ ⟨⟩ rfl
    exact hok

theorem obeys_attempt {r : Request} {f : Unit → Fallible β}
    (hrequires : ∀ q ∈ requires r, q ∈ d.made) (hopens : Opens cfg d r)
    (herror : ∀ err, E (.error err) d)
    (hok : Obeys (protocol cfg) E (f ()).run { d with made := r :: d.made }) :
    Obeys (protocol cfg) E (attempt r >>= f).run d :=
  obeys_try (obeys_request hrequires hopens herror hok)

theorem obeys_orFail {α : Type} {o : Option α} {f : α → Fallible β}
    (hnone : o = none → E (.error eFail) d)
    (hsome : ∀ a, o = some a → Obeys (protocol cfg) E (f a).run d) :
    Obeys (protocol cfg) E (orFail o >>= f).run d := by
  cases o with
  | none => exact hnone rfl
  | some a => exact hsome a rfl

def Grabbed (s : Stream) (d : Session) : Except Hresult Unit → Session → Prop
  | .ok (), d' => ∃ more, d' = { d with made := more ++ d.made } ∧ .run ∉ more ∧
      .castGrabber s ∈ more ∧ .addFilter (.grabber s) ∈ more ∧ .addFilter (.null s) ∈ more
  | .error _, d' => d'.owed = d.owed ∧ .run ∉ d'.made

theorem obeys_addGrabber (want : Want) (hrun : .run ∉ d.made)
    (hgraph : .coInitializeEx ∈ d.made ∧ .createGraph ∈ d.made) :
    Obeys (protocol cfg) (Grabbed want.stream d) (addGrabber want).run d := by
  obtain ⟨hcom, hcreate⟩ := hgraph
  apply obeys_attempt
  · simp [requires, hcom]
  · trivial
  · exact fun _ => ⟨rfl, by simpa using hrun⟩
  apply obeys_attempt
  · simp [requires]
  · trivial
  · exact fun _ => ⟨rfl, by simpa using hrun⟩
  apply obeys_attempt
  · simp [requires]
  · trivial
  · exact fun _ => ⟨rfl, by simpa using hrun⟩
  apply obeys_attempt
  · simp [requires]
  · trivial
  · exact fun _ => ⟨rfl, by simpa using hrun⟩
  apply obeys_attempt
  · simp [requires]
  · trivial
  · exact fun _ => ⟨rfl, by simpa using hrun⟩
  apply obeys_attempt
  · simp [requires, hcreate]
  · trivial
  · exact fun _ => ⟨rfl, by simpa using hrun⟩
  apply obeys_attempt
  · simp [requires, hcom]
  · trivial
  · exact fun _ => ⟨rfl, by simpa using hrun⟩
  apply obeys_request
  · simp [requires, hcreate]
  · trivial
  · exact fun _ => ⟨rfl, by simpa using hrun⟩
  · exact ⟨[_, _, _, _, _, _, _, _], rfl, by simp, by simp, by simp, by simp⟩

def Shown (cfg : Config) (d : Session) : Except Hresult Unit → Session → Prop
  | .ok (), d' => d.made ⊆ d'.made ∧ .run ∉ d'.made ∧ d'.owed = [] ∧
      d'.audioType = d.audioType ∧ d'.format = d.format
  | .error _, d' => Ended cfg d'

theorem obeys_setGeometry {mt : VideoMediaType} {vf : VideoFormat}
    (hparse : parseVideoFormat cfg.videoPlatform mt = some vf) (hgeometry : d.geometry = none)
    (hrun : .run ∉ d.made) (howed : d.owed = []) (hmt : d.videoType = some mt) (hring : cfg.videoRing = true)
    (hcast : .castGrabber .video ∈ d.made) :
    Obeys (protocol cfg) (Shown cfg d) (do
      let slots : Except String UInt32 ← ExceptT.lift (call (.setGeometry vf))
      match slots with
      | .ok _ => attempt (.setCallback .video)
      | .error _ => return : Fallible Unit).run d := by
  apply obeys_try
  refine ⟨⟨hgeometry, howed, hring, mt, hmt, hparse⟩, fun slots => ?_⟩
  rcases (slots : Except String UInt32) with err | n
  · exact ⟨List.Subset.refl _, hrun, howed, rfl, rfl⟩
  · apply obeys_request
    · intro q hq
      obtain rfl := List.mem_singleton.mp hq
      exact hcast
    · exact Option.some_ne_none vf
    · exact fun _ => ended_empty hrun howed
    · exact ⟨List.subset_cons_self _ _, run_notMem nofun hrun, howed, rfl, rfl⟩

theorem obeys_passthrough (h : Assembling d) (hsource : .addFilter (.source .video) ∈ d.made)
    (hring : cfg.videoRing = true) :
    Obeys (protocol cfg) (Shown cfg d) (passthrough cfg).run d := by
  obtain ⟨hrun, ⟨hcom, hcreate, hgraph, _⟩, howed, hunread, _, hgeometry⟩ := h
  apply obeys_try
  apply obeys_mono _ (obeys_addGrabber .nv12 hrun ⟨hcom, hcreate⟩)
  intro r d' hd'
  cases r with
  | error err => exact ended_empty hd'.2 (hd'.1.trans howed)
  | ok u =>
    obtain ⟨more, rfl, hmore, hcast, hgrabber, hnull⟩ := hd'
    have hidle : Request.run ∉ route .video (.source .video) :: (more ++ d.made) := by
      simp [route, hmore, hrun]
    rw [stream_nv12] at hcast hgrabber hnull
    apply obeys_attempt
    · simp [requires, route, hgraph, hsource, hgrabber, hnull]
    · trivial
    · exact fun _ => ended_empty (by simp [hmore, hrun]) howed
    apply obeys_try
    refine ⟨⟨howed, hunread.2, .source .video, by simp⟩, fun reply => ?_⟩
    rcases (reply : Except Hresult VideoMediaType) with err | mt
    · exact ended_empty hidle howed
    apply obeys_orFail
    · intro hparse
      refine ⟨hidle, fun haudio => ?_, fun _ => ⟨mt, rfl, hparse⟩⟩
      have hmem : Stream.audio ∈ Stream.video :: d.owed := haudio
      simp [howed] at hmem
    · intro vf hparse
      apply obeys_try
      refine ⟨List.mem_cons_self, fun _ => ?_⟩
      have hfreed : (Stream.video :: d.owed).erase .video = [] := by simp [howed]
      have hend := @obeys_setGeometry cfg { d with
        made := route .video (.source .video) :: (more ++ d.made)
        videoType := some mt
        owed := (Stream.video :: d.owed).erase .video } mt vf hparse hgeometry hidle hfreed rfl hring
        (by simp [hcast])
      apply obeys_mono _ hend
      intro r d' hd'
      cases r with
      | error err => exact hd'
      | ok u =>
        obtain ⟨hmade, hrest⟩ := hd'
        refine ⟨fun q hq => hmade ?_, hrest⟩
        simp [hq]

theorem obeys_keepAlive {rendererType : String} (h : Assembling d)
    (hsource : .addFilter (.source .video) ∈ d.made) (hring : cfg.videoRing = false)
    (htype : cfg.videoRendererType = some rendererType) :
    Obeys (protocol cfg) (Shown cfg d) (keepAlive rendererType).run d := by
  obtain ⟨hrun, ⟨hcom, hcreate, hgraph, _⟩, howed, _, _, _⟩ := h
  unfold keepAlive
  split
  · apply obeys_attempt
    · simp [requires, hcom]
    · trivial
    · exact fun _ => ended_empty (by simpa using hrun) howed
    apply obeys_attempt
    · simp [requires, hcreate]
    · trivial
    · exact fun _ => ended_empty (by simpa using hrun) howed
    apply obeys_request
    · simp [requires, hgraph, hsource]
    · trivial
    · exact fun _ => ended_empty (by simpa using hrun) howed
    · exact ⟨fun q hq => by simp [hq], by simpa using hrun, howed, rfl, rfl⟩
  next hwindow =>
    apply obeys_request
    · simp [requires, hgraph, hsource]
    · exact ⟨hring, rendererType, htype, hwindow⟩
    · exact fun _ => ended_empty (by simpa using hrun) howed
    · exact ⟨List.subset_cons_self _ _, run_notMem nofun hrun, howed, rfl, rfl⟩

theorem obeys_showVideo (h : Assembling d) (hsource : .addFilter (.source .video) ∈ d.made) :
    Obeys (protocol cfg) (Shown cfg d) (showVideo cfg).run d := by
  unfold showVideo
  split
  next hring => exact obeys_passthrough h hsource hring
  next hring =>
    cases htype : cfg.videoRendererType with
    | none => exact ⟨List.Subset.refl _, h.stopped, h.owed, rfl, rfl⟩
    | some rendererType => exact obeys_keepAlive h hsource (Bool.eq_false_iff.mpr hring) htype

def Concluded (cfg : Config) : Except Hresult Point → Session → Prop
  | .ok point, d => Between cfg point d
  | .error _, d => Ended cfg d

theorem obeys_conclude {p : Fallible Point} (h : Obeys (protocol cfg) (Concluded cfg) p.run d) :
    Obeys (protocol cfg) (Between cfg) (conclude p) d := by
  apply obeys_bind
  apply obeys_mono _ h
  intro r d' hd'
  cases r with
  | error err => exact hd'
  | ok point => exact hd'

theorem obeys_publish (hrun : .run ∉ d.made) (howed : d.owed = []) (hunread : d.audioType = none)
    (hformat : d.format = none)
    (hcast : .castGrabber .audio ∈ d.made ∧ .castMediaControl ∈ d.made)
    (hrouted : Routed .audio d) :
    Obeys (protocol cfg) (Concluded cfg) (publish cfg).run d := by
  apply obeys_try
  refine ⟨⟨howed, hunread, hrouted⟩, fun reply => ?_⟩
  rcases (reply : Except Hresult AmMediaType) with err | mt
  · exact ended_empty hrun howed
  apply obeys_orFail
  · intro hparse
    refine ⟨hrun, fun _ => ⟨mt, rfl, hparse⟩, fun hvideo => ?_⟩
    have hmem : Stream.video ∈ Stream.audio :: d.owed := hvideo
    simp [howed] at hmem
  · intro fmt hparse
    have hfreed : (Stream.audio :: d.owed).erase .audio = [] := by simp [howed]
    apply obeys_try
    refine ⟨List.mem_cons_self, fun _ => ?_⟩
    apply obeys_try
    refine ⟨⟨hformat, hfreed, mt, rfl, hparse⟩, fun _ => ?_⟩
    apply obeys_attempt
    · intro q hq
      obtain rfl := List.mem_singleton.mp hq
      exact hcast.1
    · exact Option.some_ne_none fmt
    · exact fun _ => ended_empty hrun hfreed
    apply obeys_attempt
    · intro q hq
      rcases List.mem_pair.mp hq with rfl | rfl
      · exact List.mem_cons_of_mem _ hcast.2
      · exact List.mem_cons_self
    · exact hfreed
    · exact fun _ => ended_empty (run_notMem nofun hrun) hfreed
    · exact ⟨List.mem_cons_self, hfreed⟩

theorem obeys_finish {video : Bool} (h : Assembling d) (hgrabbing : Grabbing d)
    (hcamera : Camera cfg video d) (hrouted : Routed .audio d) :
    Obeys (protocol cfg) (Concluded cfg) (finish cfg video).run d := by
  cases video with
  | false =>
    exact obeys_publish h.stopped h.owed h.unread.1 h.format ⟨hgrabbing.cast, h.graph.2.2.2⟩ hrouted
  | true =>
    apply obeys_try
    apply obeys_mono _ (obeys_showVideo h hcamera.2)
    intro r d' hd'
    cases r with
    | error err => exact hd'
    | ok u =>
      obtain ⟨hmade, hrun, howed, hunread, hformat⟩ := hd'
      obtain ⟨source, hsource⟩ := hrouted
      exact obeys_publish hrun howed (hunread.trans h.unread.1) (hformat.trans h.format)
        ⟨hmade hgrabbing.cast, hmade h.graph.2.2.2⟩ ⟨source, hmade hsource⟩

@[simp] theorem setDevices_devices (s : Stream) (x : Devices) :
    (d.setDevices s x).devices s = x := by
  simp [Session.setDevices]

theorem setDevices_self (s : Stream) : d.setDevices s (d.devices s) = d := by
  simp [Session.setDevices]

theorem setDevices_twice (s : Stream) (x y : Devices) :
    (d.setDevices s x).setDevices s y = d.setDevices s y := by
  simp [Session.setDevices]

theorem obeys_walking {α : Type} {s : Stream} {p : WalkProg α} {Q : α → Devices → Prop}
    (hcom : .coInitializeEx ∈ d.made) (hwant : s = .video → cfg.wantVideo = true)
    (h : Obeys (DeviceWalk.protocol (cfg.search s) sourceEnds Variant.text) Q p (d.devices s)) :
    Obeys (protocol cfg) (fun a d' => ∃ x, d' = d.setDevices s x ∧ Q a x) (walking s p) d := by
  have hpermits : ∀ op x, DeviceWalk.permits (cfg.search s) op x →
      permits cfg (.walk s op) (d.setDevices s x) := by
    intro op x hop
    refine ⟨hcom, hwant, ?_⟩
    simpa using hop
  have hafter : ∀ op (reply : op.Reply) x, after cfg (.walk s op) reply (d.setDevices s x) =
      d.setDevices s (DeviceWalk.after (cfg.search s) sourceEnds Variant.text op reply x) := by
    intro op reply x
    change (d.setDevices s x).setDevices s _ = _
    rw [setDevices_twice, setDevices_devices]
  exact obeys_lift (P := DeviceWalk.protocol (cfg.search s) sourceEnds Variant.text)
    (fun d : Session => d.devices s) (fun x d => d.setDevices s x) hpermits hafter
    (setDevices_self s) h

theorem assembling_devices {s : Stream} {x : Devices} (h : Assembling d) :
    Assembling (d.setDevices s x) := ⟨h.stopped, h.graph, h.owed, h.unread, h.format, h.geometry⟩

theorem grabbing_devices {s : Stream} {x : Devices} (h : Grabbing d) :
    Grabbing (d.setDevices s x) := ⟨h.cast, h.grabber, h.null⟩

theorem assembling_made {r : Request} (hr : r ≠ .run) (h : Assembling d) :
    Assembling { d with made := r :: d.made } := by
  obtain ⟨hrun, ⟨hcom, hcreate, hgraph, hcontrol⟩, howed, hunread, hformat, hgeometry⟩ := h
  refine ⟨run_notMem hr hrun, ⟨?_, ?_, ?_, ?_⟩, howed, hunread, hformat, hgeometry⟩ <;>
    apply List.mem_cons_of_mem
  · exact hcom
  · exact hcreate
  · exact hgraph
  · exact hcontrol

theorem grabbing_made {r : Request} (h : Grabbing d) : Grabbing { d with made := r :: d.made } :=
  ⟨List.mem_cons_of_mem _ h.cast, List.mem_cons_of_mem _ h.grabber, List.mem_cons_of_mem _ h.null⟩

theorem camera_made {r : Request} {video : Bool} (h : Camera cfg video d) :
    Camera cfg video { d with made := r :: d.made } := by
  cases video with
  | false => trivial
  | true => exact ⟨h.1, List.mem_cons_of_mem _ h.2⟩

theorem seeking_devices {s : Stream} {x : Devices} (hwalk : x.walk = .going)
    (hnaming : x.naming = none) (hbound : x.bound = none)
    (hfirst : (cfg.search s).first x.seen = none) : Seeking cfg s (d.setDevices s x) := by
  constructor <;> simpa [Session.setDevices]

theorem obeys_seekAudio {video : Bool} (h : Assembling d) (hgrabbing : Grabbing d)
    (hcamera : Camera cfg video d) (hdevices : d.devices .audio = noDevices) :
    Obeys (protocol cfg) (Concluded cfg) (do
      ExceptT.mk (walking .audio sourceDevices.run)
      return .seekingAudio video : Fallible Point).run d := by
  apply obeys_try
  have hwalk := @obeys_sourceDevices (cfg.search .audio)
  rw [← hdevices] at hwalk
  apply obeys_mono _ (obeys_walking (s := .audio) h.graph.1 nofun hwalk)
  rintro r _ ⟨x, rfl, hx⟩
  cases r with
  | error err => exact ended_empty h.stopped h.owed
  | ok u =>
    obtain rfl : x = _ := hx
    exact ⟨assembling_devices h, seeking_devices rfl rfl rfl rfl, ⟨hgrabbing.cast,
      hgrabbing.grabber, hgrabbing.null⟩, hcamera⟩

theorem obeys_routeAudio {video : Bool} (h : Assembling d) (hcamera : Camera cfg video d)
    (hdevices : d.devices .audio = noDevices) :
    Obeys (protocol cfg) (Concluded cfg) (routeAudio cfg video).run d := by
  obtain ⟨hrun, ⟨hcom, hcreate, hgraph, hcontrol⟩, howed, hunread, hformat, hgeometry⟩ := h
  apply obeys_try
  apply obeys_mono _ (obeys_addGrabber pcmWant hrun ⟨hcom, hcreate⟩)
  intro r d' hd'
  cases r with
  | error err => exact ended_empty hd'.2 (hd'.1.trans howed)
  | ok u =>
    obtain ⟨more, rfl, hidle, hcast, hgrabber, hnull⟩ := hd'
    rw [stream_pcmWant] at hcast hgrabber hnull
    have hassembling : ∀ made, d.made ⊆ made → .run ∉ made → Assembling { d with made := made } :=
      fun made hmade hrun =>
        ⟨hrun, ⟨hmade hcom, hmade hcreate, hmade hgraph, hmade hcontrol⟩, howed, hunread, hformat,
          hgeometry⟩
    have hkept : ∀ made, d.made ⊆ made → Camera cfg video { d with made := made } := by
      intro made hmade
      cases video with
      | false => trivial
      | true => exact ⟨hcamera.1, hmade hcamera.2⟩
    have hmore : d.made ⊆ more ++ d.made := fun q hq => List.mem_append_right more hq
    have hgrabbing : ∀ made, more ⊆ made → Grabbing { d with made := made } :=
      fun made hmade => ⟨hmade hcast, hmade hgrabber, hmade hnull⟩
    have hleft : more ⊆ more ++ d.made := fun q hq => List.mem_append_left _ hq
    have hseek := @obeys_seekAudio cfg { d with made := more ++ d.made } video
      (hassembling _ hmore (by simp [hidle, hrun])) (hgrabbing _ hleft) (hkept _ hmore) hdevices
    cases video with
    | false => exact hseek
    | true =>
      apply obeys_try
      have hroute : ∀ q ∈ requires (route .audio (.source .video)), q ∈ more ++ d.made := by
        simp [requires, route, hgraph, hcamera.2, hgrabber, hnull]
      refine ⟨⟨hroute, trivial⟩, fun reply => ?_⟩
      rcases (reply : Except Hresult Unit) with err | ⟨⟩
      · exact hseek
      · have hsub : d.made ⊆ route .audio (.source .video) :: (more ++ d.made) :=
          fun q hq => List.mem_cons_of_mem _ (hmore hq)
        exact obeys_finish (hassembling _ hsub (by simp [route, hidle, hrun]))
          (hgrabbing _ fun q hq => List.mem_cons_of_mem _ (hleft hq)) (hkept _ hsub)
          ⟨.source .video, List.mem_cons_self⟩

theorem obeys_bindSource {s : Stream} {moniker : Moniker} {name : String}
    (hcom : .coInitializeEx ∈ d.made) (hwant : s = .video → cfg.wantVideo = true)
    (hnaming : (d.devices s).naming = none) (hbound : (d.devices s).bound = none)
    (hfirst : (cfg.search s).first (d.devices s).seen = some (moniker, name)) :
    Obeys (protocol cfg) (fun r d' => match r with
      | .ok () => d' = d.setDevices s { d.devices s with bound := some (moniker, name) }
      | .error _ => d' = d) (bindSource s moniker).run d := by
  refine ⟨⟨hcom, hwant, hnaming, hbound, name, hfirst⟩, fun reply => ?_⟩
  rcases (reply : Except Hresult Unit) with err | ⟨⟩
  · exact setDevices_self s
  · change d.setDevices s { d.devices s with bound := (cfg.search s).first (d.devices s).seen } = _
    rw [hfirst]

theorem obeys_openGraph : Obeys (protocol cfg) (fun r d => match r with
    | .ok () => Assembling d ∧ ∀ s, d.devices s = noDevices
    | .error _ => .run ∉ d.made ∧ d.owed = []) openGraph.run blank := by
  apply obeys_attempt
  · simp [requires]
  · trivial
  · exact fun _ => ⟨by simp [blank], rfl⟩
  apply obeys_attempt
  · simp [requires]
  · trivial
  · exact fun _ => ⟨by simp [blank], rfl⟩
  apply obeys_attempt
  · simp [requires]
  · trivial
  · exact fun _ => ⟨by simp [blank], rfl⟩
  apply obeys_attempt
  · simp [requires]
  · trivial
  · exact fun _ => ⟨by simp [blank], rfl⟩
  apply obeys_request
  · simp [requires]
  · trivial
  · exact fun _ => ⟨by simp [blank], rfl⟩
  · exact ⟨⟨by simp [blank], by simp, rfl, ⟨rfl, rfl⟩, rfl, rfl⟩, fun _ => rfl⟩

theorem obeys_opening (hd : Assembling d) (hdevices : ∀ s, d.devices s = noDevices) :
    Obeys (protocol cfg) (Concluded cfg) (do
      if cfg.wantVideo then
        match ← ExceptT.lift (walking .video sourceDevices.run) with
        | .ok () => return .seekingVideo
        | .error _ => routeAudio cfg false
      else routeAudio cfg false : Fallible Point).run d := by
  cases hwant : cfg.wantVideo with
  | false => exact obeys_routeAudio hd trivial (hdevices .audio)
  | true =>
    apply obeys_infallible
    have hwalk := @obeys_sourceDevices (cfg.search .video)
    rw [← hdevices .video] at hwalk
    apply obeys_mono _ (obeys_walking (s := .video) hd.graph.1 (fun _ => hwant) hwalk)
    rintro r _ ⟨x, rfl, hx⟩
    cases r with
    | error err => exact obeys_routeAudio (assembling_devices hd) trivial (hdevices .audio)
    | ok u =>
      obtain rfl : x = _ := hx
      exact ⟨hwant, assembling_devices hd, seeking_devices rfl rfl rfl rfl, hdevices .audio⟩

/-- What a turn of a walk leaves: nothing more, a device that may be bound, or another turn. -/
def Sought (cfg : Config) (s : Stream) (d : Session) : Option (Moniker × String) → Session → Prop
  | none, d' => ∃ x, d' = d.setDevices s x
  | some (moniker, name), d' => ∃ x, d' = d.setDevices s x ∧ x.naming = none ∧ x.bound = none ∧
      if (cfg.search s).isMatch name then (cfg.search s).first x.seen = some (moniker, name)
      else Seeking cfg s d'

theorem obeys_sourceTurn {s : Stream} (hcom : .coInitializeEx ∈ d.made)
    (hwant : s = .video → cfg.wantVideo = true) (h : Seeking cfg s d) :
    Obeys (protocol cfg) (Sought cfg s d) (walking s sourceTurn) d := by
  have hturn := @obeys_turn (cfg.search s) sourceEnds Variant.text (d.devices s) _
    names_monikerName h.walk h.naming
  apply obeys_mono _ (obeys_walking hcom hwant hturn)
  rintro r _ ⟨x, rfl, hx⟩
  cases r with
  | none => exact ⟨x, rfl⟩
  | some device =>
    obtain ⟨moniker, name⟩ := device
    obtain rfl : x = _ := hx
    have hfirst := first_snoc (cfg.search s) (d.devices s).seen (moniker, name)
    rw [h.first] at hfirst
    refine ⟨_, rfl, h.naming, h.bound, ?_⟩
    by_cases hmatch : (cfg.search s).isMatch name
    · rw [if_pos hmatch]
      exact hfirst.trans (if_pos hmatch)
    · rw [if_neg hmatch]
      exact seeking_devices h.walk h.naming h.bound (hfirst.trans (if_neg hmatch))

theorem obeys_seekingVideo (h : Between cfg .seekingVideo d) :
    Obeys (protocol cfg) (Between cfg) (capture cfg .seekingVideo) d := by
  obtain ⟨hwant, hassembling, hseeking, haudio⟩ := h
  apply obeys_conclude
  apply obeys_infallible
  apply obeys_mono _ (obeys_sourceTurn hassembling.graph.1 (fun _ => hwant) hseeking)
  intro r d' hd'
  cases r with
  | none =>
    obtain ⟨x, rfl⟩ := hd'
    exact obeys_routeAudio (assembling_devices hassembling) trivial haudio
  | some device =>
    obtain ⟨moniker, name⟩ := device
    obtain ⟨x, rfl, hnaming, hbound, hfirst⟩ := hd'
    change Obeys _ _ (ExceptT.run (if (cfg.search .video).isMatch name then _ else _)) _
    by_cases hmatch : (cfg.search .video).isMatch name
    · rw [if_pos hmatch] at hfirst ⊢
      have hbind := @obeys_bindSource cfg (d.setDevices .video x) .video moniker name
        hassembling.graph.1 (fun _ => hwant) (by simpa) (by simpa) (by simpa)
      apply obeys_infallible
      apply obeys_mono _ hbind
      intro r d' hd'
      cases r with
      | error err =>
        obtain rfl := hd'
        exact obeys_routeAudio (assembling_devices hassembling) trivial haudio
      | ok u =>
        obtain rfl := hd'
        apply obeys_attempt
        · simp [requires, Session.setDevices, hassembling.graph]
        · exact ⟨(moniker, name), by simp, by simpa⟩
        · exact fun _ => ended_empty hassembling.stopped hassembling.owed
        apply obeys_routeAudio
        · exact assembling_made nofun (assembling_devices (assembling_devices hassembling))
        · exact ⟨hwant, List.mem_cons_self⟩
        · exact haudio
    · rw [if_neg hmatch] at hfirst ⊢
      exact ⟨hwant, assembling_devices hassembling, hfirst, haudio⟩

theorem obeys_seekingAudio {video : Bool} (h : Between cfg (.seekingAudio video) d) :
    Obeys (protocol cfg) (Between cfg) (capture cfg (.seekingAudio video)) d := by
  obtain ⟨hassembling, hseeking, hgrabbing, hcamera⟩ := h
  apply obeys_conclude
  apply obeys_infallible
  apply obeys_mono _ (obeys_sourceTurn (s := .audio) hassembling.graph.1 nofun hseeking)
  intro r d' hd'
  cases r with
  | none =>
    obtain ⟨x, rfl⟩ := hd'
    exact ended_empty hassembling.stopped hassembling.owed
  | some device =>
    obtain ⟨moniker, name⟩ := device
    obtain ⟨x, rfl, hnaming, hbound, hfirst⟩ := hd'
    change Obeys _ _ (ExceptT.run (if (cfg.search .audio).isMatch name then _ else _)) _
    by_cases hmatch : (cfg.search .audio).isMatch name
    · rw [if_pos hmatch] at hfirst ⊢
      have hbind := @obeys_bindSource cfg (d.setDevices .audio x) .audio moniker name
        hassembling.graph.1 nofun (by simpa) (by simpa) (by simpa)
      apply obeys_try
      apply obeys_mono _ hbind
      intro r d' hd'
      cases r with
      | error err =>
        obtain rfl := hd'
        exact ended_empty hassembling.stopped hassembling.owed
      | ok u =>
        obtain rfl := hd'
        apply obeys_attempt
        · simp [requires, Session.setDevices, hassembling.graph]
        · exact ⟨(moniker, name), by simp, by simpa⟩
        · exact fun _ => ended_empty hassembling.stopped hassembling.owed
        apply obeys_attempt
        · simp [requires, route, Session.setDevices, hassembling.graph, hgrabbing.grabber,
            hgrabbing.null]
        · trivial
        · exact fun _ => ended_empty (run_notMem nofun hassembling.stopped) hassembling.owed
        apply obeys_finish
        · exact assembling_made nofun (assembling_made nofun (assembling_devices
            (assembling_devices hassembling)))
        · exact grabbing_made (grabbing_made (grabbing_devices (grabbing_devices hgrabbing)))
        · exact camera_made (camera_made hcamera)
        · exact ⟨.source .audio, List.mem_cons_self⟩
    · rw [if_neg hmatch] at hfirst ⊢
      exact ⟨assembling_devices hassembling, hfirst, grabbing_devices hgrabbing, hcamera⟩

theorem obeys_capture (point : Point) (d : Session) (h : Between cfg point d) :
    Obeys (protocol cfg) (Between cfg) (capture cfg point) d := by
  cases point with
  | opening =>
    obtain rfl : d = blank := h
    apply obeys_conclude
    apply obeys_try
    apply obeys_mono _ obeys_openGraph
    intro r d hd
    cases r with
    | error err => exact ended_empty hd.1 hd.2
    | ok u => exact obeys_opening hd.1 hd.2
  | seekingVideo => exact obeys_seekingVideo h
  | seekingAudio video => exact obeys_seekingAudio h
  | running =>
    have hrunning : Running d := h
    exact ⟨hrunning.run, fun _ => hrunning⟩
  | done err => exact h

end Obedience

section Runs

/-- What a callback is given: a pointer, which may be null, and a length, which may be negative. -/
structure Buffer where
  null : Bool
  len : Int32
  data : ℕ → UInt8

def Buffer.slice (b : Buffer) : Option (List UInt8) :=
  if !b.null && 0 < b.len then some ((List.range b.len.toNatClampNeg).map b.data) else none

structure State where
  thread : Party CaptureOp CaptureOp.Reply Point
  session : Session
  pushes : List (List UInt8)
  frames : List (List UInt8)

/-- `capture` is the next step of the capturing thread, with what its call returns; `buffer` a
buffer on a streaming thread, for the callback of its kind. -/
inductive Event where
  | capture (reply : (op : CaptureOp) → op.Reply)
  | buffer (s : Stream) (b : Buffer)

variable (cfg : Config)

def State.capture (s : State) (reply : (op : CaptureOp) → op.Reply) : State :=
  match s.thread.prog with
  | .ret _ => { s with thread := s.thread.invoke (DshowCapture.capture cfg) }
  | .act op k =>
    { s with
      thread := settle s.thread.ctl (op :: s.thread.made) (k (reply op))
      session := after cfg op (reply op) s.session }

def State.deliver (s : State) (stream : Stream) (b : Buffer) : State :=
  if .setCallback stream ∈ s.session.made then
    match stream, b.slice with
    | _, none => s
    | .audio, some src => { s with pushes := s.pushes ++ [src] }
    | .video, some src => { s with frames := s.frames ++ [src] }
  else s

def next : Event → State → State
  | .capture reply, s => s.capture cfg reply
  | .buffer stream b, s => s.deliver stream b

end Runs

structure Run where
  cfg : Config
  event : ℕ → Event

def Run.state (r : Run) : ℕ → State
  | 0 => ⟨.rest .opening, blank, [], []⟩
  | t + 1 => next r.cfg (r.event t) (r.state t)

section Published

variable {cfg : Config} {d : Session} {s : State}

structure Published (cfg : Config) (d : Session) : Prop where
  audio : .setCallback .audio ∈ d.made → d.format ≠ none
  video : .setCallback .video ∈ d.made → d.geometry ≠ none
  format : ∀ fmt, d.format = some fmt →
    ∃ mt, d.audioType = some mt ∧ parseWfx cfg.platform mt = some fmt
  geometry : ∀ vf, d.geometry = some vf → cfg.videoRing = true ∧
    ∃ mt, d.videoType = some mt ∧ parseVideoFormat cfg.videoPlatform mt = some vf

theorem published_blank : Published cfg blank := ⟨nofun, nofun, nofun, nofun⟩

theorem published_after {op : CaptureOp} (reply : op.Reply) (hop : permits cfg op d)
    (h : Published cfg d) : Published cfg (after cfg op reply d) := by
  obtain ⟨haudio, hvideo, hformat, hgeometry⟩ := id h
  cases op with
  | walk stream o => exact ⟨haudio, hvideo, hformat, hgeometry⟩
  | request r =>
    rcases (reply : Except Hresult Unit) with err | ⟨⟩
    · exact h
    obtain ⟨_, hopens⟩ := hop
    refine ⟨fun hmem => ?_, fun hmem => ?_, hformat, hgeometry⟩
    · rcases List.mem_cons.mp hmem with rfl | hold
      · exact hopens
      · exact haudio hold
    · rcases List.mem_cons.mp hmem with rfl | hold
      · exact hopens
      · exact hvideo hold
  | getConnectedMediaType stream =>
    obtain ⟨_, hunread, _⟩ := hop
    cases stream with
    | audio =>
      rcases (reply : Except Hresult AmMediaType) with err | mt
      · exact h
      refine ⟨haudio, hvideo, fun fmt hfmt => ?_, hgeometry⟩
      obtain ⟨old, hold, _⟩ := hformat fmt hfmt
      have hnone : d.audioType = none := hunread
      simp [hnone] at hold
    | video =>
      rcases (reply : Except Hresult VideoMediaType) with err | mt
      · exact h
      refine ⟨haudio, hvideo, hformat, fun vf hvf => ?_⟩
      obtain ⟨_, old, hold, _⟩ := hgeometry vf hvf
      have hnone : d.videoType = none := hunread
      simp [hnone] at hold
  | freeMediaType stream => exact ⟨haudio, hvideo, hformat, hgeometry⟩
  | setGeometry vf =>
    rcases (reply : Except String UInt32) with err | n
    · exact h
    obtain ⟨_, _, hring, hparsed⟩ := hop
    refine ⟨haudio, nofun, hformat, fun vf' hvf' => ?_⟩
    obtain rfl := Option.some.inj hvf'
    exact ⟨hring, hparsed⟩
  | setFormat fmt =>
    refine ⟨nofun, hvideo, fun fmt' hfmt' => ?_, hgeometry⟩
    obtain rfl := Option.some.inj hfmt'
    exact hop.2.2
  | sleep ms => exact h

structure Capturing (cfg : Config) (s : State) : Prop where
  abides : Abides (protocol cfg) (Between cfg) s.thread s.session
  published : Published cfg s.session
  pushes : s.pushes ≠ [] → .setCallback .audio ∈ s.session.made
  frames : s.frames ≠ [] → .setCallback .video ∈ s.session.made

theorem made_after {op : CaptureOp} (reply : op.Reply) : d.made ⊆ (after cfg op reply d).made := by
  cases op with
  | request r =>
    rcases (reply : Except Hresult Unit) with err | ⟨⟩
    · exact List.Subset.refl _
    · exact List.subset_cons_self _ _
  | getConnectedMediaType stream =>
    cases stream with
    | audio => rcases (reply : Except Hresult AmMediaType) with err | mt <;> exact fun _ => id
    | video => rcases (reply : Except Hresult VideoMediaType) with err | mt <;> exact fun _ => id
  | setGeometry vf => rcases (reply : Except String UInt32) with err | n <;> exact fun _ => id
  | _ => exact fun _ => id

theorem capturing_next (h : Capturing cfg s) (e : Event) : Capturing cfg (next cfg e s) := by
  obtain ⟨habides, hpublished, hpushes, hframes⟩ := id h
  cases e with
  | capture reply =>
    rcases busy_or_rest s.thread with ⟨op, k, hop⟩ | ⟨c, hc⟩
    · obtain ⟨hpermits, hrest⟩ := abides_act habides hop
      simp only [next, State.capture, hop]
      exact ⟨hrest _ _ _, published_after _ hpermits hpublished,
        fun hp => made_after _ (hpushes hp), fun hf => made_after _ (hframes hf)⟩
    · simp only [next, State.capture, hc]
      exact ⟨abides_invoke habides obeys_capture, hpublished, hpushes, hframes⟩
  | buffer stream b =>
    simp only [next, State.deliver]
    split
    next hset =>
      split
      · exact h
      · exact ⟨habides, hpublished, fun _ => hset, hframes⟩
      · exact ⟨habides, hpublished, hpushes, fun _ => hset⟩
    next => exact h

theorem capturing_run (r : Run) (t : ℕ) : Capturing r.cfg (r.state t) := by
  induction t with
  | zero => exact ⟨rfl, published_blank, nofun, nofun⟩
  | succ t ih => exact capturing_next ih (r.event t)

/-- A geometry that was parsed holds something, and its rows fit into its frame. -/
theorem parseVideoFormat_some {p : VideoPlatform} {mt : VideoMediaType} {vf : VideoFormat}
    (h : parseVideoFormat p mt = some vf) : vf.width ≠ 0 ∧ vf.height ≠ 0 ∧ vf.frameSize ≠ 0 ∧
      vf.stride.toNat * vf.height.toNat ≤ vf.frameSize.toNat := by
  unfold parseVideoFormat at h
  cases hbih : mt.pbFormat with
  | none => simp [hbih] at h
  | some bih =>
    simp only [hbih] at h
    split at h
    · simp at h
    · -- whichever of the two gives the size of a frame
      generalize (if bih.biSizeImage = 0 then _ else _ : UInt32) = frameSize at h
      by_cases hsome : unsignedAbs bih.biWidth = 0 ∨ unsignedAbs bih.biHeight = 0 ∨ frameSize = 0
      · simp [hsome] at h
      · simp only [hsome, if_false, Option.some.injEq] at h
        push Not at hsome
        obtain ⟨hwidth, hheight, hsize⟩ := hsome
        subst h
        refine ⟨hwidth, hheight, hsize, ?_⟩
        -- the rows are what the frame holds of them, the division rounds down
        simp only [UInt32.toNat_div]
        exact Nat.div_mul_le_self _ _

/-- In every run, with every reply and every buffer: the calls of the thread keep to the
protocol; bytes go to a ring only when the format, or the geometry, that was read of the
connection is published there; and a thread that gives up has freed what it read, but for a
media type that its parser refused. -/
theorem published_first (r : Run) (t : ℕ) :
    (∀ op, (r.state t).thread.prog.pending = some op → permits r.cfg op (r.state t).session) ∧
    ((r.state t).pushes ≠ [] → ∃ mt fmt, (r.state t).session.audioType = some mt ∧
      parseWfx r.cfg.platform mt = some fmt ∧ (r.state t).session.format = some fmt) ∧
    ((r.state t).frames ≠ [] → r.cfg.videoRing = true ∧ ∃ mt vf,
      (r.state t).session.videoType = some mt ∧
      parseVideoFormat r.cfg.videoPlatform mt = some vf ∧
      (r.state t).session.geometry = some vf ∧ vf.frameSize ≠ 0 ∧
      vf.stride.toNat * vf.height.toNat ≤ vf.frameSize.toNat) ∧
    ∀ err, (r.state t).thread.prog = .ret (.done err) → Ended r.cfg (r.state t).session := by
  obtain ⟨habides, hpublished, hpushes, hframes⟩ := capturing_run r t
  refine ⟨fun op hop => ?_, fun hp => ?_, fun hf => ?_, fun err hdone => ?_⟩
  · obtain ⟨k, hk⟩ := pending_eq_some.mp hop
    exact (abides_act habides hk).1
  · obtain ⟨fmt, hfmt⟩ := Option.ne_none_iff_exists'.mp (hpublished.audio (hpushes hp))
    obtain ⟨mt, hmt, hparse⟩ := hpublished.format fmt hfmt
    exact ⟨mt, fmt, hmt, hparse, hfmt⟩
  · obtain ⟨vf, hvf⟩ := Option.ne_none_iff_exists'.mp (hpublished.video (hframes hf))
    obtain ⟨hring, mt, hmt, hparse⟩ := hpublished.geometry vf hvf
    obtain ⟨_, _, hsize, hstride⟩ := parseVideoFormat_some hparse
    exact ⟨hring, mt, vf, hmt, hparse, hvf, hsize, hstride⟩
  · rwa [Abides, hdone] at habides

end Published

end DshowSession
