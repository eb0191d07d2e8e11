import Lalah.DshowSession
import Lalah.MapIvshmem
import Lalah.ShmVideoContract
import Lalah.VmArguments
import Lalah.WasapiCapture

/-! The program in the guest, from its command line to its end: the region is mapped, the rings
are attached, a keep-alive of the camera may be started, and one of the two captures runs. -/
namespace VmProcess

open InteractionProgram CallProtocol AudioFormatParse ShmVideoContract VmArguments
open DeviceWalk (Hresult)
open MapIvshmem (Region DeviceOp Machine)

section Calls

structure Setup where
  argv : List String
  driver : MapIvshmem.Platform
  platform : Platform
  videoPlatform : DshowCapture.VideoPlatform
  lowercase : String → String
  unsupportedFormat : Hresult
  bufferSizeNotAligned : Hresult
  waitObject0 : UInt32
  alignedPeriod : UInt32 → UInt32 → ℤ

variable (cfg : Setup)

/-- `dropKeepAlive` stops the thread of the keep-alive and joins it. -/
inductive VmOp where
  | device (op : DeviceOp)
  | attachAudio (base len : ℕ)
  | attachVideo (base len : ℕ)
  | startKeepAlive (videoDevice : Option String) (useNullRenderer : Bool)
  | dropKeepAlive
  | sleep (ms : ℕ)
  | dshow (op : DshowCapture.CaptureOp)
  | wasapi (op : WasapiCapture.CaptureOp)

@[reducible] def VmOp.Reply : VmOp → Type
  | .device op => op.Reply
  | .attachAudio _ _ | .attachVideo _ _ | .startKeepAlive _ _ => Except String Unit
  | .dropKeepAlive | .sleep _ => Unit
  | .dshow op => op.Reply
  | .wasapi op => op.Reply

abbrev VmProg := Prog VmOp VmOp.Reply

def call (op : VmOp) : VmProg op.Reply := perform op

def Setup.endpoint (args : Args) : WasapiCapture.Endpoint where
  platform := cfg.platform
  deviceId := args.deviceId
  unsupportedFormat := cfg.unsupportedFormat
  bufferSizeNotAligned := cfg.bufferSizeNotAligned
  waitObject0 := cfg.waitObject0
  alignedPeriod := cfg.alignedPeriod

def Setup.dshow (args : Args) (videoRing : Bool) : DshowCapture.Config where
  platform := cfg.platform
  videoPlatform := cfg.videoPlatform
  lowercase := cfg.lowercase
  audioDevice := args.audioDevice
  videoDevice := args.videoDevice
  videoRendererType := if args.videoKeepalive then some args.videoRenderer else none
  videoRing := videoRing

end Calls

section Run

variable (cfg : Setup)

/-- `video` tells whether `_video` holds a keep-alive. -/
structure Held where
  args : Args
  region : Region
  video : Bool

inductive Point where
  | start
  | exited (refusal : Refusal)
  | attaching (args : Args) (region : Region)
  | attachingVideo (held : Held) (vbase vlen : ℕ)
  | dshow (held : Held) (videoRing : Bool) (point : DshowCapture.Point)
  | wasapi (held : Held) (capture : WasapiCapture.Capture)
  | returned (result : Except Hresult Unit)

/-- The end of `run`: its locals are dropped, the last of them first. -/
def leave (held : Held) (result : Except Hresult Unit) : VmProg Point := do
  if held.video then call .dropKeepAlive
  call (.device (.closeHandle held.region.handle))
  return .returned result

def startCapture (held : Held) (videoRing : Bool) : VmProg Point := do
  if held.args.dsAudio then return .dshow held videoRing .opening
  call (.sleep 3000)
  return .wasapi held ⟨.opening, []⟩

/-- Only beside WASAPI: the other capture opens the camera itself. -/
def keepAlive (args : Args) : VmProg Bool := do
  if !args.dsAudio && args.videoKeepalive then
    let started : Except String Unit ←
      call (.startKeepAlive args.videoDevice (args.videoRenderer = "null"))
    match started with
    | .ok () =>
      call (.sleep 700)
      return true
    | .error _ => return false
  else return false

def openVideo (args : Args) (region : Region) : VmProg Point := do
  let video ← keepAlive args
  let held : Held := ⟨args, region, video⟩
  if args.videoPassthrough then
    match videoRegion region.base region.len with
    | some (vbase, vlen) => return .attachingVideo held vbase vlen
    | none => startCapture held false
  else startCapture held false

def run : Point → VmProg Point
  | .start =>
    match parseArgs cfg.argv with
    | .error refusal => return .exited refusal
    | .ok args => do
      let mapped ← (MapIvshmem.mapIvshmem cfg.driver).run.lift .device fun _ reply => reply
      match mapped with
      | .error err => return .returned (.error err)
      | .ok region => return .attaching args region
  | .exited refusal => return .exited refusal
  | .attaching args region => do
    let ring : Except String Unit ← call (.attachAudio region.base region.len)
    match ring with
    | .ok () => openVideo args region
    | .error _ =>
      call (.sleep 500)
      return .attaching args region
  | .attachingVideo held vbase vlen => do
    let ring : Except String Unit ← call (.attachVideo vbase vlen)
    match ring with
    | .ok () => startCapture held true
    | .error _ =>
      call (.sleep 500)
      return .attachingVideo held vbase vlen
  | .dshow held videoRing point => do
    let next ← (DshowCapture.capture (cfg.dshow held.args videoRing) point).lift .dshow
      fun _ reply => reply
    match next with
    | .done err => leave held (.error err)
    | next => return .dshow held videoRing next
  | .wasapi held capture => do
    let next ← (WasapiCapture.capture (cfg.endpoint held.args) capture).lift .wasapi
      fun _ reply => reply
    match next.point with
    | .done result => leave held result
    | _ => return .wasapi held next
  | .returned result => return .returned result

end Run

section Protocol

variable (cfg : Setup)

/-- `keepAlive` is absent while none was asked for; `slept` are the milliseconds since the ring
of the sound was attached, or a keep-alive was asked for behind it. -/
structure Process where
  machine : Machine
  audio : Bool
  keepAlive : Option Bool
  video : Bool
  slept : ℕ
  dshow : DshowCapture.Session
  wasapi : WasapiCapture.Device

def blank : Process :=
  ⟨MapIvshmem.blank, false, none, false, 0, DshowCapture.blank, WasapiCapture.blank⟩

variable (args : Args)

/-- The rings are attached where the region is, each once, and the region stays as long as
anything runs; the camera is kept alive or opened by the graph of the sound, never both; WASAPI
opens the endpoint that was asked for, when the card has had its time. -/
def permits : VmOp → Process → Prop
  | .device op, s => MapIvshmem.permits op s.machine ∧
      s.keepAlive ≠ some true ∧ s.wasapi.client ≠ .running
  | .attachAudio base len, s => s.audio = false ∧
      ∃ r, s.machine.mapped = some r ∧ base = r.base ∧ len = r.len
  | .attachVideo vbase vlen, s => s.audio = true ∧ s.video = false ∧ s.keepAlive = none ∧
      args.videoPassthrough = true ∧
      ∃ r, s.machine.mapped = some r ∧ videoRegion r.base r.len = some (vbase, vlen)
  | .startKeepAlive videoDevice useNullRenderer, s => s.audio = true ∧ s.keepAlive = none ∧
      args.dsAudio = false ∧ args.videoKeepalive = true ∧ videoDevice = args.videoDevice ∧
      (useNullRenderer = true ↔ args.videoRenderer = "null")
  | .dropKeepAlive, s => s.keepAlive = some true ∧ s.wasapi.client ≠ .running
  | .sleep _, _ => True
  | .dshow op, s => s.audio = true ∧ s.machine.mapped ≠ none ∧ s.keepAlive = none ∧
      args.dsAudio = true ∧ DshowCapture.permits (cfg.dshow args s.video) op s.dshow
  | .wasapi op, s => s.audio = true ∧ s.machine.mapped ≠ none ∧ s.video = false ∧
      args.dsAudio = false ∧ args.deviceId ≠ "" ∧
      (if s.keepAlive = some true then 3700 else 3000) ≤ s.slept ∧
      WasapiCapture.permits (cfg.endpoint args) op s.wasapi

def after : (op : VmOp) → op.Reply → Process → Process
  | .device op, reply, s => { s with machine := MapIvshmem.after op reply s.machine }
  | .attachAudio _ _, .ok (), s => { s with audio := true, slept := 0 }
  | .attachVideo _ _, .ok (), s => { s with video := true }
  | .startKeepAlive _ _, .ok (), s => { s with keepAlive := some true, slept := 0 }
  | .startKeepAlive _ _, .error _, s => { s with keepAlive := some false, slept := 0 }
  | .dropKeepAlive, _, s => { s with keepAlive := some false }
  | .sleep ms, _, s => { s with slept := s.slept + ms }
  | .dshow op, reply, s =>
    { s with dshow := DshowCapture.after (cfg.dshow args s.video) op reply s.dshow }
  | .wasapi op, reply, s =>
    { s with wasapi := WasapiCapture.after (cfg.endpoint args) op reply s.wasapi }
  | _, _, s => s

def Overruns : VmOp → Process → Prop
  | .device op, s => MapIvshmem.Overruns op s.machine
  | _, _ => False

def protocol : Protocol VmOp VmOp.Reply Process :=
  ⟨fun op s => permits cfg args op s ∨ Overruns op s, after cfg args⟩

structure Mapped (region : Region) (s : Process) : Prop where
  lists : s.machine.lists = []
  files : s.machine.files = [region.handle]
  region : s.machine.mapped = some region

def Reached (audio : Bool) (region : Region) (s : Process) : Prop :=
  (∃ slept, s = { blank with machine := s.machine, audio := audio, slept := slept }) ∧
    Mapped region s

/-- Nothing is left of the region and of a keep-alive, and nothing streams. The event of WASAPI is
closed exactly if its stream was started, as `Ended` has it. -/
structure Left (s : Process) : Prop where
  lists : s.machine.lists = []
  mapped : s.machine.mapped = none
  files : s.audio = true → s.machine.files = []
  leaked : s.machine.files.length ≤ 1
  keepAlive : s.keepAlive ≠ some true
  stream : WasapiCapture.Ended s.wasapi
  graph : .run ∉ s.dshow.made

def Between : Point → Process → Prop
  | .start, s => s = blank
  | .exited _, _ => False
  | .attaching args' region, s => args' = args ∧ Reached false region s
  | .attachingVideo held vbase vlen, s => held.args = args ∧ held.video = false ∧
      args.videoPassthrough = true ∧
      videoRegion held.region.base held.region.len = some (vbase, vlen) ∧
      Reached true held.region s
  | .dshow held videoRing point, s => held.args = args ∧ held.video = false ∧
      args.dsAudio = true ∧ s.audio = true ∧ s.keepAlive = none ∧ s.video = videoRing ∧
      s.wasapi = WasapiCapture.blank ∧ Mapped held.region s ∧
      DshowSession.Between (cfg.dshow args videoRing) point s.dshow
  | .wasapi held capture, s => held.args = args ∧ args.dsAudio = false ∧
      s.audio = true ∧ (held.video = true ↔ s.keepAlive = some true) ∧ s.video = false ∧
      (if s.keepAlive = some true then 3700 else 3000) ≤ s.slept ∧
      s.dshow = DshowCapture.blank ∧ Mapped held.region s ∧
      WasapiCapture.Between capture s.wasapi
  | .returned result, s => Left s ∧ (result = .ok () → args.dsAudio = false)

end Protocol

section Obedience

variable {cfg : Setup} {args : Args} {s : Process} {held : Held} {α : Type}

variable (cfg args) in
theorem obeys_device {p : MapIvshmem.DeviceProg α} {Q : α → Machine → Prop}
    (hkeepAlive : s.keepAlive ≠ some true) (hidle : s.wasapi.client ≠ .running)
    (h : Obeys MapIvshmem.protocol Q p s.machine) :
    Obeys (protocol cfg args) (fun a s' => ∃ m, s' = { s with machine := m } ∧ Q a m)
      (p.lift .device fun _ reply => reply) s :=
  obeys_lift (P := MapIvshmem.protocol) Process.machine (fun m s => { s with machine := m })
    (fun _ _ hop => hop.imp_left fun hop => ⟨hop, hkeepAlive, hidle⟩) (fun _ _ _ => rfl) rfl h

variable (cfg) in
theorem obeys_dshow {p : DshowCapture.CaptureProg α} {Q : α → DshowCapture.Session → Prop}
    (haudio : s.audio = true) (hmapped : s.machine.mapped ≠ none) (hkeepAlive : s.keepAlive = none)
    (hds : args.dsAudio = true)
    (h : Obeys (DshowCapture.protocol (cfg.dshow args s.video)) Q p s.dshow) :
    Obeys (protocol cfg args) (fun a s' => ∃ d, s' = { s with dshow := d } ∧ Q a d)
      (p.lift .dshow fun _ reply => reply) s :=
  obeys_lift (P := DshowCapture.protocol (cfg.dshow args s.video)) Process.dshow
    (fun d s => { s with dshow := d })
    (fun _ _ hop => Or.inl ⟨haudio, hmapped, hkeepAlive, hds, hop⟩) (fun _ _ _ => rfl) rfl h

variable (cfg) in
theorem obeys_wasapi {p : WasapiCapture.CaptureProg α} {Q : α → WasapiCapture.Device → Prop}
    (haudio : s.audio = true) (hmapped : s.machine.mapped ≠ none) (hvideo : s.video = false)
    (hds : args.dsAudio = false) (hid : args.deviceId ≠ "")
    (hslept : (if s.keepAlive = some true then 3700 else 3000) ≤ s.slept)
    (h : Obeys (WasapiCapture.protocol (cfg.endpoint args)) Q p s.wasapi) :
    Obeys (protocol cfg args) (fun a s' => ∃ d, s' = { s with wasapi := d } ∧ Q a d)
      (p.lift .wasapi fun _ reply => reply) s :=
  obeys_lift (P := WasapiCapture.protocol (cfg.endpoint args)) Process.wasapi
    (fun d s => { s with wasapi := d })
    (fun _ _ hop => Or.inl ⟨haudio, hmapped, hvideo, hds, hid, hslept, hop⟩) (fun _ _ _ => rfl) rfl h

theorem ended_blank : WasapiCapture.Ended WasapiCapture.blank :=
  ⟨by simp [WasapiCapture.blank], by simp [WasapiCapture.blank]⟩

theorem mapped_machine {region : Region} {s' : Process} (h : Mapped region s)
    (hmachine : s'.machine = s.machine) : Mapped region s' :=
  ⟨hmachine ▸ h.lists, hmachine ▸ h.files, hmachine ▸ h.region⟩

theorem obeys_close {result : Except Hresult Unit} (hmapped : Mapped held.region s)
    (hkeepAlive : s.keepAlive ≠ some true) (hstream : WasapiCapture.Ended s.wasapi)
    (hgraph : .run ∉ s.dshow.made) (hok : result = .ok () → args.dsAudio = false) :
    Obeys (protocol cfg args) (Between cfg args) (do
      call (.device (.closeHandle held.region.handle))
      return .returned result) s := by
  have hfiles : s.machine.files.erase held.region.handle = [] := by
    rw [hmapped.files]
    exact List.erase_cons_head _ _
  refine ⟨Or.inl ⟨?_, hkeepAlive, hstream.idle⟩, fun _ =>
    ⟨⟨?_, rfl, ?_, ?_, hkeepAlive, hstream, hgraph⟩, hok⟩⟩
  · change held.region.handle ∈ s.machine.files
    rw [hmapped.files]
    exact List.mem_cons_self
  · exact hmapped.lists
  · exact fun _ => hfiles
  · change (s.machine.files.erase held.region.handle).length ≤ 1
    rw [hfiles]
    exact Nat.zero_le 1

theorem obeys_leave {result : Except Hresult Unit} (hmapped : Mapped held.region s)
    (hvideo : held.video = true ↔ s.keepAlive = some true)
    (hstream : WasapiCapture.Ended s.wasapi) (hgraph : .run ∉ s.dshow.made)
    (hok : result = .ok () → args.dsAudio = false) :
    Obeys (protocol cfg args) (Between cfg args) (leave held result) s := by
  unfold leave
  split
  next hv =>
    refine ⟨Or.inl ⟨hvideo.mp hv, hstream.idle⟩, fun _ => ?_⟩
    exact obeys_close (mapped_machine hmapped rfl) (by simp [protocol, after]) hstream hgraph hok
  next hv => exact obeys_close hmapped (fun h => hv (hvideo.mpr h)) hstream hgraph hok

structure Attached (args : Args) (held : Held) (s : Process) : Prop where
  asked : held.args = args
  mapped : Mapped held.region s
  audio : s.audio = true
  video : held.video = true ↔ s.keepAlive = some true
  camera : args.dsAudio = true → s.keepAlive = none
  ring : s.video = true → args.videoPassthrough = true
  slept : s.keepAlive = some true → 700 ≤ s.slept
  dshow : s.dshow = DshowCapture.blank
  wasapi : s.wasapi = WasapiCapture.blank

theorem obeys_startCapture (hcoherent : Coherent args) (h : Attached args held s) :
    Obeys (protocol cfg args) (Between cfg args) (startCapture held s.video) s := by
  obtain ⟨hargs, hmapped, haudio, hvideo, hcamera, hring, hslept, hdshow, hwasapi⟩ := h
  unfold startCapture
  split
  next hds =>
    rw [hargs] at hds
    refine ⟨hargs, ?_, hds, haudio, hcamera hds, rfl, hwasapi, hmapped, hdshow⟩
    by_contra hv
    have hlive := hvideo.mp (by simpa using hv)
    rw [hcamera hds] at hlive
    cases hlive
  next hds =>
    rw [hargs, Bool.not_eq_true] at hds
    have hnoring : s.video = false := by
      by_contra hv
      have hpassthrough := hcoherent.passthrough (hring (by simpa using hv))
      rw [hds] at hpassthrough
      cases hpassthrough
    refine ⟨Or.inl trivial, fun _ => ⟨hargs, hds, haudio, hvideo, hnoring, ?_, hdshow, ?_, ?_⟩⟩
    · change (if s.keepAlive = some true then 3700 else 3000) ≤ s.slept + 3000
      split
      next hlive => have := hslept hlive; omega
      · omega
    · exact mapped_machine hmapped rfl
    · exact ⟨by simp, hwasapi⟩

def Asked (args : Args) (region : Region) (video : Bool) (s : Process) : Prop :=
  Attached args ⟨args, region, video⟩ s ∧ s.video = false ∧
    (args.dsAudio = true → Reached true region s ∧ video = false)

theorem attached_reached {region : Region} (h : Reached true region s) :
    Attached args ⟨args, region, false⟩ s := by
  obtain ⟨⟨slept, hs⟩, hmapped⟩ := h
  rw [hs]
  exact ⟨rfl, mapped_machine hmapped rfl, rfl, by simp [blank],
    fun _ => rfl, by simp [blank], by simp [blank], rfl, rfl⟩

theorem asked_started {region : Region} {video : Bool} {slept : ℕ} (h : Reached true region s)
    (hds : args.dsAudio = false) (hslept : video = true → 700 ≤ slept) :
    Asked args region video { s with keepAlive := some video, slept := slept } := by
  obtain ⟨⟨slept, hs⟩, hmapped⟩ := h
  have hno (P : Prop) (hyes : args.dsAudio = true) : P := by simp [hds] at hyes
  rw [hs]
  refine ⟨⟨rfl, mapped_machine hmapped rfl, rfl, ?_, hno _, ?_, ?_, rfl, rfl⟩,
    rfl, hno _⟩
  · simp
  · simp [blank]
  · simpa using hslept

theorem obeys_keepAlive {region : Region} (h : Reached true region s) :
    Obeys (protocol cfg args) (Asked args region) (keepAlive args) s := by
  obtain ⟨⟨slept, hs⟩, hmapped⟩ := id h
  unfold keepAlive
  split
  next hask =>
    simp only [Bool.and_eq_true, Bool.not_eq_true'] at hask
    obtain ⟨hds, hkeepalive⟩ := hask
    refine ⟨Or.inl ⟨?_, ?_, hds, hkeepalive, rfl, by simp⟩, fun started => ?_⟩
    · rw [hs]
    · rw [hs]
      rfl
    rcases (started : Except String Unit) with err | ⟨⟩
    · exact asked_started h hds (by simp)
    · exact ⟨Or.inl trivial, fun _ => asked_started (s := s) h hds fun _ => by simp⟩
  next => exact ⟨attached_reached h, by rw [hs]; rfl, fun _ => ⟨h, rfl⟩⟩

theorem obeys_openVideo {region : Region} (hcoherent : Coherent args) (h : Reached true region s) :
    Obeys (protocol cfg args) (Between cfg args) (openVideo args region) s := by
  apply obeys_bind
  apply obeys_mono _ (obeys_keepAlive h)
  intro video s' hs'
  obtain ⟨hattached, hring, hreached⟩ := hs'
  have hstart : Obeys (protocol cfg args) (Between cfg args)
      (startCapture ⟨args, region, video⟩ s'.video) s' := obeys_startCapture hcoherent hattached
  rw [hring] at hstart
  dsimp only
  split
  next hpassthrough =>
    split
    next vbase vlen hregion =>
      obtain ⟨hbefore, rfl⟩ := hreached (hcoherent.passthrough hpassthrough)
      exact ⟨rfl, rfl, hpassthrough, hregion, hbefore⟩
    next => exact hstart
  next => exact hstart

/-- From one point of the program to the next, whatever the calls return. -/
theorem obeys_run (hargs : parseArgs cfg.argv = .ok args) (point : Point) (s : Process)
    (h : Between cfg args point s) :
    Obeys (protocol cfg args) (Between cfg args) (run cfg point) s := by
  have hcoherent := parseArgs_coherent hargs
  cases point with
  | start =>
    obtain rfl : s = blank := h
    simp only [run, hargs]
    apply obeys_bind
    have hmap := obeys_device cfg args (s := blank) (by simp [blank])
      (by simp [blank, WasapiCapture.blank]) (MapIvshmem.obeys_mapIvshmem cfg.driver)
    apply obeys_mono _ hmap
    rintro mapped _ ⟨m, rfl, hlists, hregion, hfailed⟩
    cases mapped with
    | error err =>
      obtain ⟨hmapped, hleaked⟩ := hfailed err rfl
      refine ⟨⟨hlists, hmapped, ?_, hleaked, ?_, ended_blank, ?_⟩, ?_⟩ <;>
        simp [blank, DshowCapture.blank]
    | ok region =>
      obtain ⟨hmapped, hfiles⟩ := hregion region rfl
      exact ⟨rfl, ⟨0, rfl⟩, hlists, hfiles, hmapped⟩
  | exited refusal => exact h
  | attaching args' region =>
    obtain ⟨rfl, ⟨slept, hs⟩, hmapped⟩ := h
    refine ⟨Or.inl ⟨by rw [hs], region, hmapped.region, rfl, rfl⟩, fun ring => ?_⟩
    rcases (ring : Except String Unit) with err | ⟨⟩
    · refine ⟨Or.inl trivial, fun _ => ⟨rfl, ⟨slept + 500, ?_⟩, mapped_machine hmapped rfl⟩⟩
      rw [hs]
      rfl
    · refine obeys_openVideo hcoherent ⟨⟨0, ?_⟩, mapped_machine hmapped rfl⟩
      rw [hs]
      rfl
  | attachingVideo held vbase vlen =>
    obtain ⟨rfl, hvideo, hpassthrough, hregion, ⟨slept, hs⟩, hmapped⟩ := h
    have hnone : s.keepAlive = none := by
      rw [hs]
      rfl
    refine ⟨Or.inl ⟨by rw [hs], by rw [hs]; rfl, hnone, hpassthrough, held.region,
      hmapped.region, hregion⟩, fun ring => ?_⟩
    rcases (ring : Except String Unit) with err | ⟨⟩
    · refine ⟨Or.inl trivial, fun _ => ⟨rfl, hvideo, hpassthrough, hregion, ⟨slept + 500, ?_⟩,
        mapped_machine hmapped rfl⟩⟩
      rw [hs]
      rfl
    · apply obeys_startCapture (s := { s with video := true }) hcoherent
      refine ⟨rfl, mapped_machine hmapped rfl, by rw [hs], ?_, fun _ => hnone,
        fun _ => hpassthrough, ?_, by rw [hs]; rfl, by rw [hs]; rfl⟩
      · simp [hvideo, hnone]
      · simp [hnone]
  | dshow held videoRing point =>
    obtain ⟨rfl, hvideo, hds, haudio, hnone, hring, hwasapi, hmapped, hbetween⟩ := h
    subst hring
    apply obeys_bind
    have hcapture := obeys_dshow cfg haudio (by simp [hmapped.region]) hnone hds
      (DshowSession.obeys_capture point s.dshow hbetween)
    apply obeys_mono _ hcapture
    rintro next _ ⟨d, rfl, hnext⟩
    cases next with
    | done err =>
      apply obeys_leave (s := { s with dshow := d }) (mapped_machine hmapped rfl)
      · simp [hvideo, hnone]
      · change WasapiCapture.Ended s.wasapi
        rw [hwasapi]
        exact ended_blank
      · exact hnext.stopped
      · simp
    | _ => exact ⟨rfl, hvideo, hds, haudio, hnone, rfl, hwasapi, mapped_machine hmapped rfl, hnext⟩
  | wasapi held capture =>
    obtain ⟨rfl, hds, haudio, hvideo, hring, hslept, hdshow, hmapped, hbetween⟩ := h
    apply obeys_bind
    have hcapture := obeys_wasapi cfg haudio (by simp [hmapped.region]) hring hds
      (hcoherent.device hds) hslept (WasapiCapture.obeys_capture capture s.wasapi hbetween)
    apply obeys_mono _ hcapture
    rintro next _ ⟨d, rfl, hnext⟩
    split
    next result hdone =>
      have hended : WasapiCapture.Ended d := by
        have h := hnext.2
        rwa [hdone] at h
      refine obeys_leave (mapped_machine hmapped rfl) hvideo hended ?_ fun _ => hds
      change .run ∉ s.dshow.made
      simp [hdshow, DshowCapture.blank]
    next =>
      exact ⟨rfl, hds, haudio, hvideo, hring, hslept, hdshow, mapped_machine hmapped rfl, hnext⟩
  | returned result => exact h

end Obedience

section Runs

abbrev State := Caller VmOp VmOp.Reply Point Process

variable (cfg : Setup)

def Setup.after (op : VmOp) (reply : op.Reply) (s : Process) : Process :=
  match parseArgs cfg.argv with
  | .ok args => VmProcess.after cfg args op reply s
  | .error _ => s

structure Run where
  cfg : Setup
  reply : ℕ → (op : VmOp) → op.Reply

def Run.state (r : Run) : ℕ → State
  | 0 => ⟨.rest .start, blank⟩
  | t + 1 => (r.state t).next r.cfg.after (run r.cfg) (r.reply t)

/-- The camera is kept alive or opened by the graph of the sound, and each capture is there only
when it was asked for. -/
structure Exclusive (args : Args) (s : Process) : Prop where
  keepAlive : s.keepAlive ≠ none → args.dsAudio = false ∧ args.videoKeepalive = true
  video : s.video = true → args.videoPassthrough = true
  dshow : s.dshow ≠ DshowCapture.blank → args.dsAudio = true
  wasapi : s.wasapi ≠ WasapiCapture.blank → args.dsAudio = false ∧ args.deviceId ≠ ""

theorem exclusive_blank (args : Args) : Exclusive args blank := by
  constructor <;> simp [blank]

theorem exclusive_after {args : Args} {s : Process} {op : VmOp} (reply : op.Reply)
    (hop : permits cfg args op s ∨ Overruns op s) (h : Exclusive args s) :
    Exclusive args (after cfg args op reply s) := by
  obtain ⟨hkeepAlive, hvideo, hdshow, hwasapi⟩ := id h
  rcases hop with hop | hop
  case inr =>
    cases op with
    | device op => exact ⟨hkeepAlive, hvideo, hdshow, hwasapi⟩
    | _ => exact hop.elim
  cases op with
  | device op => exact ⟨hkeepAlive, hvideo, hdshow, hwasapi⟩
  | attachAudio base len =>
    rcases (reply : Except String Unit) with err | ⟨⟩
    · exact h
    · exact ⟨hkeepAlive, hvideo, hdshow, hwasapi⟩
  | attachVideo base len =>
    rcases (reply : Except String Unit) with err | ⟨⟩
    · exact h
    · exact ⟨hkeepAlive, fun _ => hop.2.2.2.1, hdshow, hwasapi⟩
  | startKeepAlive videoDevice useNullRenderer =>
    obtain ⟨-, -, hds, hkeep, -⟩ := hop
    rcases (reply : Except String Unit) with err | ⟨⟩
    · exact ⟨fun _ => ⟨hds, hkeep⟩, hvideo, hdshow, hwasapi⟩
    · exact ⟨fun _ => ⟨hds, hkeep⟩, hvideo, hdshow, hwasapi⟩
  | dropKeepAlive =>
    refine ⟨fun _ => hkeepAlive ?_, hvideo, hdshow, hwasapi⟩
    simp [hop.1]
  | sleep ms => exact ⟨hkeepAlive, hvideo, hdshow, hwasapi⟩
  | dshow op => exact ⟨hkeepAlive, hvideo, fun _ => hop.2.2.2.1, hwasapi⟩
  | wasapi op =>
    exact ⟨hkeepAlive, hvideo, hdshow, fun _ => ⟨hop.2.2.2.1, hop.2.2.2.2.1⟩⟩

variable {cfg} {args : Args}

theorem setup_after (hargs : parseArgs cfg.argv = .ok args) :
    cfg.after = (protocol cfg args).after := by
  funext op reply s
  simp only [Setup.after, hargs]
  rfl

theorem proceeding_run (r : Run) (hargs : parseArgs r.cfg.argv = .ok args) (t : ℕ) :
    Abides (protocol r.cfg args) (Between r.cfg args) (r.state t).thread (r.state t).state ∧
      Exclusive args (r.state t).state := by
  induction t with
  | zero => exact ⟨rfl, exclusive_blank args⟩
  | succ t ih =>
    rw [Run.state, setup_after hargs]
    exact ⟨abides_next ih.1 (obeys_run hargs) (r.reply t), kept_next ih.1
      (fun _ reply _ hop h => exclusive_after r.cfg reply hop h) ih.2 (r.reply t)⟩

def Refused (refusal : Refusal) (s : State) : Prop :=
  s.state = blank ∧ (s.thread.prog = .ret .start ∨ s.thread.prog = .ret (.exited refusal))

theorem refused_run (r : Run) {refusal : Refusal} (hargs : parseArgs r.cfg.argv = .error refusal)
    (t : ℕ) : Refused refusal (r.state t) := by
  have hstart : run r.cfg .start = .ret (.exited refusal) := by simp only [run, hargs, pure_eq]
  exact quiet_run (s := r.state) (fun _ => rfl) rfl hstart rfl t

/-- In every run of the program, whatever its command line and whatever its calls return: a line
that is refused ends it before the first call; otherwise every call is permitted, but for the
store into a buffer that was reported too small, the camera is kept alive or opened by the graph,
never both, and when the program returns, nothing is left of the region and the keep-alive, and
nothing streams. -/
theorem process_protocol (r : Run) (t : ℕ) :
    (∀ refusal, parseArgs r.cfg.argv = .error refusal → Refused refusal (r.state t)) ∧
    ∀ args, parseArgs r.cfg.argv = .ok args → Exclusive args (r.state t).state ∧
      (∀ op, (r.state t).thread.prog.pending = some op →
        permits r.cfg args op (r.state t).state ∨ Overruns op (r.state t).state) ∧
      ∀ result, (r.state t).thread.prog = .ret (.returned result) → Left (r.state t).state ∧
        (result = .ok () → args.dsAudio = false) := by
  refine ⟨fun refusal hargs => refused_run r hargs t, fun args hargs => ?_⟩
  obtain ⟨habides, hexclusive⟩ := proceeding_run r hargs t
  exact ⟨hexclusive, fun op hop => permits_pending habides hop,
    fun result hresult => between_rest habides hresult⟩

end Runs

end VmProcess
