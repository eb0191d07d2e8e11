import Lalah.DeviceWalk
import Lalah.AudioFormatParse
import Lalah.ShmVideoContract
import Mathlib.Logic.Function.Basic

/-! Capture over a DirectShow graph: a sample grabber for the sound and, if a camera is wanted,
for its frames or a renderer that discards them. What is connected is read back and published
before the callback that pushes the buffers is set. What the system replies is free at every
call, and buffers come whenever a callback is there. -/
namespace DshowCapture

open InteractionProgram CallProtocol ShmContract ShmVideoContract AudioFormatParse
open DeviceWalk hiding permits after protocol call Fallible

section MediaTypes

structure VideoInfoHeader where
  biWidth : Int32
  biHeight : Int32
  biBitCount : UInt16
  biCompression : UInt32
  biSizeImage : UInt32
  deriving DecidableEq, Repr

structure VideoMediaType where
  formattype : Guid
  cbFormat : UInt32
  pbFormat : Option VideoInfoHeader
  deriving DecidableEq, Repr

structure VideoPlatform where
  formatVideoInfo : Guid
  sizeVideoInfoHeader : ℕ

def unsignedAbs (a : Int32) : UInt32 := .ofNat a.toInt.natAbs

def saturatingMul (a b : UInt32) : UInt32 := .ofNat (min (a.toNat * b.toNat) (2 ^ 32 - 1))

def parseVideoFormat (p : VideoPlatform) (mt : VideoMediaType) : Option VideoFormat :=
  match mt.pbFormat with
  | none => none
  | some bih =>
    if mt.formattype ≠ p.formatVideoInfo ∨ mt.cbFormat.toNat < p.sizeVideoInfoHeader then none
    else
      let width := unsignedAbs bih.biWidth
      let height := unsignedAbs bih.biHeight
      let frameSize :=
        if bih.biSizeImage = 0 then
          saturatingMul (saturatingMul width height) bih.biBitCount.toUInt32 / 8
        else bih.biSizeImage
      if width = 0 ∨ height = 0 ∨ frameSize = 0 then none
      else some ⟨width, height, frameSize / height, bih.biCompression, frameSize⟩

end MediaTypes

section Calls

inductive Stream where
  | audio | video
  deriving DecidableEq, Repr

inductive Filter where
  | source (s : Stream) | grabber (s : Stream) | null (s : Stream) | keepAlive
  deriving DecidableEq, Repr

inductive Want where
  | pcm (wfx : WaveFormatEx) (nAvgBytesPerSec lSampleSize : UInt32)
  | nv12
  deriving DecidableEq, Repr

def Want.stream : Want → Stream
  | .pcm _ _ _ => .audio
  | .nv12 => .video

@[simp] theorem stream_nv12 : Want.nv12.stream = .video := rfl

def pcmWant : Want :=
  let channels : UInt16 := 2
  let bits : UInt16 := 16
  let rate : UInt32 := 48000
  let blockAlign := channels * bits / 8
  .pcm ⟨pcmTag, channels, rate, blockAlign, bits⟩ (rate * blockAlign.toUInt32) blockAlign.toUInt32

@[simp] theorem stream_pcmWant : pcmWant.stream = .audio := rfl

/-- The calls with a `?` behind them, all but the walks and the reading of a media type. -/
inductive Request where
  | coInitializeEx | createGraph | createBuilder | setFiltergraph | castMediaControl
  | create (f : Filter) | castGrabber (s : Stream)
  | setMediaType (want : Want) | setOneShot (s : Stream) | setBufferSamples (s : Stream)
  | addFilter (f : Filter)
  | renderStream (major : Option Stream) (source : Filter) (via sink : Option Filter)
  | setCallback (s : Stream)
  | run
  deriving DecidableEq, Repr

@[reducible] def MediaType : Stream → Type
  | .audio => AmMediaType
  | .video => VideoMediaType

inductive CaptureOp where
  | walk (s : Stream) (op : WalkOp)
  | request (r : Request)
  | getConnectedMediaType (s : Stream)
  | freeMediaType (s : Stream)
  | setGeometry (vf : VideoFormat)
  | setFormat (fmt : AudioFormat)
  | sleep (ms : ℕ)

@[reducible] def CaptureOp.Reply : CaptureOp → Type
  | .walk _ op => op.Reply
  | .request _ => Except Hresult Unit
  | .getConnectedMediaType s => Except Hresult (MediaType s)
  | .setGeometry _ => Except String UInt32
  | _ => Unit

abbrev CaptureProg := Prog CaptureOp CaptureOp.Reply

def call (op : CaptureOp) : CaptureProg op.Reply := perform op

abbrev Fallible := ExceptT Hresult CaptureProg

def attempt (r : Request) : Fallible Unit := ExceptT.mk (call (.request r))

def orFail {α : Type} : Option α → Fallible α
  | none => throw eFail
  | some a => return a

def walking {α : Type} (s : Stream) (p : WalkProg α) : CaptureProg α :=
  p.lift (.walk s) fun _ reply => reply

end Calls

section Capture

structure Config where
  platform : Platform
  videoPlatform : VideoPlatform
  lowercase : String → String
  audioDevice : Option String
  videoDevice : Option String
  videoRendererType : Option String
  videoRing : Bool

variable (cfg : Config)

def Config.search : Stream → Search
  | .audio => ⟨cfg.lowercase, cfg.audioDevice⟩
  | .video => ⟨cfg.lowercase, cfg.videoDevice⟩

def Config.wantVideo : Bool := cfg.videoRendererType.isSome || cfg.videoRing

/-- In the walk for the camera, or for the sound, with whether there is a camera. -/
inductive Point where
  | opening
  | seekingVideo
  | seekingAudio (video : Bool)
  | running
  | done (err : Hresult)

def openGraph : Fallible Unit := do
  attempt .coInitializeEx
  attempt .createGraph
  attempt .createBuilder
  attempt .setFiltergraph
  attempt .castMediaControl

def addGrabber (want : Want) : Fallible Unit := do
  let s := want.stream
  attempt (.create (.grabber s))
  attempt (.castGrabber s)
  attempt (.setMediaType want)
  attempt (.setOneShot s)
  attempt (.setBufferSamples s)
  attempt (.addFilter (.grabber s))
  attempt (.create (.null s))
  attempt (.addFilter (.null s))

def route (s : Stream) (source : Filter) : Request :=
  .renderStream (some s) source (some (.grabber s)) (some (.null s))

/-- Frames to the ring: their geometry is published before they come. Without room for them the
sound goes on alone. -/
def passthrough : Fallible Unit := do
  addGrabber .nv12
  attempt (route .video (.source .video))
  let vconn : VideoMediaType ← ExceptT.mk (call (.getConnectedMediaType .video))
  let vf ← orFail (parseVideoFormat cfg.videoPlatform vconn)
  ExceptT.lift (call (.freeMediaType .video))
  let slots : Except String UInt32 ← ExceptT.lift (call (.setGeometry vf))
  match slots with
  | .ok _ => attempt (.setCallback .video)
  | .error _ => return

/-- Frames to a renderer, a null one or the default, which opens a window. -/
def keepAlive (rendererType : String) : Fallible Unit := do
  if rendererType = "null" then
    attempt (.create .keepAlive)
    attempt (.addFilter .keepAlive)
    attempt (.renderStream none (.source .video) none (some .keepAlive))
  else attempt (.renderStream none (.source .video) none none)

def showVideo : Fallible Unit :=
  if cfg.videoRing then passthrough cfg
  else match cfg.videoRendererType with
    | none => return
    | some rendererType => keepAlive rendererType

/-- The format is read from the connection and published before the callback that pushes. -/
def publish : Fallible Point := do
  let connected : AmMediaType ← ExceptT.mk (call (.getConnectedMediaType .audio))
  let fmt ← orFail (parseWfx cfg.platform connected)
  ExceptT.lift (call (.freeMediaType .audio))
  ExceptT.lift (call (.setFormat fmt))
  attempt (.setCallback .audio)
  attempt .run
  return .running

def finish (video : Bool) : Fallible Point :=
  if video then do
    showVideo cfg
    publish cfg
  else publish cfg

/-- Behind the search for a camera: the sound comes from its pin, or from a device of its own. -/
def routeAudio (video : Bool) : Fallible Point := do
  addGrabber pcmWant
  let routed : Except Hresult Unit ← ExceptT.lift
    (if video then call (.request (route .audio (.source .video))) else return .error eFail)
  match routed with
  | .ok () => finish cfg video
  | .error _ =>
    ExceptT.mk (walking .audio sourceDevices.run)
    return .seekingAudio video

def conclude (p : Fallible Point) : CaptureProg Point := do
  match ← p.run with
  | .ok point => return point
  | .error err => return .done err

def bindSource (s : Stream) (moniker : Moniker) : Fallible Unit :=
  ExceptT.mk (walking s (DeviceWalk.call (.bindToObject moniker)))

def capture : Point → CaptureProg Point
  | .opening => conclude do
    openGraph
    if cfg.wantVideo then
      match ← ExceptT.lift (walking .video sourceDevices.run) with
      | .ok () => return .seekingVideo
      | .error _ => routeAudio cfg false
    else routeAudio cfg false
  | .seekingVideo => conclude do
    match ← ExceptT.lift (walking .video sourceTurn) with
    | none => routeAudio cfg false
    | some (moniker, name) =>
      if (cfg.search .video).isMatch name then
        match ← ExceptT.lift (bindSource .video moniker).run with
        | .ok () =>
          attempt (.addFilter (.source .video))
          routeAudio cfg true
        | .error _ => routeAudio cfg false
      else return .seekingVideo
  | .seekingAudio video => conclude do
    match ← ExceptT.lift (walking .audio sourceTurn) with
    | none => throw eFail
    | some (moniker, name) =>
      if (cfg.search .audio).isMatch name then
        bindSource .audio moniker
        attempt (.addFilter (.source .audio))
        attempt (route .audio (.source .audio))
        finish cfg video
      else return .seekingAudio video
  | .running => do
    call (.sleep 500)
    return .running
  | .done err => return .done err

end Capture

section Protocol

/-- What the calls so far have come to: the devices that the walks have seen, the requests that
have succeeded, the media types that were read, those that are still owed to the allocator, and
what was published. -/
structure Session where
  devices : Stream → Devices
  made : List Request
  audioType : Option AmMediaType
  videoType : Option VideoMediaType
  owed : List Stream
  format : Option AudioFormat
  geometry : Option VideoFormat

def blank : Session := ⟨fun _ => noDevices, [], none, none, [], none, none⟩

def Session.setDevices (d : Session) (s : Stream) (devices : Devices) : Session :=
  { d with devices := Function.update d.devices s devices }

variable (cfg : Config)

/-- What has to have succeeded before a request: a filter is configured before it is added, and
added before a stream is rendered through it. -/
def requires : Request → List Request
  | .coInitializeEx => []
  | .createGraph | .createBuilder | .create _ => [.coInitializeEx]
  | .setFiltergraph => [.createGraph, .createBuilder]
  | .castMediaControl => [.createGraph]
  | .castGrabber s => [.create (.grabber s)]
  | .setMediaType want => [.castGrabber want.stream]
  | .setOneShot s | .setBufferSamples s => [.castGrabber s]
  | .addFilter (.source _) => [.createGraph]
  | .addFilter (.grabber s) =>
    [.createGraph, .create (.grabber s), .setOneShot s, .setBufferSamples s]
  | .addFilter f => [.createGraph, .create f]
  | .renderStream _ source via sink =>
    .setFiltergraph :: .addFilter source :: (via.toList ++ sink.toList).map .addFilter
  | .setCallback s => [.castGrabber s]
  | .run => [.castMediaControl, .setCallback .audio]

def Routed (s : Stream) (d : Session) : Prop := ∃ source, route s source ∈ d.made

/-- What a request needs beyond that: only a chosen device is added, only a caller that asks for
a window gets one, and a callback that pushes comes behind what it pushes into. -/
def Opens (d : Session) : Request → Prop
  | .addFilter (.source s) => ∃ device, (d.devices s).bound = some device ∧
      (cfg.search s).first (d.devices s).seen = some device
  | .renderStream _ _ _ none => cfg.videoRing = false ∧
      ∃ rendererType, cfg.videoRendererType = some rendererType ∧ rendererType ≠ "null"
  | .setCallback .audio => d.format ≠ none
  | .setCallback .video => d.geometry ≠ none
  | .run => d.owed = []
  | _ => True

def Unread (d : Session) : Stream → Prop
  | .audio => d.audioType = none
  | .video => d.videoType = none

/-- A media type is read once, from a grabber that is routed, and freed before the next of either
stream is; what is published is what was parsed of it. -/
def permits : CaptureOp → Session → Prop
  | .walk s op, d => .coInitializeEx ∈ d.made ∧ (s = .video → cfg.wantVideo = true) ∧
      DeviceWalk.permits (cfg.search s) op (d.devices s)
  | .request r, d => (∀ q ∈ requires r, q ∈ d.made) ∧ Opens cfg d r
  | .getConnectedMediaType s, d => d.owed = [] ∧ Unread d s ∧ Routed s d
  | .freeMediaType s, d => s ∈ d.owed
  | .setGeometry vf, d => d.geometry = none ∧ d.owed = [] ∧ cfg.videoRing = true ∧
      ∃ mt, d.videoType = some mt ∧ parseVideoFormat cfg.videoPlatform mt = some vf
  | .setFormat fmt, d => d.format = none ∧ d.owed = [] ∧
      ∃ mt, d.audioType = some mt ∧ parseWfx cfg.platform mt = some fmt
  | .sleep _, d => .run ∈ d.made

def after : (op : CaptureOp) → op.Reply → Session → Session
  | .walk s op, reply, d =>
    d.setDevices s (DeviceWalk.after (cfg.search s) sourceEnds Variant.text op reply (d.devices s))
  | .request r, .ok (), d => { d with made := r :: d.made }
  | .request _, .error _, d => d
  | .getConnectedMediaType .audio, .ok mt, d =>
    { d with audioType := some mt, owed := .audio :: d.owed }
  | .getConnectedMediaType .video, .ok mt, d =>
    { d with videoType := some mt, owed := .video :: d.owed }
  | .getConnectedMediaType _, .error _, d => d
  | .freeMediaType s, _, d => { d with owed := d.owed.erase s }
  | .setGeometry vf, .ok _, d => { d with geometry := some vf }
  | .setGeometry _, .error _, d => d
  | .setFormat fmt, _, d => { d with format := some fmt }
  | .sleep _, _, d => d

def protocol : Protocol CaptureOp CaptureOp.Reply Session := ⟨permits cfg, after cfg⟩

end Protocol

end DshowCapture
