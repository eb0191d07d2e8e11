import Lalah.AudioRead
import Lalah.GatedRecord
import Lalah.HostSizing

/-! The two published records of one region: the audio format behind `frame_bytes` and the
video geometry behind `frame_size`. One producer publishes each once, in either order,
while the host polls both, all of them interleaved access by access. -/
namespace PublicationGates

open InteractionProgram RelyGuarantee ByteMemory GatedRecord ShmContract ShmVideoContract
  AudioRing RegionSplit

structure Camera where
  handle : ShmVideoBuffer
  vf : VideoFormat
  slots : ℕ
  accepted : ∃ m p m', (handle.setGeometry vf).run access m = ((p, .ok slots), m')

structure Publisher where
  formatted : Bool
  geometry : Option (ShmVideoBuffer × Except String ℕ)

structure Poll where
  before : ShmVideoBuffer
  result : Option VideoFormat
  after : ShmVideoBuffer
  deriving DecidableEq, Repr

structure Viewer where
  handle : Option ShmVideoBuffer
  polls : List Poll

structure State where
  mem : Memory
  producer : Party Access Access.Reply Publisher
  listener : Party Access Access.Reply (List (Option AudioFormat))
  viewer : Party Access Access.Reply Viewer

inductive Event where
  | setFormat
  | setGeometry
  | produce
  | pollFormat
  | listen
  | refresh
  | view
  deriving DecidableEq, Repr

/-- A start of the host that has completed on any earlier contents. In video mode the
producer has attached to the same video region. -/
structure Run where
  video : Bool
  total : ℕ
  usize : total < 2 ^ 64
  before : Memory
  ring : ShmAudioBuffer
  vid : Option ShmVideoBuffer
  start : Memory
  started : (hostStart video total).run access before = (.running ring vid, start)
  fmt : AudioFormat
  framed : fmt.frameBytes ≠ 0
  camera : Option Camera
  sameRegion : camera.map (fun c => c.handle.hdr) = vid.map fun v => v.hdr
  event : ℕ → Event

section System

variable (r : Run)

def startFormat (p : Publisher) : MemProg Publisher :=
  if p.formatted then .ret p
  else r.ring.setFormat r.fmt >>= fun _ => .ret { p with formatted := true }

def startGeometry (p : Publisher) : MemProg Publisher :=
  match r.camera, p.geometry with
  | some c, none => c.handle.setGeometry c.vf >>= fun g => .ret { p with geometry := some g }
  | _, _ => .ret p

def startPoll (log : List (Option AudioFormat)) : MemProg (List (Option AudioFormat)) :=
  r.ring.format >>= fun f => .ret (log ++ [f])

def startRefresh (w : Viewer) : MemProg Viewer :=
  match w.handle with
  | none => .ret w
  | some h => h.refreshGeometry >>= fun g => .ret ⟨some g.1, w.polls ++ [⟨h, g.2, g.1⟩]⟩

def next : Event → State → State
  | .setFormat, s => { s with producer := s.producer.invoke (startFormat r) }
  | .setGeometry, s => { s with producer := s.producer.invoke (startGeometry r) }
  | .produce, s =>
    { s with producer := (s.producer.access access s.mem).1
             mem := (s.producer.access access s.mem).2 }
  | .pollFormat, s => { s with listener := s.listener.invoke (startPoll r) }
  | .listen, s =>
    { s with listener := (s.listener.access access s.mem).1
             mem := (s.listener.access access s.mem).2 }
  | .refresh, s => { s with viewer := s.viewer.invoke startRefresh }
  | .view, s =>
    { s with viewer := (s.viewer.access access s.mem).1
             mem := (s.viewer.access access s.mem).2 }

def Run.state : ℕ → State
  | 0 => ⟨r.start, .rest ⟨false, none⟩, .rest [], .rest ⟨r.vid, []⟩⟩
  | t + 1 => next r (r.event t) (Run.state t)

end System

section Records

theorem camera_geometry (c : Camera) : c.vf.frameSize.toNat ≠ 0 ∧ 3 ≤ c.slots ∧
    c.slots = (c.handle.regionLen - shmVideoHeader.size) / alignUp64 c.vf.frameSize.toNat %
      2 ^ 32 := by
  obtain ⟨m, p, m', hok⟩ := c.accepted
  obtain ⟨hframe, hslots, hcount, _⟩ := VideoRing.setGeometry_ok hok
  exact ⟨hframe, hslots, hcount⟩

def formatRecord (r : Run) : Record shmHeader where
  base := r.ring.hdr
  words := [(.sampleRate, r.fmt.sampleRate.toNat), (.channels, r.fmt.channels.toNat),
    (.format, r.fmt.format.toU32)]
  gate := .frameBytes
  opens := r.fmt.frameBytes.toNat
  nodup := by simp
  fit f v hmem := by
    have hget := format_word (show (f, v) ∈ formatWords r.fmt from hmem) 0 fun _ => 0
    rw [← hget]
    exact shmHeader.get_lt _ _ _
  nonzero := fun h => r.framed (UInt32.toNat_inj.mp h)

def geometryRecord (c : Camera) : Record shmVideoHeader where
  base := c.handle.hdr
  words := [(.width, c.vf.width.toNat), (.height, c.vf.height.toNat),
    (.stride, c.vf.stride.toNat), (.fourcc, c.vf.fourcc.toNat), (.slotCount, c.slots),
    (.frameSeq, 0)]
  gate := .frameSize
  opens := c.vf.frameSize.toNat
  nodup := by simp
  fit f v hmem := by
    have hslots : c.slots < 2 ^ 32 := (camera_geometry c).2.2 ▸ Nat.mod_lt _ (by decide)
    have hget := VideoRing.geometry_words hslots
      (show (f, v) ∈ VideoRing.geometryWords c.vf c.slots from hmem) 0 fun _ => 0
    rw [← hget]
    exact shmVideoHeader.get_lt _ _ _
  nonzero := (camera_geometry c).1

end Records

section Publishing

variable (r : Run)

def GeometryAt (p : Publisher) (m : Memory) : Prop := ∀ c, r.camera = some c →
  if p.geometry.isSome then (geometryRecord c).Complete m else (geometryRecord c).Closed m

def FormatAt (p : Publisher) (m : Memory) : Prop :=
  if p.formatted then (formatRecord r).Complete m else (formatRecord r).Closed m

def publisherTerms : Terms Access Memory Publisher where
  rely m m' := m' = m
  allow := fun _ _ _ => True
  guar m m' := (formatRecord r).Advances m m' ∧
    ∀ c, r.camera = some c → (geometryRecord c).Advances m m'
  during := fun _ _ _ => True
  between p m := FormatAt r p m ∧ GeometryAt r p m
  follows := fun _ _ => True
  rely_refl := fun _ => rfl
  rely_trans := fun _ _ _ h h' => h'.trans h
  between_stable := fun _ _ _ h hs => hs ▸ h

variable {r} {p : Publisher} {m : Memory} {c : Camera}

theorem safe_format (happart : ∀ c, r.camera = some c → r.ring.hdr + shmHeader.size ≤ c.handle.hdr)
    (hf : FormatAt r p m) (hg : GeometryAt r p m) :
    Safe access (publisherTerms r) p (Ends (publisherTerms r) p) (startFormat r p) [] m := by
  rw [startFormat]
  by_cases hdone : p.formatted
  · rw [if_pos hdone]
    exact ⟨⟨hf, hg⟩, trivial⟩
  rw [if_neg hdone]
  have hclosed : (formatRecord r).Closed m := by
    have hstate := hf
    rwa [FormatAt, if_neg hdone] at hstate
  refine Record.safe_publish (r := formatRecord r) (I := GeometryAt r p) (fun _ _ hs => hs)
    (fun _ _ => trivial) (fun m f v hI hadvance => ?_) (fun made m hI hcomplete => ?_) hclosed hg
  · have hword : ∀ c, r.camera = some c → ∀ g, shmVideoHeader.get c.handle.hdr g
        (shmHeader.put r.ring.hdr f v m) = shmVideoHeader.get c.handle.hdr g m := by
      intro c hc g
      exact shmVideoHeader.get_put_apart (Or.inr (happart c hc)) g f v m
    refine ⟨⟨hadvance, fun c hc => Record.advances_of_words (hword c hc)⟩, fun c hc => ?_⟩
    have hI := hI c hc
    split
    next h =>
      rw [if_pos h] at hI
      exact (Record.advances_of_words (hword c hc)).2 hI
    next h =>
      rw [if_neg h] at hI
      exact (hword c hc _).trans hI
  · exact ⟨⟨hcomplete, hI⟩, trivial⟩

theorem safe_geometry
    (happart : ∀ c, r.camera = some c → r.ring.hdr + shmHeader.size ≤ c.handle.hdr)
    (hf : FormatAt r p m) (hg : GeometryAt r p m) :
    Safe access (publisherTerms r) p (Ends (publisherTerms r) p) (startGeometry r p) [] m := by
  rw [startGeometry]
  cases hcamera : r.camera with
  | none => exact ⟨⟨hf, hg⟩, trivial⟩
  | some c =>
    cases hdone : p.geometry with
    | some g => exact ⟨⟨hf, hg⟩, trivial⟩
    | none =>
      dsimp only
      obtain ⟨hframe, hslots, hcount⟩ := camera_geometry c
      have hclosed : (geometryRecord c).Closed m := by
        have hstate := hg c hcamera
        rwa [hdone] at hstate
      rw [VideoRing.setGeometry_eq hframe hslots hcount]
      refine Record.safe_publish (r := geometryRecord c) (I := FormatAt r p) (fun _ _ hs => hs)
        (fun _ _ => trivial) (fun m f v hI hadvance => ?_) (fun made m hI hcomplete => ?_)
        hclosed hf
      · have hword : ∀ g, shmHeader.get r.ring.hdr g (shmVideoHeader.put c.handle.hdr f v m) =
            shmHeader.get r.ring.hdr g m := by
          intro g
          exact shmHeader.get_put_apart (Or.inl (happart c hcamera)) g f v m
        refine ⟨⟨Record.advances_of_words hword, fun c' hc' => ?_⟩, ?_⟩
        · obtain rfl : c = c' := Option.some.inj (hcamera.symm.trans hc')
          exact hadvance
        · unfold FormatAt at hI ⊢
          split
          next h =>
            rw [if_pos h] at hI
            exact (Record.advances_of_words hword).2 hI
          next h =>
            rw [if_neg h] at hI
            exact (hword _).trans hI
      · refine ⟨⟨hI, fun c' hc' => ?_⟩, trivial⟩
        obtain rfl : c = c' := Option.some.inj (hcamera.symm.trans hc')
        exact hcomplete

end Publishing

section Polling

/-- The others advance the format's record; the poll itself only loads. -/
def listenerTerms (r : Run) : Terms Access Memory (List (Option AudioFormat)) where
  rely := (formatRecord r).Advances
  allow := fun _ _ _ => True
  guar := fun _ _ => True
  during log _ := (formatRecord r).Polls r.fmt log
  between := (formatRecord r).Polls r.fmt
  follows := fun _ _ => True
  rely_refl := Record.advances_refl
  rely_trans := fun _ _ _ => Record.Advances.trans
  between_stable := fun _ _ _ => Record.polls_stable

/-- A refresh that returned nothing left the handle alone; one that returned a geometry
left its frame size and slots in it. -/
structure Poll.Exact (c : Camera) (p : Poll) : Prop where
  blind : p.result = none → p.after = p.before
  seeing : ∀ vf, p.result = some vf → p.after = ⟨p.before.hdr, p.before.regionLen,
    c.vf.frameSize.toNat, alignUp64 c.vf.frameSize.toNat, c.slots⟩

structure Viewing (c : Camera) (w : Viewer) (m : Memory) : Prop where
  polls : (geometryRecord c).Polls c.vf (w.polls.map Poll.result) m
  exact : ∀ p ∈ w.polls, p.Exact c
  handle : ∀ h, w.handle = some h → h.hdr = c.handle.hdr

theorem viewing_stable {c : Camera} {w : Viewer} {m m' : Memory} (h : Viewing c w m)
    (hs : (geometryRecord c).Advances m m') : Viewing c w m' :=
  ⟨Record.polls_stable h.polls hs, h.exact, h.handle⟩

def viewerTerms (c : Camera) : Terms Access Memory Viewer where
  rely := (geometryRecord c).Advances
  allow := fun _ _ _ => True
  guar := fun _ _ => True
  during w _ := Viewing c w
  between := Viewing c
  follows := fun _ _ => True
  rely_refl := Record.advances_refl
  rely_trans := fun _ _ _ => Record.Advances.trans
  between_stable := fun _ _ _ => viewing_stable

variable {r : Run} {log : List (Option AudioFormat)} {m : Memory} {c : Camera} {w : Viewer}

theorem safe_poll (h : (formatRecord r).Polls r.fmt log m) : Safe access (listenerTerms r) log
    (Ends (listenerTerms r) log) (startPoll r log) [] m := by
  have hstable : ∀ m m', (formatRecord r).Polls r.fmt log m → (formatRecord r).Advances m m' →
      (formatRecord r).Polls r.fmt log m' := fun _ _ => Record.polls_stable
  have hword : ∀ f v k made m, (f, v) ∈ formatWords r.fmt →
      (formatRecord r).Polls r.fmt log m → (formatRecord r).Complete m →
      (∀ made m', (formatRecord r).Polls r.fmt log m' → (formatRecord r).Complete m' →
        Safe access (listenerTerms r) log (Ends (listenerTerms r) log) (k v) made m') →
      Safe access (listenerTerms r) log (Ends (listenerTerms r) log)
        (r.ring.load f >>= k) made m :=
    fun f v k made m hmem hI hc hk => Record.safe_complete (r := formatRecord r) (fun _ _ => id)
      (fun _ _ hI => ⟨hI, trivial⟩) hstable hmem hI hc hk
  simp only [startPoll, ShmAudioBuffer.format, bind_assoc]
  refine Record.safe_gate (r := formatRecord r) (fun _ _ => id) (fun _ _ hI => ⟨hI, trivial⟩)
    hstable h h.1 (fun made m' hI hclosed => ?_) (fun made m' hI hc => ?_)
  · rw [if_pos rfl]
    exact ⟨Record.polls_closed hI hclosed, trivial⟩
  · rw [if_neg (formatRecord r).nonzero, bind_assoc]
    refine hword .format r.fmt.format.toU32 _ _ _ (by simp [formatWords]) hI hc ?_
    intro made m₁ h₁ c₁
    rw [fromU32_toU32]
    dsimp only
    rw [bind_assoc]
    refine hword .sampleRate r.fmt.sampleRate.toNat _ _ _ (by simp [formatWords]) h₁ c₁ ?_
    intro made m₂ h₂ c₂
    rw [bind_assoc]
    refine hword .channels r.fmt.channels.toNat _ _ _ (by simp [formatWords]) h₂ c₂ ?_
    intro made m₃ h₃ c₃
    rw [UInt32.ofNat_toNat, UInt32.ofNat_toNat]
    have hgate : UInt32.ofNat (formatRecord r).opens = r.fmt.frameBytes := UInt32.ofNat_toNat
    rw [hgate]
    exact ⟨Record.polls_open h₃ c₃, trivial⟩

theorem viewing_snoc (h : Viewing c w m) (p : Poll) (hexact : p.Exact c)
    (hpolls : (geometryRecord c).Polls c.vf (w.polls.map Poll.result ++ [p.result]) m)
    (hafter : p.after.hdr = c.handle.hdr) : Viewing c ⟨some p.after, w.polls ++ [p]⟩ m := by
  refine ⟨?_, fun q hq => ?_, fun h' hh' => ?_⟩
  · rw [List.map_append]
    exact hpolls
  · rcases List.mem_append.mp hq with hold | hlast
    · exact h.exact q hold
    · rw [List.mem_singleton.mp hlast]
      exact hexact
  · rw [← Option.some.inj hh']
    exact hafter

theorem safe_refresh (h : Viewing c w m) : Safe access (viewerTerms c) w
    (Ends (viewerTerms c) w) (startRefresh w) [] m := by
  rw [startRefresh]
  cases hhandle : w.handle with
  | none => exact ⟨h, trivial⟩
  | some self =>
    obtain ⟨hdr, regionLen, frameSize, slotStride, slotCount⟩ := self
    obtain rfl : hdr = c.handle.hdr := h.handle _ hhandle
    have hword : ∀ f v k made m, (f, v) ∈ VideoRing.geometryWords c.vf c.slots → Viewing c w m →
        (geometryRecord c).Complete m →
        (∀ made m', Viewing c w m' → (geometryRecord c).Complete m' →
          Safe access (viewerTerms c) w (Ends (viewerTerms c) w) (k v) made m') →
        Safe access (viewerTerms c) w (Ends (viewerTerms c) w)
          (shmVideoHeader.load c.handle.hdr f >>= k) made m :=
      fun f v k made m hmem hI hc hk => Record.safe_complete (r := geometryRecord c)
        (fun _ _ => id) (fun _ _ hI => ⟨hI, trivial⟩) (fun _ _ => viewing_stable) hmem hI hc hk
    simp only [ShmVideoBuffer.refreshGeometry, ShmVideoBuffer.load, bind_assoc]
    refine Record.safe_gate (r := geometryRecord c) (I := Viewing c w) (fun _ _ => id)
      (fun _ _ hI => ⟨hI, trivial⟩) (fun _ _ => viewing_stable) h h.polls.1
      (fun made m' hI hclosed => ?_) (fun made m' hI hc => ?_)
    · rw [if_pos rfl]
      exact ⟨viewing_snoc hI ⟨_, none, _⟩ ⟨fun _ => rfl, by intro vf hvf; cases hvf⟩
        (Record.polls_closed hI.polls hclosed) rfl, trivial⟩
    · rw [if_neg (geometryRecord c).nonzero]
      simp only [bind_assoc]
      apply hword .slotCount c.slots _ _ _ (by simp [VideoRing.geometryWords]) hI hc
      intro made m₁ h₁ c₁
      apply hword .width c.vf.width.toNat _ _ _ (by simp [VideoRing.geometryWords]) h₁ c₁
      intro made m₂ h₂ c₂
      apply hword .height c.vf.height.toNat _ _ _ (by simp [VideoRing.geometryWords]) h₂ c₂
      intro made m₃ h₃ c₃
      apply hword .stride c.vf.stride.toNat _ _ _ (by simp [VideoRing.geometryWords]) h₃ c₃
      intro made m₄ h₄ c₄
      refine hword .fourcc c.vf.fourcc.toNat _ _ _ (by simp [VideoRing.geometryWords]) h₄ c₄ ?_
      intro made m₅ h₅ c₅
      have hvf : (⟨.ofNat c.vf.width.toNat, .ofNat c.vf.height.toNat, .ofNat c.vf.stride.toNat,
          .ofNat c.vf.fourcc.toNat, .ofNat (geometryRecord c).opens⟩ : VideoFormat) = c.vf := by
        have hgate : UInt32.ofNat (geometryRecord c).opens = c.vf.frameSize := UInt32.ofNat_toNat
        simp only [UInt32.ofNat_toNat, hgate]
      rw [hvf]
      exact ⟨viewing_snoc h₅ ⟨_, some c.vf, _⟩ ⟨(by intro hn; cases hn), fun _ _ => rfl⟩
        (Record.polls_open h₅.polls c₅) rfl, trivial⟩

theorem storesOnly_poll (r : Run) (log : List (Option AudioFormat)) :
    StoresOnly (fun _ => False) (startPoll r log) := by
  rw [startPoll, ShmAudioBuffer.format, bind_assoc]
  apply AudioRead.storesOnly_load
  intro frameBytes
  split
  · trivial
  rw [bind_assoc]
  apply AudioRead.storesOnly_load
  intro format
  split
  · trivial
  rw [bind_assoc]
  apply AudioRead.storesOnly_load
  intro rate
  rw [bind_assoc]
  exact AudioRead.storesOnly_load fun channels => trivial

theorem storesOnly_refresh (w : Viewer) : StoresOnly (fun _ => False) (startRefresh w) := by
  rw [startRefresh]
  cases w.handle with
  | none => trivial
  | some h => exact every_bind (VideoRing.storesOnly_refreshGeometry h) fun _ => trivial

end Polling

section Runs

variable {r : Run} {s : State}

theorem started_closed (r : Run) : (formatRecord r).Closed r.start ∧
    ∀ c, r.camera = some c → r.ring.hdr + shmHeader.size ≤ c.handle.hdr ∧
      (geometryRecord c).Closed r.start := by
  obtain ⟨hptr, hformat, hvideo⟩ := HostSizing.start_closed r.usize r.started
  refine ⟨hformat, fun c hc => ?_⟩
  have hsame := r.sameRegion
  rw [hc] at hsame
  cases hvid : r.vid with
  | none =>
    rw [hvid] at hsame
    cases hsame
  | some v =>
    rw [hvid] at hsame
    have hhdr : c.handle.hdr = v.hdr := Option.some.inj hsame
    obtain ⟨hbase, hclosed⟩ := hvideo v hvid
    constructor
    · rw [hptr, hhdr, hbase]
      decide
    · change shmVideoHeader.get c.handle.hdr .frameSize r.start = 0
      rw [hhdr]
      exact hclosed

structure Invariant (r : Run) (s : State) : Prop where
  producer : Holds access (publisherTerms r) s.producer s.mem
  listener : Holds access (listenerTerms r) s.listener s.mem
  listens : StoresOnly (fun _ => False) s.listener.prog
  viewer : ∀ c, r.camera = some c → Holds access (viewerTerms c) s.viewer s.mem
  views : StoresOnly (fun _ => False) s.viewer.prog

theorem invariant_start (r : Run) : Invariant r (r.state 0) := by
  obtain ⟨hformat, hvideo⟩ := started_closed r
  refine ⟨holds_rest ⟨hformat, fun c hc => (hvideo c hc).2⟩,
    holds_rest (Record.polls_nil (Or.inl hformat)), trivial, fun c hc => holds_rest ?_, trivial⟩
  refine ⟨Record.polls_nil (Or.inl (hvideo c hc).2), fun p hp => absurd hp List.not_mem_nil, ?_⟩
  intro h hh
  have hsame := r.sameRegion
  rw [hc, show r.vid = some h from hh] at hsame
  exact (Option.some.inj hsame).symm

theorem loads_access {C : Type} {p : Party Access Access.Reply C} {m : Memory}
    (h : StoresOnly (fun _ => False) p.prog) :
    (p.access access m).2 = m ∧ StoresOnly (fun _ => False) (p.access access m).1.prog := by
  refine ⟨?_, every_access (fun _ _ => trivial) h m⟩
  have hstate : (p.access access m).2 = m ∨ ∃ op, StoresIn (fun _ => False) op ∧
      (p.access access m).2 = (access op m).2 := access_state h m
  rcases hstate with hsame | ⟨op, hop, hdone⟩
  · exact hsame
  · rw [hdone]
    exact sameOutside_none (hop.sameOutside m)

theorem holds_step {C : Type} {T : Terms Access Memory C} {p : Party Access Access.Reply C}
    {m : Memory} (h : Holds access T p m) (hallow : ∀ made m, T.allow p.ctl made m)
    (hguar : T.guar m m) : Holds access T (p.access access m).1 (p.access access m).2 ∧
      T.guar m (p.access access m).2 := by
  rcases busy_or_rest p with hbusy | ⟨c, hc⟩
  · obtain ⟨hholds, hmoved, _⟩ := holds_access h hbusy (hallow _ _)
    exact ⟨hholds, hmoved⟩
  · rw [access_rest hc]
    exact ⟨h, hguar⟩

theorem invariant_next (r : Run) (h : Invariant r s) (e : Event) : Invariant r (next r e s) := by
  have happart : ∀ c, r.camera = some c → r.ring.hdr + shmHeader.size ≤ c.handle.hdr :=
    fun c hc => ((started_closed r).2 c hc).1
  cases e with
  | setFormat =>
    have hproducer : Holds access (publisherTerms r) (s.producer.invoke (startFormat r)) s.mem :=
      (holds_invoke h.producer fun p hp => safe_format happart hp.1 hp.2).1
    exact ⟨hproducer, h.listener, h.listens, h.viewer, h.views⟩
  | setGeometry =>
    have hproducer : Holds access (publisherTerms r) (s.producer.invoke (startGeometry r)) s.mem :=
      (holds_invoke h.producer fun p hp => safe_geometry happart hp.1 hp.2).1
    exact ⟨hproducer, h.listener, h.listens, h.viewer, h.views⟩
  | produce =>
    obtain ⟨hproducer, hformat, hvideo⟩ := holds_step h.producer (fun _ _ => trivial)
      ⟨Record.advances_refl _, fun _ _ => Record.advances_refl _⟩
    exact ⟨hproducer, holds_env h.listener hformat, h.listens,
      fun c hc => holds_env (h.viewer c hc) (hvideo c hc), h.views⟩
  | pollFormat =>
    have hlistener : Holds access (listenerTerms r) (s.listener.invoke (startPoll r)) s.mem :=
      (holds_invoke h.listener fun log => safe_poll).1
    exact ⟨h.producer, hlistener, every_invoke h.listens (storesOnly_poll r), h.viewer, h.views⟩
  | listen =>
    obtain ⟨hmem, hlistens⟩ := loads_access h.listens (m := s.mem)
    have hlistener := (holds_step h.listener (fun _ _ => trivial) trivial).1
    have hnext : (next r .listen s).mem = s.mem := hmem
    refine ⟨?_, hlistener, hlistens, ?_, h.views⟩
    · rw [hnext]
      exact h.producer
    · rw [hnext]
      exact h.viewer
  | refresh =>
    have hviewer : ∀ c, r.camera = some c →
        Holds access (viewerTerms c) (s.viewer.invoke startRefresh) s.mem :=
      fun c hc => (holds_invoke (h.viewer c hc) fun w => safe_refresh).1
    exact ⟨h.producer, h.listener, h.listens, hviewer, every_invoke h.views storesOnly_refresh⟩
  | view =>
    obtain ⟨hmem, hviews⟩ := loads_access h.views (m := s.mem)
    have hnext : (next r .view s).mem = s.mem := hmem
    refine ⟨?_, ?_, h.listens, fun c hc => ?_, hviews⟩
    · rw [hnext]
      exact h.producer
    · rw [hnext]
      exact h.listener
    · exact (holds_step (h.viewer c hc) (fun _ _ => trivial) trivial).1

theorem invariant_run (r : Run) (t : ℕ) : Invariant r (r.state t) := by
  induction t with
  | zero => exact invariant_start r
  | succ t ih => exact invariant_next r ih _

theorem holds_ctl {C : Type} {T : Terms Access Memory C} {p : Party Access Access.Reply C}
    {m : Memory} (h : Holds access T p m)
    (hduring : ∀ c made m, T.during c made m → T.between c m) : T.between p.ctl m := by
  by_cases hbusy : p.Busy
  · exact hduring _ _ _ (holds_during h hbusy)
  · exact (holds_between h hbusy).2

end Runs

/-- At every instant the polls made so far, in order, returned nothing and then, from some
poll on, the whole record; and a refresh that returned nothing left its handle alone. -/
theorem publication_gates (r : Run) (t : ℕ) :
    (∃ a b, (r.state t).listener.ctl = List.replicate a none ++ List.replicate b (some r.fmt)) ∧
    ∀ c, r.camera = some c →
      (∃ a b, (r.state t).viewer.ctl.polls.map Poll.result =
        List.replicate a none ++ List.replicate b (some c.vf)) ∧
      ∀ p ∈ (r.state t).viewer.ctl.polls, p.Exact c := by
  have hinvariant := invariant_run r t
  obtain ⟨_, a, b, hlog, _⟩ := holds_ctl hinvariant.listener fun _ _ _ => id
  refine ⟨⟨a, b, hlog⟩, fun c hc => ?_⟩
  obtain ⟨⟨_, a, b, hpolls, _⟩, hexact, _⟩ := holds_ctl (hinvariant.viewer c hc) fun _ _ _ => id
  exact ⟨⟨a, b, hpolls⟩, hexact⟩

def smallCamera : Camera where
  handle := ⟨16777216, 2048, 0, 0, 0⟩
  vf := ⟨8, 8, 8, 0, 64⟩
  slots := 30
  accepted := ⟨fun _ => 0, ⟨16777216, 2048, 64, 64, 30⟩, _, run_eq_of_fst access (by decide +kernel)⟩

/-- A poll whose load of the gate falls between the publisher's stores, and a later one. -/
def polled : Run where
  video := true
  total := 16779264
  usize := by decide
  before := fun _ => 255
  ring := ⟨0, 2 ^ 23, 23, by decide, rfl⟩
  vid := some ⟨16777216, 2048, 0, 0, 0⟩
  start := ((hostStart true 16779264).run access fun _ => 255).2
  started := run_eq_of_fst access (by decide +kernel)
  fmt := ⟨48000, 2, .s16Le, 4⟩
  framed := by decide
  camera := some smallCamera
  sameRegion := rfl
  event t := ([.setFormat, .produce, .pollFormat, .listen, .produce, .produce, .produce,
    .pollFormat, .listen, .listen, .listen] : List Event).getD t .listen

example : (polled.state 12).listener.ctl = [none, some polled.fmt] := by decide +kernel

end PublicationGates
