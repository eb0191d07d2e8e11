import Lalah.VideoForwarder

/-! What the video thread hands over. `last_count` is always above every number handed so
far, and a read comes to a number only after a count above `last_count`. The newest frame is
handed unless a push completes between a read's first load and the count behind it. -/
namespace FrameOrder

open InteractionProgram RelyGuarantee ByteMemory ShmContract ShmVideoContract VideoRing
open VideoForwarder

section Calls

def Quiet (op : HostOp) : Prop := ∀ w, (hostAccess op w).2 = w

def Loads : HostOp → Prop
  | .shm op => StoresIn (fun _ => False) op
  | _ => True

theorem quiet_loads {op : HostOp} (h : Loads op) (hopen : op ≠ .openFifo) : Quiet op := by
  intro w
  cases op with
  | shm op =>
    have hsame : (access op w.mem).2 = w.mem := sameOutside_none (h.sameOutside w.mem)
    change { w with mem := (access op w.mem).2 } = w
    rw [hsame]
  | openFifo => exact absurd rfl hopen
  | _ => rfl

abbrev AllQuiet {α : Type} (p : HostProg α) : Prop := p.Every (fun _ _ => True) Quiet

theorem quiet_call {op : HostOp} (h : Loads op) (hopen : op ≠ .openFifo) : AllQuiet (call op) :=
  ⟨quiet_loads h hopen, fun _ _ => trivial⟩

theorem quiet_shm {α : Type} {p : MemProg α} (h : StoresOnly (fun _ => False) p) :
    AllQuiet (shm p) :=
  every_lift h (fun _ hop => @quiet_loads (.shm _) hop (by simp)) fun _ _ _ => trivial

theorem quiet_offer (frame : List UInt8) : AllQuiet (offer frame) := by
  refine every_bind (quiet_call trivial (by simp)) fun n => ?_
  rcases n with e | n
  · cases e <;> trivial
  · trivial

theorem quiet_writeFrame (frame : List UInt8) : AllQuiet (writeFrame frame) := by
  refine every_bind (quiet_call trivial (by simp)) fun pipeSz => ?_
  split
  · refine every_bind (quiet_call trivial (by simp)) fun queued => ?_
    cases queued with
    | none => exact quiet_offer frame
    | some queued =>
      dsimp only
      split
      · trivial
      · exact quiet_offer frame
  · exact quiet_offer frame

theorem quiet_setPipeSize (size : ℕ) : AllQuiet (setPipeSize size) := by
  refine every_bind (quiet_call trivial (by simp)) fun r => ?_
  split
  · trivial
  · exact every_bind (quiet_call trivial (by simp)) fun _ => trivial

theorem quiet_stagger (cfg : Config) : AllQuiet (stagger cfg) := by
  unfold stagger
  split
  · exact quiet_call trivial (by simp)
  · trivial

end Calls

section Invariant

variable (buf : ShmVideoBuffer) (prompt : Prop)

structure Counted (w : World) : Prop where
  shows : Shows buf w.mem
  count : word buf .frameSeq w.mem = w.completed

/-- What the producer may do between two steps of the thread; the answers are free. -/
structure Later (w w' : World) : Prop where
  counted : Counted buf w → Counted buf w'
  completed : w.completed ≤ w'.completed
  openedAt : w'.openedAt = w.openedAt

/-- Whether the FIFO is open is known at every point but the head of the loop. -/
def Agrees (connected : Bool) : Point → Prop
  | .top => True
  | .sizing | .polling | .idle | .reading _ | .counting _ | .writing => connected = true
  | .geometry | .fifo | .disabled | .starting | .absent => connected = false

/-- The newest frame of which `last_count` knows was handed, if it is of this FIFO. -/
def Caught (v : VideoThread) (w : World) : Prop :=
  w.openedAt < v.lastCount → v.lastCount - 1 ∈ v.handed

def AtPoint (v : VideoThread) (w : World) : Prop :=
  match v.point with
  | .geometry => v.vid.hdr = buf.hdr
  | .idle => Sees buf v.vid ∧ (prompt → Caught v w)
  | .reading count => Sees buf v.vid ∧ v.lastCount < count ∧ count ≤ w.completed
  | .counting newest => Sees buf v.vid ∧ v.lastCount ≤ newest ∧ newest < w.completed
  | _ => Sees buf v.vid

/-- The loop's invariant. Behind a lapped read `last_count` is below the count, so there
`caught` promises nothing. -/
structure Loop (v : VideoThread) (w : World) : Prop where
  counted : Counted buf w
  point : AtPoint buf prompt v w
  agrees : Agrees v.connected v.point
  sorted : v.handed.Pairwise (· < ·)
  below : ∀ k ∈ v.handed, k < v.lastCount
  within : v.lastCount ≤ w.completed
  caught : prompt → v.connected = true → v.lastCount = w.completed → Caught v w

/-- Behind a read that returned a number, that frame is still the newest one. -/
def Prompt (v : VideoThread) (w : World) : Prop :=
  ∀ newest, v.point = .counting newest → w.completed = newest + 1

variable {buf prompt} {v : VideoThread} {w w' w'' : World}

theorem completed_lt (h : Counted buf w) : w.completed < 2 ^ 64 := by
  have hlt := shmVideoHeader.get_lt buf.hdr .frameSeq w.mem
  have hwidth : 256 ^ shmVideoHeader.width .frameSeq = 2 ^ 64 := by decide
  rw [hwidth] at hlt
  exact h.count.symm.trans_lt hlt

theorem Later.trans (h : Later buf w w') (k : Later buf w' w'') : Later buf w w'' :=
  ⟨k.counted ∘ h.counted, h.completed.trans k.completed, k.openedAt.trans h.openedAt⟩

theorem atPoint_later (h : AtPoint buf prompt v w) (hl : Later buf w w') :
    AtPoint buf prompt v w' := by
  have hcompleted := hl.completed
  unfold AtPoint Caught at *
  rw [hl.openedAt]
  split at h
  · exact h
  · exact h
  · exact ⟨h.1, h.2.1, h.2.2.trans hcompleted⟩
  · exact ⟨h.1, h.2.1, h.2.2.trans_le hcompleted⟩
  · exact h

theorem loop_later (h : Loop buf prompt v w) (hl : Later buf w w') : Loop buf prompt v w' := by
  have hcompleted := hl.completed
  have hwithin := h.within
  refine ⟨hl.counted h.counted, atPoint_later h.point hl, h.agrees, h.sorted, h.below,
    hwithin.trans hcompleted, ?_⟩
  intro hp hc hcount
  unfold Caught
  rw [hl.openedAt]
  exact h.caught hp hc (by omega)

variable (buf prompt) in
def loopTerms : Terms HostOp World VideoThread where
  rely := Later buf
  allow := fun v _ w => prompt → Prompt v w
  guar := fun _ _ => True
  during := fun _ _ _ => True
  between := Loop buf prompt
  follows := fun _ _ => True
  rely_refl := fun _ => ⟨id, Nat.le_refl _, rfl⟩
  rely_trans := fun _ _ _ => Later.trans
  between_stable := fun _ _ _ => loop_later

theorem sees_of_loop (h : Loop buf prompt v w) (hp : v.point ≠ .geometry) : Sees buf v.vid := by
  have hpoint := h.point
  unfold AtPoint at hpoint
  split at hpoint
  · exact absurd ‹_› hp
  · exact hpoint.1
  · exact hpoint.1
  · exact hpoint.1
  · exact hpoint

theorem hdr_of_loop (h : Loop buf prompt v w) : v.vid.hdr = buf.hdr := by
  by_cases hp : v.point = .geometry
  · have hpoint := h.point
    rwa [AtPoint, hp] at hpoint
  · exact (sees_of_loop h hp).hdr

theorem agrees_at (h : Loop buf prompt v w) {p : Point} (hp : v.point = p) :
    Agrees v.connected p := hp ▸ h.agrees

theorem reading_at (h : Loop buf prompt v w) {count : ℕ} (hp : v.point = .reading count) :
    v.lastCount < count ∧ count ≤ w.completed := by
  have hpoint := h.point
  rw [AtPoint, hp] at hpoint
  exact hpoint.2

theorem counting_at (h : Loop buf prompt v w) {newest : ℕ} (hp : v.point = .counting newest) :
    v.lastCount ≤ newest ∧ newest < w.completed := by
  have hpoint := h.point
  rw [AtPoint, hp] at hpoint
  exact hpoint.2

theorem count_loaded (h : Loop buf prompt v w) : word v.vid .frameSeq w.mem = w.completed := by
  rw [word, hdr_of_loop h]
  exact h.counted.count

end Invariant

section Rules

variable {buf : ShmVideoBuffer} {prompt : Prop} {c : VideoThread} {α : Type} {w : World}
  {made : List HostOp} {Q : α → List HostOp → World → Prop}

theorem safe_call {op : HostOp} {k : op.Reply → HostProg α}
    (h : ∀ made w', Later buf w w' → (prompt → Prompt c w') →
      Safe hostAccess (loopTerms buf prompt) c Q (k (hostAccess op w').1) made
        (hostAccess op w').2) :
    Safe hostAccess (loopTerms buf prompt) c Q (call op >>= k) made w :=
  fun w' hl => ⟨trivial, fun ha => ⟨trivial, h _ w' hl ha⟩⟩

/-- A program that leaves the world alone, among the producer's steps. -/
theorem safe_quiet {p : HostProg α} {I : World → Prop} (hp : AllQuiet p) (hI : I w)
    (hstable : ∀ w w', I w → Later buf w w' → I w') :
    Safe hostAccess (loopTerms buf prompt) c (fun _ _ w' => I w') p made w := by
  refine safe_every (I := fun _ w => I w) (fun _ _ => trivial) ?_ hp hI
  intro made w w' hw hl
  refine ⟨trivial, fun op hop => ⟨trivial, ?_⟩⟩
  rw [hop w']
  exact hstable w w' hw hl

theorem safe_count {h : ShmVideoBuffer} {k : ℕ → HostProg α} (hdr : h.hdr = buf.hdr)
    (hw : Counted buf w)
    (hk : ∀ made w', Later buf w w' → Counted buf w' → (prompt → Prompt c w') →
      Safe hostAccess (loopTerms buf prompt) c Q (k w'.completed) made w') :
    Safe hostAccess (loopTerms buf prompt) c Q (shm h.frameCount >>= k) made w := by
  apply @safe_call _ _ _ _ _ _ _ (.shm (.load 8 (h.hdr + 64))) k
  intro made w' hl ha
  have hcounted := hl.counted hw
  have hload : loadWord w'.mem 8 (h.hdr + 64) = w'.completed := by
    rw [hdr]
    exact hcounted.count
  change Safe _ _ _ _ (k (loadWord w'.mem 8 (h.hdr + 64))) _ _
  rw [hload]
  exact hk _ w' hl hcounted ha

theorem shm_bind {β γ : Type} (p : MemProg β) (q : β → MemProg γ) (k : γ → HostProg α) :
    shm (p >>= q) >>= k = shm p >>= fun a => shm (q a) >>= k := by
  rw [shm, lift_bind, bind_assoc]
  rfl

theorem safe_load {h : ShmVideoBuffer} {f : VideoField} {β : Type} {q : ℕ → MemProg β}
    {k : β → HostProg α} {I : World → Prop} (hI : I w)
    (hstable : ∀ w w', I w → Later buf w w' → I w')
    (hk : ∀ made w', I w' →
      Safe hostAccess (loopTerms buf prompt) c Q (shm (q (word h f w'.mem)) >>= k) made w') :
    Safe hostAccess (loopTerms buf prompt) c Q (shm (h.load f >>= q) >>= k) made w :=
  fun w' hl => ⟨trivial, fun _ => ⟨trivial, hk _ w' (hstable w w' hI hl)⟩⟩

end Rules

section Points

variable {buf : ShmVideoBuffer} {prompt : Prop} {cfg : Config} {v : VideoThread} {w : World}
  {made : List HostOp}

theorem loop_point (h : Loop buf prompt v w) {p : Point} (frame : List UInt8) (dropped : ℕ)
    (hpoint : AtPoint buf prompt { v with point := p } w) (hagrees : Agrees v.connected p) :
    Loop buf prompt { v with point := p, frame := frame, dropped := dropped } w :=
  ⟨h.counted, hpoint, hagrees, h.sorted, h.below, h.within, h.caught⟩

theorem loop_count (h : Loop buf prompt v w) (hp : v.point ≠ .geometry)
    (hclosed : v.connected = false) {count : ℕ} (hlow : v.lastCount ≤ count)
    (hhigh : count ≤ w.completed) :
    Loop buf prompt { v with point := .top, lastCount := count } w := by
  have hsees : Sees buf v.vid := sees_of_loop h hp
  refine ⟨h.counted, hsees, trivial, h.sorted, fun k hk => ?_, hhigh, fun _ hc => ?_⟩
  · exact (h.below k hk).trans_le hlow
  · exact absurd hc (by rw [hclosed]; decide)

variable (buf prompt cfg v) in
abbrev Goes (w : World) : Prop :=
  Safe hostAccess (loopTerms buf prompt) v (Ends (loopTerms buf prompt) v) (runVideo cfg v) [] w

theorem goes_geometry (geo : Geometry buf) (h : Loop buf prompt v w) (hp : v.point = .geometry) :
    Goes buf prompt cfg v w := by
  have hstable := (loopTerms buf prompt).between_stable v
  have hword : ∀ f m, word v.vid f m = word buf f m := by
    intro f m
    rw [word, word, hdr_of_loop h]
  simp only [Goes, runVideo, hp, ShmVideoBuffer.refreshGeometry]
  apply safe_load h hstable
  intro _ w₁ h₁
  have hgate := (hword .frameSize w₁.mem).trans h₁.counted.shows.frameSize
  rw [hgate, if_neg (Nat.ne_of_gt geo.frame)]
  apply safe_load h₁ hstable
  intro _ w₂ h₂
  have hslots := (hword .slotCount w₂.mem).trans h₂.counted.shows.slotCount
  rw [hslots]
  refine safe_load h₂ hstable fun _ w₃ h₃ => safe_load h₃ hstable fun _ w₄ h₄ => ?_
  refine safe_load h₄ hstable fun _ w₅ h₅ => safe_load h₅ hstable fun _ w₆ h₆ => ?_
  have hsees : Sees buf { v.vid with
      frameSize := buf.frameSize, slotStride := alignUp64 buf.frameSize,
      slotCount := buf.slotCount } := ⟨hdr_of_loop h, rfl, geo.stride.symm, rfl⟩
  have hclosed : v.connected = false := agrees_at h hp
  exact ⟨⟨h₆.counted, hsees, hclosed, h₆.sorted, h₆.below, h₆.within, h₆.caught⟩, trivial⟩

theorem goes_fifo (h : Loop buf prompt v w) (hp : v.point = .fifo) :
    Goes buf prompt cfg v w := by
  have hstable := (loopTerms buf prompt).between_stable v
  simp only [Goes, runVideo, hp]
  apply safe_call
  intro _ w' hl _
  have h' := hstable _ _ h hl
  have hclosed : v.connected = false := agrees_at h hp
  have hsees := sees_of_loop h' (by rw [hp]; decide)
  change Ends _ _ { v with point := if w'.answer.made = true then .starting else .disabled } _ w'
  split
  · exact ⟨loop_point h' v.frame v.dropped hsees hclosed, trivial⟩
  · exact ⟨loop_point h' v.frame v.dropped hsees hclosed, trivial⟩

theorem goes_starting (h : Loop buf prompt v w) (hp : v.point = .starting) :
    Goes buf prompt cfg v w := by
  have hstable := (loopTerms buf prompt).between_stable v
  have hclosed : v.connected = false := agrees_at h hp
  simp only [Goes, runVideo, hp]
  apply safe_count (hdr_of_loop h) h.counted
  intro _ w' hl _ _
  have h' := hstable _ _ h hl
  exact ⟨loop_count h' (by rw [hp]; decide) hclosed h'.within (Nat.le_refl _), trivial⟩

theorem goes_absent (h : Loop buf prompt v w) (hp : v.point = .absent) :
    Goes buf prompt cfg v w := by
  have hstable := (loopTerms buf prompt).between_stable v
  have hclosed : v.connected = false := agrees_at h hp
  simp only [Goes, runVideo, hp]
  apply safe_count (hdr_of_loop h) h.counted
  intro _ w₁ h₁ _ _
  apply safe_call
  intro _ w₂ h₂ _
  have h' := hstable _ _ (hstable _ _ h h₁) h₂
  have hlow := (hstable _ _ h h₁).within
  exact ⟨loop_count h' (by rw [hp]; decide) hclosed hlow h₂.completed, trivial⟩

theorem goes_top (h : Loop buf prompt v w) (hp : v.point = .top) :
    Goes buf prompt cfg v w := by
  have hstable := (loopTerms buf prompt).between_stable v
  have hsees := sees_of_loop h (by rw [hp]; decide)
  simp only [Goes, runVideo, hp]
  split
  next hopen => exact ⟨loop_point h v.frame v.dropped hsees hopen, trivial⟩
  next hclosed =>
    apply safe_call
    intro _ w' hl _
    have h' := hstable _ _ h hl
    change Ends _ _ { v with
      point := if w'.answer.opened = true then .sizing else .absent,
      connected := w'.answer.opened } _ { w' with
        openedAt := if w'.answer.opened = true then w'.completed else w'.openedAt }
    cases hopened : w'.answer.opened with
    | false =>
      have hcounted : Counted buf w' := h'.counted
      refine ⟨⟨⟨hcounted.shows, hcounted.count⟩, hsees, rfl, h'.sorted, h'.below, h'.within,
        fun _ hc => ?_⟩, trivial⟩
      exact absurd hc Bool.false_ne_true
    | true =>
      have hcounted : Counted buf w' := h'.counted
      refine ⟨⟨⟨hcounted.shows, hcounted.count⟩, hsees, rfl, h'.sorted, h'.below, h'.within,
        fun _ _ hcount hlt => ?_⟩, trivial⟩
      exact absurd hlt (Nat.not_lt.mpr hcount.le)

theorem goes_sizing (h : Loop buf prompt v w) (hp : v.point = .sizing) :
    Goes buf prompt cfg v w := by
  have hopen : v.connected = true := agrees_at h hp
  have hsees := sees_of_loop h (by rw [hp]; decide)
  simp only [Goes, runVideo, hp]
  refine safe_bind (safe_mono (fun _ _ w' h' => ?_) (safe_quiet (I := Loop buf prompt v)
    (quiet_setPipeSize _) h ((loopTerms buf prompt).between_stable v)))
  exact ⟨loop_point h' v.frame v.dropped hsees hopen, trivial⟩

/-- The poll: on an equal count the newest frame is the one that `last_count` knows. -/
theorem goes_polling (h : Loop buf prompt v w) (hp : v.point = .polling) :
    Goes buf prompt cfg v w := by
  have hstable := (loopTerms buf prompt).between_stable v
  have hopen : v.connected = true := agrees_at h hp
  have hsees := sees_of_loop h (by rw [hp]; decide)
  simp only [Goes, runVideo, hp]
  apply safe_count (hdr_of_loop h) h.counted
  intro _ w' hl _ _
  have h' := hstable _ _ h hl
  have hwithin := h'.within
  change Ends _ _ { v with
    point := (if w'.completed = v.lastCount then .idle else .reading w'.completed) } _ w'
  split
  next hsame =>
    have hcaught : prompt → Caught v w' := fun hprompt => h'.caught hprompt hopen hsame.symm
    exact ⟨loop_point h' v.frame v.dropped ⟨hsees, hcaught⟩ hopen, trivial⟩
  next hnew =>
    have hlow : v.lastCount < w'.completed := by omega
    exact ⟨loop_point h' v.frame v.dropped ⟨hsees, hlow, Nat.le_refl _⟩ hopen, trivial⟩

theorem goes_idle (h : Loop buf prompt v w) (hp : v.point = .idle) :
    Goes buf prompt cfg v w := by
  have hstable := (loopTerms buf prompt).between_stable v
  have hsees := sees_of_loop h (by rw [hp]; decide)
  simp only [Goes, runVideo, hp]
  apply safe_call
  intro _ w' hl _
  exact ⟨loop_point (hstable _ _ h hl) v.frame v.dropped hsees trivial, trivial⟩

/-- A lapped read leaves `last_count` below the number of frames. -/
theorem loop_lapped {count : ℕ} (h : Loop buf prompt v w) (hp : v.point = .reading count)
    (frame : List UInt8) (hlapped : count < w.completed) :
    Loop buf prompt { v with point := .top, frame := frame, lastCount := count } w := by
  have hsees : Sees buf v.vid := sees_of_loop h (by rw [hp]; intro heq; cases heq)
  have hlow : v.lastCount < count := (reading_at h hp).1
  refine ⟨h.counted, hsees, trivial, h.sorted, fun k hk => (h.below k hk).trans hlow,
    hlapped.le, fun _ _ hcount => ?_⟩
  exact absurd hcount (Nat.ne_of_lt hlapped)

/-- The read: a number it comes to is the newest frame at its first load, so it is not below
the count that was polled. -/
theorem goes_reading (geo : Geometry buf) {count : ℕ} (h : Loop buf prompt v w)
    (hp : v.point = .reading count) : Goes buf prompt cfg v w := by
  have hstable := (loopTerms buf prompt).between_stable v
  have hopen : v.connected = true := agrees_at h hp
  have hsees := sees_of_loop h (by rw [hp]; intro heq; cases heq)
  have hset : ¬ (v.vid.frameSize = 0 ∨ v.vid.slotCount = 0) := by
    have hframe := geo.frame
    have hslots := geo.slots
    rw [hsees.frameSize, hsees.slotCount]
    omega
  simp only [Goes, runVideo, hp]
  refine safe_bind (safe_mono (fun _ _ w₀ h₀ => ?_) (safe_quiet (I := Loop buf prompt v)
    (quiet_stagger cfg) h hstable))
  rw [readFrame_eq hset]
  apply safe_load h₀ hstable
  intro _ w₁ h₁
  have hfirst := count_loaded h₁
  obtain ⟨hlow, hcount⟩ := reading_at h₁ hp
  rw [hfirst]
  unfold afterCount
  rw [if_neg (show ¬ w₁.completed = 0 by omega), shm_bind]
  -- the copy loads only; the count can but grow meanwhile
  refine safe_bind (safe_mono ?_ (safe_quiet
    (I := fun w' => Loop buf prompt v w' ∧ w₁.completed ≤ w'.completed)
    (quiet_shm (WordCopy.storesOnly_copyFromWords _ _)) ⟨h₁, Nat.le_refl _⟩ ?_))
  · rintro live _ w₂ ⟨h₂, hgrown⟩
    refine safe_load (I := fun w' => Loop buf prompt v w' ∧ w₁.completed ≤ w'.completed)
      ⟨h₂, hgrown⟩ ?_ fun _ w₃ h₃ => ?_
    · intro w w' hw hl
      exact ⟨hstable w w' hw.1 hl, hw.2.trans hl.completed⟩
    obtain ⟨h₃, hgrown⟩ := h₃
    have hsub : wrappingSub w₃.completed w₁.completed = w₃.completed - w₁.completed :=
      wrappingSub_of_le hgrown (completed_lt h₃.counted)
    rw [count_loaded h₃, hsub]
    split
    next hnear =>
      refine ⟨loop_point h₃ _ v.dropped ⟨hsees, ?_, ?_⟩ hopen, trivial⟩
      · change v.lastCount ≤ w₁.completed - 1
        omega
      · omega
    next hfar =>
      have hslots := geo.slots
      rw [hsees.slotCount] at hfar
      exact ⟨loop_lapped h₃ hp _ (by omega), trivial⟩
  · intro w w' hw hl
    exact ⟨hstable w w' hw.1 hl, hw.2.trans hl.completed⟩

/-- Behind a good read: the number is handed, and `last_count` is the count of now. -/
theorem goes_counting {newest : ℕ} (h : Loop buf prompt v w) (hp : v.point = .counting newest) :
    Goes buf prompt cfg v w := by
  have hstable := (loopTerms buf prompt).between_stable v
  have hopen : v.connected = true := agrees_at h hp
  have hsees := sees_of_loop h (by rw [hp]; intro heq; cases heq)
  simp only [Goes, runVideo, hp]
  apply safe_count (hdr_of_loop h) h.counted
  intro _ w' hl _ ha
  have h' := hstable _ _ h hl
  obtain ⟨hlow, hhigh⟩ := counting_at h' hp
  refine ⟨⟨h'.counted, hsees, hopen, ?_, ?_, Nat.le_refl _, ?_⟩, trivial⟩
  · rw [List.pairwise_append]
    refine ⟨h'.sorted, List.pairwise_singleton _ _, fun k hk k' hk' => ?_⟩
    rw [List.mem_singleton.mp hk']
    exact (h'.below k hk).trans_le hlow
  · intro k hk
    rcases List.mem_append.mp hk with hk | hk
    · exact (h'.below k hk).trans_le (hlow.trans hhigh.le)
    · rw [List.mem_singleton.mp hk]
      exact hhigh
  · intro hprompt _ _ _
    have hnewest := ha hprompt newest hp
    change w'.completed - 1 ∈ v.handed ++ [newest]
    rw [hnewest, Nat.add_sub_cancel]
    exact List.mem_append_right _ (List.mem_singleton_self _)

theorem goes_writing (h : Loop buf prompt v w) (hp : v.point = .writing) :
    Goes buf prompt cfg v w := by
  have hstable := (loopTerms buf prompt).between_stable v
  have hsees := sees_of_loop h (by rw [hp]; decide)
  simp only [Goes, runVideo, hp]
  refine safe_bind (safe_mono (fun outcome _ w' h' => ?_) (safe_quiet (I := Loop buf prompt v)
    (quiet_writeFrame _) h hstable))
  cases outcome with
  | wrote => exact ⟨loop_point h' v.frame v.dropped hsees trivial, trivial⟩
  | dropped => exact ⟨loop_point h' v.frame (v.dropped + 1) hsees trivial, trivial⟩
  | readerGone =>
    apply safe_call
    intro _ w'' hl _
    have h'' := hstable _ _ h' hl
    refine ⟨⟨h''.counted, hsees, trivial, h''.sorted, h''.below, h''.within, fun _ hc => ?_⟩,
      trivial⟩
    exact absurd hc Bool.false_ne_true

theorem goes (geo : Geometry buf) (h : Loop buf prompt v w) : Goes buf prompt cfg v w := by
  cases hp : v.point with
  | geometry => exact goes_geometry geo h hp
  | fifo => exact goes_fifo h hp
  | disabled =>
    simp only [Goes, runVideo, hp]
    exact ⟨h, trivial⟩
  | starting => exact goes_starting h hp
  | top => exact goes_top h hp
  | sizing => exact goes_sizing h hp
  | absent => exact goes_absent h hp
  | polling => exact goes_polling h hp
  | idle => exact goes_idle h hp
  | reading count => exact goes_reading geo h hp
  | counting newest => exact goes_counting h hp
  | writing => exact goes_writing h hp

end Points

section Stores

def Keeps (op : HostOp) : Prop := ∀ w,
  (hostAccess op w).2.mem = w.mem ∧ (hostAccess op w).2.completed = w.completed

theorem keeps_quiet {α : Type} {p : HostProg α} (h : AllQuiet p) :
    p.Every (fun _ _ => True) Keeps := by
  apply every_mono h
  intro op hop w
  rw [hop w]
  exact ⟨rfl, rfl⟩

theorem keeps_call {op : HostOp} (h : Loads op) (hopen : op ≠ .openFifo) :
    (call op).Every (fun _ _ => True) Keeps := keeps_quiet (quiet_call h hopen)

theorem keeps_count (h : ShmVideoBuffer) : (shm h.frameCount).Every (fun _ _ => True) Keeps :=
  keeps_quiet (quiet_shm ⟨trivial, fun _ _ => trivial⟩)

theorem keeps_runVideo (cfg : Config) (v : VideoThread) :
    (runVideo cfg v).Every (fun _ _ => True) Keeps := by
  unfold runVideo
  split
  case h_1 =>
    apply every_bind (keeps_quiet (quiet_shm (storesOnly_refreshGeometry v.vid)))
    intro r
    obtain ⟨vid, vf⟩ := r
    cases vf with
    | some vf => trivial
    | none => exact every_bind (keeps_call trivial (by simp)) fun _ => trivial
  case h_2 => exact every_bind (keeps_call trivial (by simp)) fun _ => trivial
  case h_3 => trivial
  case h_4 => exact every_bind (keeps_count v.vid) fun _ => trivial
  case h_5 =>
    split
    · trivial
    · exact ⟨fun w => ⟨rfl, rfl⟩, fun _ _ => trivial⟩
  case h_6 => exact every_bind (keeps_quiet (quiet_setPipeSize _)) fun _ => trivial
  case h_7 =>
    exact every_bind (keeps_count v.vid) fun _ =>
      every_bind (keeps_call trivial (by simp)) fun _ => trivial
  case h_8 => exact every_bind (keeps_count v.vid) fun _ => trivial
  case h_9 => exact every_bind (keeps_call trivial (by simp)) fun _ => trivial
  case h_10 =>
    apply every_bind (keeps_quiet (quiet_stagger cfg))
    intro _
    apply every_bind (keeps_quiet (quiet_shm (storesOnly_readFrame v.vid v.frame)))
    intro r
    obtain ⟨res, frame⟩ := r
    cases res <;> trivial
  case h_11 => exact every_bind (keeps_count v.vid) fun _ => trivial
  case h_12 =>
    apply every_bind (keeps_quiet (quiet_writeFrame v.frame))
    intro outcome
    cases outcome with
    | wrote => trivial
    | dropped => trivial
    | readerGone => exact every_bind (keeps_call trivial (by simp)) fun _ => trivial

end Stores

section Runs

variable {r : Run} {prompt : Prop} {j t : ℕ}

theorem geometry (r : Run) : Geometry r.buf := (live_setGeometry r.published).2.2.1

structure Invariant (buf : ShmVideoBuffer) (s : State) : Prop where
  producer : Holds access (producerTerms buf) s.producer s.world.mem
  keeps : s.thread.prog.Every (fun _ _ => True) Keeps
  completed : s.world.completed = s.producer.ctl.length

variable {buf : ShmVideoBuffer} {cfg : Config} {s : State}

theorem live_invariant (h : Invariant buf s) : Live buf s.producer.ctl s.world.mem := by
  by_cases hb : s.producer.Busy
  · exact holds_during h.producer hb
  · exact (holds_between h.producer hb).2

theorem counted_invariant (h : Invariant buf s) (hframes : s.producer.ctl.length < 2 ^ 64) :
    Counted buf s.world := by
  have hlive := live_invariant h
  refine ⟨hlive.shows, hlive.count.trans ?_⟩
  rw [Nat.mod_eq_of_lt hframes, h.completed]

theorem forward_keeps (h : Invariant buf s) (answer : Answer) :
    (next buf cfg (.forward answer) s).world.mem = s.world.mem ∧
      (next buf cfg (.forward answer) s).world.completed = s.world.completed := by
  have hstate : (next buf cfg (.forward answer) s).world = { s.world with answer := answer } ∨
      ∃ op, Keeps op ∧ (next buf cfg (.forward answer) s).world =
        (hostAccess op { s.world with answer := answer }).2 := advance_state h.keeps _
  rcases hstate with hsame | ⟨op, hop, hdone⟩
  · rw [hsame]
    exact ⟨rfl, rfl⟩
  · rw [hdone]
    exact hop { s.world with answer := answer }

theorem invariant_next (geo : Geometry buf) (h : Invariant buf s) (e : Event) :
    Invariant buf (next buf cfg e s) ∧ s.producer.ctl <+: (next buf cfg e s).producer.ctl := by
  cases e with
  | push src =>
    obtain ⟨hholds, hctl⟩ := holds_invoke h.producer fun c hc => safe_push geo src hc
    refine ⟨⟨hholds, h.keeps, rfl⟩, ?_⟩
    rcases hctl with hsame | ⟨more, hmore⟩
    · exact hsame.symm ▸ List.prefix_refl _
    · exact hmore.symm ▸ List.prefix_append _ _
  | produce =>
    rcases busy_or_rest s.producer with hb | ⟨c, hc⟩
    · obtain ⟨hholds, _, hctl⟩ := holds_access h.producer hb trivial
      refine ⟨⟨hholds, h.keeps, rfl⟩, ?_⟩
      rcases hctl with hsame | ⟨more, hmore⟩
      · exact hsame.symm ▸ List.prefix_refl _
      · exact hmore.symm ▸ List.prefix_append _ _
    · have hstay : s.producer.access access s.world.mem = (s.producer, s.world.mem) :=
        access_rest hc s.world.mem
      simp only [next, hstay]
      exact ⟨⟨h.producer, h.keeps, rfl⟩, List.prefix_refl _⟩
  | forward answer =>
    obtain ⟨hmem, hcompleted⟩ := @forward_keeps buf cfg s h answer
    refine ⟨⟨?_, ?_, hcompleted.trans h.completed⟩, List.prefix_refl _⟩
    · rw [hmem]
      exact h.producer
    · exact every_advance (fun _ _ => trivial) h.keeps (keeps_runVideo cfg) _

theorem invariant_run (r : Run) (t : ℕ) : Invariant r.buf (r.state t) := by
  induction t with
  | zero =>
    have hlive := (live_setGeometry r.published).2.2.2
    exact ⟨holds_rest hlive, trivial, rfl⟩
  | succ t ih => exact (invariant_next (geometry r) ih (r.event t)).1

theorem completed_mono {u : ℕ} (h : t ≤ u) : r.completed t ≤ r.completed u :=
  monotone_nat_of_le_succ
    (fun t => (invariant_next (geometry r) (invariant_run r t) (r.event t)).2.length_le) h

theorem counted_run (hframes : r.completed t < 2 ^ 64) : Counted r.buf (r.state t).world :=
  counted_invariant (invariant_run r t) hframes

/-- What a step of the producer is to the thread. -/
theorem later_producer (hframes : r.completed (t + 1) < 2 ^ 64)
    (hopened : (r.state (t + 1)).world.openedAt = (r.state t).world.openedAt) :
    Later r.buf (r.state t).world (r.state (t + 1)).world := by
  refine ⟨fun _ => counted_run hframes, ?_, hopened⟩
  rw [(invariant_run r t).completed, (invariant_run r (t + 1)).completed]
  exact completed_mono (Nat.le_succ t)

/-- The step does not load the count behind a read that a later frame has overtaken. -/
def PromptStep (r : Run) (t : ℕ) : Prop := ∀ answer newest, r.event t = .forward answer →
  (r.thread t).point = .counting newest → r.completed t = newest + 1

theorem thread_holds (hframes : r.completed j < 2 ^ 64)
    (hprompt : prompt → ∀ t < j, PromptStep r t) (h : t ≤ j) :
    Holds hostAccess (loopTerms r.buf prompt) (r.state t).thread (r.state t).world := by
  induction t with
  | zero =>
    obtain ⟨hptr, _, _, hlive⟩ := live_setGeometry r.published
    have hattached : r.attached.hdr = r.buf.hdr := r.sameRegion.trans hptr.symm
    refine holds_rest ⟨⟨hlive.shows, hlive.count⟩, hattached, rfl, List.Pairwise.nil,
      fun k hk => absurd hk List.not_mem_nil, Nat.le_refl _, fun _ hc => ?_⟩
    exact absurd hc Bool.false_ne_true
  | succ t ih =>
    have hholds := ih (by omega)
    have hnext : r.completed (t + 1) < 2 ^ 64 := (completed_mono h).trans_lt hframes
    have hstate : r.state (t + 1) = next r.buf r.cfg (r.event t) (r.state t) := rfl
    cases he : r.event t with
    | push src =>
      have hlater := later_producer hnext (by rw [hstate, he]; rfl)
      have hthread : (r.state (t + 1)).thread = (r.state t).thread := by rw [hstate, he]; rfl
      rw [hthread]
      exact holds_env hholds hlater
    | produce =>
      have hlater := later_producer hnext (by rw [hstate, he]; rfl)
      have hthread : (r.state (t + 1)).thread = (r.state t).thread := by rw [hstate, he]; rfl
      rw [hthread]
      exact holds_env hholds hlater
    | forward answer =>
      have hanswer : Later r.buf (r.state t).world { (r.state t).world with answer := answer } :=
        ⟨fun hc => ⟨hc.shows, hc.count⟩, Nat.le_refl _, rfl⟩
      have hnow := holds_env hholds hanswer
      rw [hstate, he]
      rcases busy_or_rest (r.state t).thread with hb | ⟨c, hc⟩
      · simp only [next, advance_busy hb]
        refine (holds_access hnow hb fun hp newest hpoint => ?_).1
        exact (invariant_run r t).completed.trans (hprompt hp t (by omega) answer newest he hpoint)
      · simp only [next, advance_rest hc]
        exact (holds_invoke hnow fun c hc => goes (geometry r) hc).1

theorem thread_rest (hframes : r.completed t < 2 ^ 64) {c : VideoThread}
    (hc : (r.state t).thread.prog = .ret c) :
    (r.state t).thread = .rest c ∧ Loop r.buf False c (r.state t).world := by
  have hholds : Holds hostAccess (loopTerms r.buf False) (r.state t).thread (r.state t).world :=
    thread_holds hframes (fun h => h.elim) (Nat.le_refl t)
  unfold Holds at hholds
  rw [hc] at hholds
  exact hholds

theorem thread_busy (hframes : r.completed t < 2 ^ 64) (hb : (r.state (t + 1)).thread.Busy) :
    r.thread (t + 1) = r.thread t := by
  have hstate : r.state (t + 1) = next r.buf r.cfg (r.event t) (r.state t) := rfl
  rw [Run.thread, Run.thread]
  cases he : r.event t with
  | push src => rw [hstate, he]; rfl
  | produce => rw [hstate, he]; rfl
  | forward answer =>
    rw [hstate, he] at hb ⊢
    refine advance_ctl (fun c hc => ?_) hb
    rw [(thread_rest hframes hc).1]
    rfl

/-- In a session of fewer than 2^64 frames every frame offered is newer than all before it. -/
theorem frames_in_order (r : Run) (t : ℕ) (hframes : r.completed t < 2 ^ 64) :
    (r.thread t).handed.Pairwise (· < ·) := by
  induction t with
  | zero => exact List.Pairwise.nil
  | succ t ih =>
    have hbefore : r.completed t < 2 ^ 64 := (completed_mono (Nat.le_succ t)).trans_lt hframes
    rcases busy_or_rest (r.state (t + 1)).thread with hb | ⟨c, hc⟩
    · -- inside one point's program the variables are those of the point
      rw [thread_busy hbefore hb]
      exact ih hbefore
    · obtain ⟨hrest, hloop⟩ := thread_rest hframes hc
      rw [Run.thread, hrest]
      exact hloop.sorted

/-- The thread finds the count equal to `last_count` and goes to sleep. -/
structure GoesIdle (r : Run) (t : ℕ) : Prop where
  forwards : ∃ answer, r.event t = .forward answer
  polls : (r.thread t).point = .polling
  sleeps : (r.thread (t + 1)).point = .idle

theorem polling_single (cfg : Config) (v : VideoThread) (hp : v.point = .polling) :
    runVideo cfg v = .act (.shm (.load 8 (v.vid.hdr + 64))) fun count =>
      .ret { v with point := (if count = v.lastCount then .idle else .reading count) } := by
  simp only [runVideo, hp]
  rfl

theorem polling_load (r : Run) (t : ℕ) : (r.state t).thread.Busy →
    (r.thread t).point = .polling → (r.state t).thread.prog = runVideo r.cfg (r.thread t) := by
  induction t with
  | zero => exact fun hb _ => absurd hb (not_busy rfl)
  | succ t ih =>
    have hstate : r.state (t + 1) = next r.buf r.cfg (r.event t) (r.state t) := rfl
    cases he : r.event t with
    | push src =>
      rw [Run.thread, hstate, he]
      exact ih
    | produce =>
      rw [Run.thread, hstate, he]
      exact ih
    | forward answer =>
      rw [Run.thread, hstate, he]
      have hsingle : ∀ v : VideoThread, v.point = .polling →
          ∃ (op : HostOp) (f : op.Reply → VideoThread),
            runVideo r.cfg v = .act op fun reply => .ret (f reply) :=
        fun v hp => ⟨_, _, polling_single r.cfg v hp⟩
      intro hb hp
      exact advance_single (Q := fun v => v.point = .polling) hsingle ih hb hp

/-- The count that sends the thread to sleep is the number of frames, and `last_count`. -/
theorem idle_count (hframes : r.completed (t + 1) < 2 ^ 64) (h : GoesIdle r t) :
    (r.state (t + 1)).thread.prog = .ret { r.thread t with point := .idle } ∧
      (r.thread t).lastCount = r.completed t := by
  obtain ⟨answer, he⟩ := h.forwards
  have hbefore : r.completed t < 2 ^ 64 := (completed_mono (Nat.le_succ t)).trans_lt hframes
  have hstate : r.state (t + 1) = next r.buf r.cfg (.forward answer) (r.state t) :=
    congrArg (next _ _ · _) he
  have hthread : (r.state (t + 1)).thread = ((r.state t).thread.advance hostAccess
      (runVideo r.cfg) { (r.state t).world with answer := answer }).1 := by
    rw [hstate]
    rfl
  have hslept := h.sleeps
  by_cases hafter : (r.state (t + 1)).thread.Busy
  · -- a program in progress does not change the point
    rw [thread_busy hbefore hafter, h.polls] at hslept
    cases hslept
  rcases busy_or_rest (r.state t).thread with hb | ⟨c, hc⟩
  · have hprog := polling_load r t hb h.polls
    rw [polling_single _ _ h.polls] at hprog
    rw [advance_busy hb, access_act hprog] at hthread
    have hpoint : (if loadWord (r.state t).world.mem 8 ((r.thread t).vid.hdr + 64) =
        (r.thread t).lastCount then Point.idle
      else .reading (loadWord (r.state t).world.mem 8 ((r.thread t).vid.hdr + 64))) = .idle := by
      rw [Run.thread, hthread] at hslept
      exact hslept
    have hsame : loadWord (r.state t).world.mem 8 ((r.thread t).vid.hdr + 64) =
        (r.thread t).lastCount := by
      by_contra hne
      rw [if_neg hne] at hpoint
      cases hpoint
    have hend : (r.state (t + 1)).thread.prog = .ret { r.thread t with point := .idle } := by
      rw [hthread, settle_prog]
      exact congrArg (fun p => Prog.ret { r.thread t with point := p }) hpoint
    refine ⟨hend, ?_⟩
    have hdr : ({ r.thread t with point := .idle } : VideoThread).vid.hdr = r.buf.hdr :=
      hdr_of_loop (thread_rest hframes hend).2
    change (r.thread t).vid.hdr = r.buf.hdr at hdr
    rw [← hsame, hdr, Run.completed, ← (invariant_run r t).completed]
    exact (counted_run hbefore).count
  · have hrest := (thread_rest hbefore hc).1
    have hctl : r.thread t = c := by
      rw [Run.thread, hrest]
      rfl
    rw [advance_rest hc, invoke_rest hc, ← hctl, polling_single _ _ h.polls] at hthread
    rw [hthread] at hafter
    exact absurd ⟨_, _, rfl⟩ hafter

/-- Whenever the thread goes idle, the newest frame has been handed, if it was completed since
the FIFO was opened: in every run that never loads the count behind an overtaken read. -/
theorem newest_handed (r : Run) {j t : ℕ} (hframes : r.completed j < 2 ^ 64)
    (hprompt : ∀ u < j, PromptStep r u) (ht : t < j) (h : GoesIdle r t) :
    (r.thread t).lastCount = r.completed t ∧
      ((r.state (t + 1)).world.openedAt < r.completed t →
        r.completed t - 1 ∈ (r.thread (t + 1)).handed) := by
  have hafter : r.completed (t + 1) < 2 ^ 64 := (completed_mono ht).trans_lt hframes
  obtain ⟨hend, hcount⟩ := idle_count hafter h
  have hholds : Holds hostAccess (loopTerms r.buf True) (r.state (t + 1)).thread
      (r.state (t + 1)).world := thread_holds hframes (fun _ => hprompt) ht
  obtain ⟨hrest, hloop⟩ := holds_between hholds (not_busy hend)
  have hctl : r.thread (t + 1) = { r.thread t with point := .idle } := by
    rw [hrest] at hend
    exact Prog.ret.inj hend
  have hcaught : Caught (r.thread (t + 1)) (r.state (t + 1)).world := by
    have hpoint := hloop.point
    change AtPoint r.buf True (r.thread (t + 1)) _ at hpoint
    rw [hctl] at hpoint ⊢
    exact hpoint.2 trivial
  rw [Caught, hctl] at hcaught
  refine ⟨hcount, fun hopened => ?_⟩
  rw [hctl, ← hcount]
  exact hcaught (hcount.symm ▸ hopened)

end Runs

section Overtaken

def taking : Answer := ⟨true, true, 0, none, .ok 1⟩

/-- Three slots of one byte; the thread comes to its first poll. -/
def opening : List Event := List.replicate 15 (.forward taking)

def pushing : List Event := .push [7] :: List.replicate 3 .produce

def polled : List Event := List.replicate 6 (.forward taking)

def handing : List Event := List.replicate 6 (.forward taking)

def unset : ShmVideoBuffer := ⟨0, 320, 0, 0, 0⟩

def runOf (events : List Event) : Run where
  handle := unset
  vf := ⟨1, 1, 1, 0, 1⟩
  before := fun _ => 0
  buf := ⟨0, 320, 1, 64, 3⟩
  slots := 3
  start := ((unset.setGeometry ⟨1, 1, 1, 0, 1⟩).run access fun _ => 0).2
  published := rfl
  attached := unset
  sameRegion := rfl
  cfg := ⟨0, 0⟩
  answer := taking
  event t := events.getD t (.forward taking)

def promptRun : Run := runOf (opening ++ pushing ++ polled ++ handing ++ pushing)

/-- The second frame falls between the read of the first one and the count behind it. -/
def overtakenRun : Run := runOf (opening ++ pushing ++ polled ++ pushing)

example : (promptRun.thread 49).handed = [0, 1] := by decide +kernel

theorem frames_in_order_prompt : (promptRun.thread 49).handed.Pairwise (· < ·) :=
  frames_in_order promptRun 49 (by decide +kernel)

/-- The frames are two, the thread sleeps, and it has handed the first one only. -/
theorem newest_lost_overtaken : GoesIdle overtakenRun 36 ∧
    (overtakenRun.state 37).world.openedAt < overtakenRun.completed 36 ∧
      overtakenRun.completed 36 - 1 ∉ (overtakenRun.thread 37).handed :=
  ⟨⟨⟨taking, rfl⟩, by decide +kernel, by decide +kernel⟩, by decide +kernel, by decide +kernel⟩

def promptAt (r : Run) (t : ℕ) : Bool :=
  match (r.thread t).point with
  | .counting newest => r.completed t == newest + 1
  | _ => true

theorem promptStep_of_check {r : Run} {t : ℕ} (h : promptAt r t = true) : PromptStep r t := by
  intro answer newest _ hpoint
  rw [promptAt, hpoint] at h
  exact beq_iff_eq.mp h

theorem newest_handed_prompt :
    (promptRun.thread 48).lastCount = promptRun.completed 48 ∧
      ((promptRun.state (48 + 1)).world.openedAt < promptRun.completed 48 →
        promptRun.completed 48 - 1 ∈ (promptRun.thread (48 + 1)).handed) := by
  have hframes : promptRun.completed 49 < 2 ^ 64 := by decide +kernel
  have hchecked : ∀ u < 49, promptAt promptRun u = true := by decide +kernel
  have hidle : GoesIdle promptRun 48 :=
    ⟨⟨taking, rfl⟩, by decide +kernel, by decide +kernel⟩
  exact newest_handed promptRun hframes (fun u hu => promptStep_of_check (hchecked u hu))
    (by decide) hidle

end Overtaken

section Wrapped

/-- The thread has handed frame 2; then come 2^64 - 2 frames, which take the count to 1. -/
def wrappedEvents : List Event := opening ++ pushing ++ pushing ++ pushing ++ polled ++ handing

def wrapped : ℕ := 2 ^ 64 - 2

def wrappedRun : Run :=
  { runOf [] with
    event := fun t =>
      if t < 39 then wrappedEvents.getD t (.forward taking)
      else if t < 39 + 4 * wrapped then (if (t - 39) % 4 = 0 then .push [7] else .produce)
      else .forward taking }

theorem push_alone {m : Memory} {answer : Answer} {completed openedAt : ℕ}
    {pushed : List (List UInt8)} {thread : Party HostOp HostOp.Reply VideoThread}
    (hslots : ∀ i < 3, m (128 + i * 64 + 0) = 7) :
    (next wrappedRun.buf wrappedRun.cfg .produce)^[3] (next wrappedRun.buf wrappedRun.cfg
        (.push [7]) ⟨⟨m, answer, completed, openedAt⟩, .rest pushed, thread⟩) =
      ⟨⟨shmVideoHeader.put 0 .frameSeq (wrappingAdd (shmVideoHeader.get 0 .frameSeq m) 1) m, answer,
        (pushed ++ [[7]]).length, openedAt⟩, .rest (pushed ++ [[7]]), thread⟩ := by
  have hstored : storeWord m 1 (128 + loadWord m 8 64 % 3 * 64 + 0) 7 = m := by
    funext a
    by_cases ha : a = 128 + loadWord m 8 64 % 3 * 64 + 0
    · rw [ha, hslots _ (Nat.mod_lt _ (by decide))]
      exact storeWord_one m _ 7
    · exact storeWord_outside (by omega)
  have hrun : (next wrappedRun.buf wrappedRun.cfg .produce)^[3] (next wrappedRun.buf wrappedRun.cfg
        (.push [7]) ⟨⟨m, answer, completed, openedAt⟩, .rest pushed, thread⟩) =
      ⟨⟨storeWord (storeWord m 1 (128 + loadWord m 8 64 % 3 * 64 + 0) 7) 8 64
        (wrappingAdd (loadWord m 8 64) 1), answer, (pushed ++ [[7]]).length, openedAt⟩,
        .rest (pushed ++ [[7]]), thread⟩ := rfl
  rw [hrun, hstored]
  rfl

theorem state_iterate {r : Run} {t : ℕ} {e : Event} (n : ℕ) (he : ∀ i < n, r.event (t + i) = e) :
    r.state (t + n) = (next r.buf r.cfg e)^[n] (r.state t) := by
  induction n with
  | zero => rfl
  | succ n ih =>
    have hbefore := ih fun i hi => he i (by omega)
    rw [Function.iterate_succ_apply', ← hbefore, ← he n (Nat.lt_succ_self n)]
    rfl

/-- The thread's steps do not look at the producer. -/
theorem forwards_alone (buf : ShmVideoBuffer) (cfg : Config) (answer : Answer) (n : ℕ) (s : State)
    (p : Party Access Access.Reply (List (List UInt8))) :
    (next buf cfg (.forward answer))^[n] { s with producer := p } =
      { (next buf cfg (.forward answer))^[n] s with producer := p } := by
  have hcommute : Function.Commute (next buf cfg (.forward answer))
      fun s : State => { s with producer := p } := fun _ => rfl
  exact hcommute.iterate_left n s

theorem wrappedRun_push {n : ℕ} (hn : n < wrapped) :
    wrappedRun.state (39 + 4 * (n + 1)) = (next wrappedRun.buf wrappedRun.cfg .produce)^[3]
      (next wrappedRun.buf wrappedRun.cfg (.push [7]) (wrappedRun.state (39 + 4 * n))) := by
  have hpush : wrappedRun.event (39 + 4 * n) = .push [7] := by
    change (if _ then _ else if _ then (if _ then _ else _) else _) = _
    rw [if_neg (by omega), if_pos (by omega), if_pos (by omega)]
  have hproduce : ∀ i < 3, wrappedRun.event (39 + 4 * n + 1 + i) = .produce := by
    intro i hi
    change (if _ then _ else if _ then (if _ then _ else _) else _) = _
    rw [if_neg (by omega), if_pos (by omega), if_neg (by omega)]
  have hsteps := state_iterate 3 hproduce
  rw [← hpush]
  exact hsteps

theorem wrappedRun_pushed {s : State} (hs : wrappedRun.state 39 = s)
    (hrest : s.producer = .rest [[7], [7], [7]])
    (hcount : shmVideoHeader.get 0 .frameSeq s.world.mem = 3)
    (hslots : ∀ i < 3, s.world.mem (128 + i * 64 + 0) = 7) {n : ℕ} (hn : n < wrapped) :
    ∃ pushed : List (List UInt8), pushed.length = n + 4 ∧ wrappedRun.state (39 + 4 * (n + 1)) =
      { s with
        world := { s.world with
          mem := shmVideoHeader.put 0 .frameSeq ((n + 4) % 2 ^ 64) s.world.mem,
          completed := n + 4 },
        producer := .rest pushed } := by
  have hwidth : 256 ^ shmVideoHeader.width .frameSeq = 2 ^ 64 := by decide
  obtain ⟨⟨m, answer, completed, openedAt⟩, producer, thread⟩ := s
  dsimp only at hrest hcount hslots ⊢
  induction n with
  | zero =>
    have hpushed := @push_alone m answer completed openedAt [[7], [7], [7]] thread hslots
    rw [hcount] at hpushed
    refine ⟨[[7], [7], [7]] ++ [[7]], rfl, ?_⟩
    rw [wrappedRun_push hn, Nat.mul_zero, Nat.add_zero, hs, hrest, hpushed]
    rfl
  | succ n ih =>
    obtain ⟨pushed, hlength, hstate⟩ := ih (by omega)
    have hkept : ∀ i < 3, shmVideoHeader.put 0 .frameSeq ((n + 4) % 2 ^ 64) m (128 + i * 64 + 0)
        = 7 := by
      intro i hi
      have hsize : shmVideoHeader.size = 128 := rfl
      rw [shmVideoHeader.put_outside _ _ _ _ (by omega)]
      exact hslots i hi
    have hmore : (pushed ++ [[7]]).length = n + 1 + 4 := by
      rw [List.length_append, hlength]
      rfl
    have hnext : wrappingAdd ((n + 4) % 2 ^ 64 % 2 ^ 64) 1 = (n + 1 + 4) % 2 ^ 64 := by
      simp only [wrappingAdd]
      omega
    refine ⟨pushed ++ [[7]], hmore, ?_⟩
    rw [wrappedRun_push hn, hstate, push_alone hkept, shmVideoHeader.put_put,
      shmVideoHeader.get_put, hwidth, hnext, hmore]

def wrappedState : State :=
  { wrappedRun.state 39 with
    world := { (wrappedRun.state 39).world with
      mem := shmVideoHeader.put 0 .frameSeq ((wrapped - 1 + 4) % 2 ^ 64)
        (wrappedRun.state 39).world.mem,
      completed := wrapped - 1 + 4 } }

/-- Behind them the thread reads frame 0. -/
theorem wrappedRun_handed {T : ℕ} (hT : T = 39 + 4 * wrapped) :
    (wrappedRun.thread (T + 8)).handed = ((next wrappedRun.buf wrappedRun.cfg (.forward taking))^[8]
      wrappedState).thread.ctl.handed := by
  have hrest : (wrappedRun.state 39).producer = .rest [[7], [7], [7]] := rfl
  have hcount : shmVideoHeader.get 0 .frameSeq (wrappedRun.state 39).world.mem = 3 := by
    decide +kernel
  have hslots : ∀ i < 3, (wrappedRun.state 39).world.mem (128 + i * 64 + 0) = 7 := by
    decide +kernel
  have hforward : ∀ i < 8, wrappedRun.event (T + i) = .forward taking := by
    intro i _
    change (if _ then _ else if _ then (if _ then _ else _) else _) = _
    rw [if_neg (by omega), if_neg (by omega)]
  have hlast : wrapped - 1 < wrapped := by decide
  have hend : T = 39 + 4 * (wrapped - 1 + 1) := by omega
  obtain ⟨pushed, _, hpushed⟩ := wrappedRun_pushed rfl hrest hcount hslots hlast
  have hstate : wrappedRun.state (39 + 4 * (wrapped - 1 + 1)) =
      { wrappedState with producer := .rest pushed } := hpushed
  rw [Run.thread, state_iterate 8 hforward, hend, hstate, forwards_alone]

theorem order_lost_wrapped :
    ¬ (wrappedRun.thread (39 + 4 * wrapped + 8)).handed.Pairwise (· < ·) := by
  have hhanded : ((next wrappedRun.buf wrappedRun.cfg (.forward taking))^[8]
      wrappedState).thread.ctl.handed = [2, 0] := by decide +kernel
  rw [wrappedRun_handed rfl, hhanded]
  decide

end Wrapped

end FrameOrder
