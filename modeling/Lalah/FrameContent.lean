import Lalah.FrameOrder

/-! What the frames hold that the video thread offers. The bytes that a read has copied so far
are those of the newest frame at its first load, unless the writer may have come to its slot
again, and that the second load tells. -/
namespace FrameContent

open InteractionProgram RelyGuarantee ByteMemory StreamWindow ShmContract ShmVideoContract
  WordCopy VideoRing VideoForwarder FrameOrder

section Copies

variable (buf : ShmVideoBuffer) (all : List (List UInt8))

/-- Frame `k` of the producer, as the consumer is to see it. -/
def shown (k : ℕ) : List UInt8 := padded buf (all.getD k [])

/-- The ring holds the frames completed so far, of all that the producer ever completes. -/
structure Filled (w : World) : Prop where
  within : w.completed ≤ all.length
  live : Live buf (all.take w.completed) w.mem

/-- These bytes are of frame `k` from byte `off` on, while its slot is not up again. -/
def Clean (k off : ℕ) (bytes : List UInt8) (w : World) : Prop :=
  w.completed ≤ k + (buf.slotCount - 1) → bytes = ((shown buf all k).drop off).take bytes.length

def Content (v : VideoThread) (w : World) : Prop :=
  match v.point with
  | .geometry => True
  | .counting newest => newest < w.completed ∧ v.frame = shown buf all newest
  | .writing => ∃ newest, v.handed.getLast? = some newest ∧ newest < w.completed ∧
      v.frame = shown buf all newest
  | _ => v.frame.length = buf.frameSize

def contentTerms : Terms HostOp World VideoThread where
  rely w w' := (Filled buf all w → Filled buf all w') ∧ w.completed ≤ w'.completed
  allow := fun _ _ _ => True
  guar := fun _ _ => True
  during := fun _ _ _ => True
  between v w := Filled buf all w ∧ Content buf all v w
  follows := fun _ _ => True
  rely_refl := fun _ => ⟨id, Nat.le_refl _⟩
  rely_trans := fun _ _ _ h h' => ⟨h'.1 ∘ h.1, h.2.trans h'.2⟩
  between_stable := by
    intro v w w' h hr
    refine ⟨hr.1 h.1, ?_⟩
    have hmore := hr.2
    have hcontent := h.2
    unfold Content at hcontent ⊢
    split at hcontent
    · trivial
    · exact ⟨hcontent.1.trans_le hmore, hcontent.2⟩
    · obtain ⟨newest, hlast, hlt, hframe⟩ := hcontent
      exact ⟨newest, hlast, hlt.trans_le hmore, hframe⟩
    · exact hcontent

variable {buf all} {k off n : ℕ} {w w' : World} {bytes more : List UInt8}

theorem shown_length (k : ℕ) : (shown buf all k).length = buf.frameSize :=
  paddedTo_length _ _

theorem clean_later (h : Clean buf all k off bytes w) (hmore : w.completed ≤ w'.completed) :
    Clean buf all k off bytes w' := by
  intro hnear
  exact h (hmore.trans hnear)

theorem clean_append (h : Clean buf all k off bytes w)
    (h' : Clean buf all k (off + bytes.length) more w) : Clean buf all k off (bytes ++ more) w := by
  intro hnear
  rw [List.length_append, List.take_add, List.drop_drop, ← h hnear, ← h' hnear]

theorem slot_shown (hall : all.length < 2 ^ 64) (h : Filled buf all w) (hk : k < w.completed)
    (hnear : w.completed ≤ k + (buf.slotCount - 1)) :
    slot buf w.mem (k % buf.slotCount) = shown buf all k := by
  have hlength : (all.take w.completed).length = w.completed := by
    rw [List.length_take, Nat.min_eq_left h.within]
  have hwithin := h.within
  have hkall : k < all.length := hk.trans_le hwithin
  have hframes := h.live.frames (by omega)
  have hslot := hframes k (by rw [List.length_map]; omega) (by rw [List.length_map]; omega)
  rw [hslot, List.getElem_map, List.getElem_take, shown, List.getD_eq_getElem _ _ hkall]

theorem clean_loaded (hall : all.length < 2 ^ 64) (h : Filled buf all w) (hk : k < w.completed)
    (hin : off + n ≤ buf.frameSize) : Clean buf all k off ((List.range n).map fun i =>
      w.mem (buf.payload + k % buf.slotCount * buf.slotStride + off + i)) w := by
  intro hnear
  have hslot := slot_shown hall h hk hnear
  rw [← hslot]
  apply List.ext_getElem
  · simp [slot]
    omega
  · intro x hx hx'
    simp [slot, Nat.add_assoc]

variable (buf all) in
structure Has (k low : ℕ) (w : World) : Prop where
  filled : Filled buf all w
  there : k < w.completed
  grown : low ≤ w.completed

variable (buf all) in
def Copied (k low off n : ℕ) (bytes : List UInt8) (_ : List HostOp) (w : World) : Prop :=
  bytes.length = n ∧ Clean buf all k off bytes w ∧ Has buf all k low w

variable (buf) in
def slotAt (k : ℕ) : ℕ := buf.payload + k % buf.slotCount * buf.slotStride

variable {c : VideoThread} {made : List HostOp} {low : ℕ}

theorem has_later (h : Has buf all k low w) (hr : (contentTerms buf all).rely w w') :
    Has buf all k low w' :=
  ⟨hr.1 h.filled, h.there.trans_le hr.2, h.grown.trans hr.2⟩

theorem safe_piece (hall : all.length < 2 ^ 64) (m : ℕ) (decode : ℕ → List UInt8)
    (rest : MemProg (List UInt8))
    (hdecode : ∀ mem a, decode (loadWord mem m a) = (List.range m).map fun i => mem (a + i))
    (hrest : ∀ low made w, Has buf all k low w → Safe hostAccess (contentTerms buf all) c
      (Copied buf all k low (off + m) n) (shm rest) made w)
    (hin : off + m ≤ buf.frameSize) (h : Has buf all k low w) :
    Safe hostAccess (contentTerms buf all) c (Copied buf all k low off (m + n))
      (shm (ByteMemory.load m (slotAt buf k + off) >>= fun r =>
        rest >>= fun more => .ret (decode r ++ more))) made w := by
  intro w' hr
  have h' := has_later h hr
  refine ⟨trivial, fun _ => ⟨trivial, ?_⟩⟩
  change Safe _ _ _ _ (shm (rest >>= fun more =>
    .ret (decode (loadWord w'.mem m (slotAt buf k + off)) ++ more))) _ w'
  rw [hdecode, shm, lift_bind]
  apply safe_bind
  apply safe_mono _ (hrest w'.completed _ w' ⟨h'.filled, h'.there, Nat.le_refl _⟩)
  rintro more made' w'' ⟨hlength, hclean, hhas⟩
  have hfirst : Clean buf all k off ((List.range m).map fun i =>
      w'.mem (slotAt buf k + off + i)) w' := clean_loaded hall h'.filled h'.there hin
  refine ⟨by simp [hlength], clean_append (clean_later hfirst hhas.grown) ?_, hhas.filled,
    hhas.there, h'.grown.trans hhas.grown⟩
  rw [List.length_map, List.length_range]
  exact hclean

theorem safe_words (hall : all.length < 2 ^ 64) (hin : off + n * 8 ≤ buf.frameSize)
    (h : Has buf all k low w) : Safe hostAccess (contentTerms buf all) c
      (Copied buf all k low off (n * 8)) (shm (readWords (slotAt buf k + off) n)) made w := by
  induction n generalizing off low made w with
  | zero => exact ⟨rfl, fun _ => by simp, h⟩
  | succ n ih =>
    rw [Nat.succ_mul, Nat.add_comm (n * 8) 8]
    apply safe_piece hall 8 (bytesOf 8) (readWords (slotAt buf k + (off + 8)) n) _ _ (by omega) h
    · intro mem a
      exact bytesOf_loadWord mem 8 a
    · intro low made w hw
      exact ih (by omega) hw

theorem safe_bytes (hall : all.length < 2 ^ 64) (hin : off + n ≤ buf.frameSize)
    (h : Has buf all k low w) : Safe hostAccess (contentTerms buf all) c
      (Copied buf all k low off n) (shm (volatileCopyFrom (slotAt buf k + off) n)) made w := by
  induction n generalizing off low made w with
  | zero => exact ⟨rfl, fun _ => by simp, h⟩
  | succ n ih =>
    have hcopied : Copied buf all k low off (n + 1) = Copied buf all k low off (1 + n) := by
      rw [Nat.add_comm]
    rw [hcopied]
    apply safe_piece hall 1 (fun b => [.ofNat b])
      (volatileCopyFrom (slotAt buf k + (off + 1)) n) _ _ (by omega) h
    · intro mem a
      simp [loadWord_one]
    · intro low made w hw
      exact ih (by omega) hw

/-- The whole copy of a frame, words and then bytes. -/
theorem safe_copy (hall : all.length < 2 ^ 64) (hn : n ≤ buf.frameSize)
    (h : Has buf all k low w) : Safe hostAccess (contentTerms buf all) c
      (Copied buf all k low 0 n) (shm (volatileCopyFromWords (slotAt buf k) n)) made w := by
  rw [shm, volatileCopyFromWords, lift_bind]
  apply safe_bind
  have hfirst : Safe hostAccess (contentTerms buf all) c (Copied buf all k low 0 (n / 8 * 8))
      (shm (readWords (slotAt buf k) (n / 8))) made w := safe_words hall (by omega) h
  apply safe_mono _ hfirst
  rintro bytes made₁ w₁ ⟨hwords, hclean, hhas⟩
  rw [lift_bind]
  apply safe_bind
  have hrest : Safe hostAccess (contentTerms buf all) c
      (Copied buf all k w₁.completed (n / 8 * 8) (n - n / 8 * 8))
      (shm (volatileCopyFrom (slotAt buf k + n / 8 * 8) (n - n / 8 * 8))) made₁ w₁ :=
    safe_bytes hall (by omega) ⟨hhas.filled, hhas.there, Nat.le_refl _⟩
  apply safe_mono _ hrest
  rintro more made₂ w₂ ⟨htail, hmore, hhas'⟩
  refine ⟨?_, clean_append (clean_later hclean hhas'.grown) ?_, hhas'.filled, hhas'.there,
    hhas.grown.trans hhas'.grown⟩
  · rw [List.length_append]
    omega
  · rw [hwords, Nat.zero_add]
    exact hmore

end Copies

section Points

variable {buf : ShmVideoBuffer} {all : List (List UInt8)} {cfg : Config} {v : VideoThread}
  {w : World}

variable (buf all cfg v) in
abbrev Fills (w : World) : Prop :=
  Safe hostAccess (contentTerms buf all) v (Ends (contentTerms buf all) v) (runVideo cfg v) [] w

def Plain : Point → Prop
  | .geometry | .counting _ | .writing => False
  | _ => True

theorem content_plain (hp : Plain v.point) (hframe : v.frame.length = buf.frameSize) :
    Content buf all v w := by
  unfold Content
  split
  · trivial
  next hpoint => exact absurd hp (by rw [hpoint]; exact id)
  next hpoint => exact absurd hp (by rw [hpoint]; exact id)
  · exact hframe

theorem content_length (h : Content buf all v w) (hp : v.point ≠ .geometry) :
    v.frame.length = buf.frameSize := by
  unfold Content at h
  split at h
  next hpoint => exact absurd hpoint hp
  · rw [h.2, shown_length]
  · obtain ⟨newest, _, _, hframe⟩ := h
    rw [hframe, shown_length]
  · exact h

theorem filled_keeps {op : HostOp} (hop : Keeps op) (h : Filled buf all w) :
    Filled buf all (hostAccess op w).2 := by
  obtain ⟨hmem, hcompleted⟩ := hop w
  constructor
  · rw [hcompleted]
    exact h.within
  · rw [hmem, hcompleted]
    exact h.live

theorem safe_keeps {c : VideoThread} {made : List HostOp} {α : Type} {p : HostProg α}
    {F : α → Prop} (hp : p.Ensures (fun _ _ => True) Keeps F) (h : Filled buf all w) :
    Safe hostAccess (contentTerms buf all) c (fun a _ w => F a ∧ Filled buf all w) p made w := by
  refine safe_ensures (I := fun _ => Filled buf all) (fun _ _ => trivial) ?_ hp h
  intro made w w' hw hr
  refine ⟨trivial, fun op hop => ⟨trivial, ?_⟩⟩
  exact filled_keeps hop (hr.1 hw)

theorem ensures_after {α β : Type} {p : HostProg α} {f : α → HostProg β} {F : β → Prop}
    (hp : p.Every (fun _ _ => True) Keeps)
    (hf : ∀ a, (f a).Ensures (fun _ _ => True) Keeps F) :
    (p >>= f).Ensures (fun _ _ => True) Keeps F :=
  ensures_bind (every_iff_ensures.mp hp) fun a _ => hf a

theorem ensures_plain (hp : Plain v.point ∨ v.point = .writing)
    (hread : ∀ count, v.point ≠ .reading count) :
    (runVideo cfg v).Ensures (fun _ _ => True) Keeps fun v' =>
      Plain v'.point ∧ v'.frame = v.frame ∧ v'.handed = v.handed := by
  cases hpoint : v.point with
  | geometry => simp [hpoint, Plain] at hp
  | counting newest => simp [hpoint, Plain] at hp
  | reading count => exact absurd hpoint (hread count)
  | fifo =>
    simp only [runVideo, hpoint]
    apply ensures_after (@keeps_call .mkfifo trivial (by simp))
    intro made
    cases made <;> exact ⟨trivial, rfl, rfl⟩
  | disabled =>
    simp only [runVideo, hpoint]
    exact ⟨by rw [hpoint]; trivial, rfl, rfl⟩
  | starting =>
    simp only [runVideo, hpoint]
    exact ensures_after (keeps_count v.vid) fun _ => ⟨trivial, rfl, rfl⟩
  | top =>
    simp only [runVideo, hpoint]
    split
    · exact ⟨trivial, rfl, rfl⟩
    · refine ⟨fun w => ⟨rfl, rfl⟩, fun opened _ => ?_⟩
      cases opened <;> exact ⟨trivial, rfl, rfl⟩
  | sizing =>
    simp only [runVideo, hpoint]
    exact ensures_after (keeps_quiet (quiet_setPipeSize _)) fun _ => ⟨trivial, rfl, rfl⟩
  | absent =>
    simp only [runVideo, hpoint]
    apply ensures_after (keeps_count v.vid)
    intro count
    apply ensures_after (@keeps_call (.sleep 100000) trivial (by simp))
    intro _
    exact ⟨trivial, rfl, rfl⟩
  | polling =>
    simp only [runVideo, hpoint]
    apply ensures_after (keeps_count v.vid)
    intro count
    by_cases hsame : count = v.lastCount
    · simp only [hsame, if_true]
      exact ⟨trivial, rfl, rfl⟩
    · simp only [hsame, if_false]
      exact ⟨trivial, rfl, rfl⟩
  | idle =>
    simp only [runVideo, hpoint]
    apply ensures_after (@keeps_call (.sleep 500) trivial (by simp))
    intro _
    exact ⟨trivial, rfl, rfl⟩
  | writing =>
    simp only [runVideo, hpoint]
    apply ensures_after (keeps_quiet (quiet_writeFrame v.frame))
    intro outcome
    cases outcome with
    | wrote => exact ⟨trivial, rfl, rfl⟩
    | dropped => exact ⟨trivial, rfl, rfl⟩
    | readerGone =>
      apply ensures_after (@keeps_call .close trivial (by simp))
      intro _
      exact ⟨trivial, rfl, rfl⟩

theorem fills_plain (h : Filled buf all w) (hcontent : Content buf all v w)
    (hp : Plain v.point ∨ v.point = .writing) (hread : ∀ count, v.point ≠ .reading count) :
    Fills buf all cfg v w := by
  have hgeometry : v.point ≠ .geometry := by
    intro hpoint
    simp [hpoint, Plain] at hp
  apply safe_mono _ (safe_keeps (ensures_plain hp hread) h)
  rintro v' made w' ⟨⟨hplain, hframe, -⟩, hfilled⟩
  have hlength : v'.frame.length = buf.frameSize := by
    rw [hframe]
    exact content_length hcontent hgeometry
  exact ⟨⟨hfilled, content_plain hplain hlength⟩, trivial⟩

def afterGate (h : ShmVideoBuffer) (fs : ℕ) : MemProg (ShmVideoBuffer × Option VideoFormat) := do
  if fs = 0 then return (h, none)
  let slotCount ← h.load .slotCount
  let width ← h.load .width
  let height ← h.load .height
  let stride ← h.load .stride
  let fourcc ← h.load .fourcc
  return ({ h with frameSize := fs, slotStride := alignUp64 fs, slotCount := slotCount },
    some ⟨.ofNat width, .ofNat height, .ofNat stride, .ofNat fourcc, .ofNat fs⟩)

theorem ensures_afterGate (h : ShmVideoBuffer) {fs : ℕ} (hfs : fs < 2 ^ 32) :
    (shm (afterGate h fs)).Ensures (fun _ _ => True) Keeps fun r =>
      ∀ vf, r.2 = some vf → vf.frameSize.toNat = fs := by
  have hload : ∀ f : VideoField, Keeps (.shm (.load (shmVideoHeader.width f)
      (h.hdr + shmVideoHeader.offset f))) := fun f w => ⟨rfl, rfl⟩
  unfold afterGate
  split
  · intro vf hvf
    cases hvf
  · refine ⟨hload _, fun _ _ => ⟨hload _, fun _ _ => ⟨hload _, fun _ _ => ?_⟩⟩⟩
    refine ⟨hload _, fun _ _ => ⟨hload _, fun _ _ => ?_⟩⟩
    intro vf hvf
    obtain rfl := Option.some.inj hvf
    exact Nat.mod_eq_of_lt hfs

theorem frameSize_lt (h : Filled buf all w) : buf.frameSize < 2 ^ 32 := by
  have hword := shmVideoHeader.get_lt buf.hdr .frameSize w.mem
  have hwidth : 256 ^ shmVideoHeader.width .frameSize = 2 ^ 32 := by decide
  rw [← h.live.shows.frameSize, ← hwidth]
  exact hword

theorem fills_geometry (h : Filled buf all w) (hhdr : v.vid.hdr = buf.hdr)
    (hp : v.point = .geometry) : Fills buf all cfg v w := by
  simp only [Fills, runVideo, hp]
  intro w' hr
  have h' := hr.1 h
  refine ⟨trivial, fun _ => ⟨trivial, ?_⟩⟩
  have hload : word v.vid .frameSize w'.mem = buf.frameSize := by
    rw [word, hhdr]
    exact h'.live.shows.frameSize
  change Safe _ _ _ _ (shm (afterGate v.vid (word v.vid .frameSize w'.mem)) >>= _) _ w'
  rw [hload]
  apply safe_bind
  apply safe_mono _ (safe_keeps (ensures_afterGate v.vid (frameSize_lt h')) h')
  rintro ⟨vid, vf⟩ made w'' ⟨hsize, hfilled⟩
  cases vf with
  | some vf =>
    refine ⟨⟨hfilled, ?_⟩, trivial⟩
    exact (List.length_replicate).trans (hsize vf rfl)
  | none =>
    intro w₃ hr₃
    refine ⟨trivial, fun _ => ⟨trivial, ⟨hr₃.1 hfilled, ?_⟩, trivial⟩⟩
    simp [Content, hp]

theorem count_filled (hall : all.length < 2 ^ 64) (h : Filled buf all w) (hhdr : v.vid.hdr = buf.hdr) :
    word v.vid .frameSeq w.mem = w.completed := by
  have hwithin := h.within
  have hlength : (all.take w.completed).length = w.completed := by
    rw [List.length_take, Nat.min_eq_left hwithin]
  have hcount := h.live.count
  rw [hlength, Nat.mod_eq_of_lt (by omega)] at hcount
  rw [word, hhdr]
  exact hcount

/-- The check behind the copy passes only while the copied slot was left alone. -/
theorem clean_whole {k : ℕ} {live : List UInt8} (hlength : live.length = buf.frameSize)
    (h : Clean buf all k 0 live w) (hnear : w.completed ≤ k + (buf.slotCount - 1)) :
    live = shown buf all k := by
  have hlive := h hnear
  rw [hlength, List.drop_zero, ← @shown_length buf all k, List.take_length] at hlive
  exact hlive

theorem safe_word {h : ShmVideoBuffer} {f : VideoField} {c : VideoThread} {made : List HostOp}
    {α β : Type} {Q : α → List HostOp → World → Prop} {q : ℕ → MemProg β} {k : β → HostProg α}
    (hk : ∀ made w', (contentTerms buf all).rely w w' → Safe hostAccess (contentTerms buf all) c Q
      (shm (q (word h f w'.mem)) >>= k) made w') :
    Safe hostAccess (contentTerms buf all) c Q (shm (h.load f >>= q) >>= k) made w :=
  fun w' hr => ⟨trivial, fun _ => ⟨trivial, hk _ w' hr⟩⟩

theorem fills_reading (geo : Geometry buf) (hall : all.length < 2 ^ 64) {count : ℕ}
    (h : Filled buf all w) (hcontent : Content buf all v w) (hsees : Sees buf v.vid)
    (hp : v.point = .reading count) : Fills buf all cfg v w := by
  have hlength : v.frame.length = buf.frameSize :=
    content_length hcontent (by rw [hp]; intro heq; cases heq)
  have hframe := geo.frame
  have hslots := geo.slots
  have hset : ¬ (v.vid.frameSize = 0 ∨ v.vid.slotCount = 0) := by
    rw [hsees.frameSize, hsees.slotCount]
    omega
  simp only [Fills, runVideo, hp]
  apply safe_bind
  apply safe_mono _ (safe_keeps (every_iff_ensures.mp (keeps_quiet (quiet_stagger cfg))) h)
  rintro _ made w₀ ⟨-, h₀⟩
  rw [readFrame_eq hset]
  apply safe_word
  intro _ w₁ hr₁
  have h₁ := hr₁.1 h₀
  rw [count_filled hall h₁ hsees.hdr]
  unfold afterCount
  by_cases hzero : w₁.completed = 0
  · rw [if_pos hzero]
    exact ⟨⟨h₁, hlength⟩, trivial⟩
  rw [if_neg hzero, shm_bind]
  have hmin : min v.vid.frameSize v.frame.length = buf.frameSize := by
    rw [hsees.frameSize, hlength, Nat.min_self]
  have hat : v.vid.payload + (w₁.completed - 1) % v.vid.slotCount * v.vid.slotStride =
      slotAt buf (w₁.completed - 1) := by
    rw [slotAt, ShmVideoBuffer.payload, ShmVideoBuffer.payload, hsees.hdr, hsees.slotCount,
      hsees.slotStride]
  rw [hmin, hat]
  have hhas : Has buf all (w₁.completed - 1) w₁.completed w₁ := ⟨h₁, by omega, Nat.le_refl _⟩
  apply safe_bind
  apply safe_mono _ (safe_copy hall (Nat.le_refl _) hhas)
  rintro live made₂ w₂ ⟨hfull, hclean, hhas₂⟩
  apply safe_word
  intro _ w₃ hr₃
  have hhas₃ := has_later hhas₂ hr₃
  have hclean₃ := clean_later hclean hr₃.2
  have hlt : w₃.completed < 2 ^ 64 := hhas₃.filled.within.trans_lt hall
  have hout : (live ++ v.frame.drop buf.frameSize) = live := by
    rw [List.drop_of_length_le hlength.le, List.append_nil]
  rw [count_filled hall hhas₃.filled hsees.hdr, wrappingSub_of_le hhas₃.grown hlt, hsees.slotCount,
    hout]
  have hthere := hhas₃.there
  split
  next hnear =>
    have hwhole := clean_whole hfull hclean₃ (by omega)
    exact ⟨⟨hhas₃.filled, hthere, hwhole⟩, trivial⟩
  next => exact ⟨⟨hhas₃.filled, hfull⟩, trivial⟩

theorem fills_counting {newest : ℕ} (h : Filled buf all w) (hcontent : Content buf all v w)
    (hp : v.point = .counting newest) : Fills buf all cfg v w := by
  simp only [Fills, runVideo, hp]
  intro w' hr
  have h' := hr.1 h
  unfold Content at hcontent
  rw [hp] at hcontent
  obtain ⟨hlt, hframe⟩ := hcontent
  refine ⟨trivial, fun _ => ⟨trivial, ⟨h', newest, ?_, hlt.trans_le hr.2, hframe⟩, trivial⟩⟩
  exact List.getLast?_concat

end Points

section Writes

/-- Bytes are written only where a frame is, and only that frame. -/
def Offers (v : VideoThread) (op : HostOp) : Prop :=
  ∀ bytes, op = .write bytes → v.point = .writing ∧ bytes = v.frame

variable {v : VideoThread}

theorem offers_shm {α : Type} (p : MemProg α) : (shm p).Every (fun _ _ => True) (Offers v) := by
  induction p with
  | ret a => trivial
  | act op k ih =>
    constructor
    · intro bytes h
      cases h
    · intro r _
      exact ih r

theorem offers_call {op : HostOp} (h : ∀ bytes, op ≠ .write bytes) :
    (call op).Every (fun _ _ => True) (Offers v) :=
  ⟨fun bytes hop => absurd hop (h bytes), fun _ _ => trivial⟩

theorem offers_writeFrame (hp : v.point = .writing) :
    (writeFrame v.frame).Every (fun _ _ => True) (Offers v) := by
  have hoffer : (offer v.frame).Every (fun _ _ => True) (Offers v) := by
    refine every_bind (p := call (.write v.frame)) ⟨?_, fun _ _ => trivial⟩ fun n => ?_
    · intro bytes hop
      cases hop
      exact ⟨hp, rfl⟩
    · rcases n with e | n
      · cases e <;> trivial
      · trivial
  apply every_bind (@offers_call v .getPipeSize (by simp))
  intro pipeSz
  split
  · apply every_bind (@offers_call v .fionread (by simp))
    intro queued
    cases queued with
    | none => exact hoffer
    | some queued =>
      dsimp only
      split
      · trivial
      · exact hoffer
  · exact hoffer

theorem offers_runVideo (cfg : Config) (v : VideoThread) :
    (runVideo cfg v).Every (fun _ _ => True) (Offers v) := by
  cases hpoint : v.point with
  | geometry =>
    simp only [runVideo, hpoint]
    apply every_bind (offers_shm _)
    rintro ⟨vid, vf⟩
    cases vf with
    | some vf => trivial
    | none => exact every_bind (offers_call (by simp)) fun _ => trivial
  | fifo =>
    simp only [runVideo, hpoint]
    exact every_bind (offers_call (by simp)) fun _ => trivial
  | disabled =>
    simp only [runVideo, hpoint]
    trivial
  | starting =>
    simp only [runVideo, hpoint]
    exact every_bind (offers_shm _) fun _ => trivial
  | top =>
    simp only [runVideo, hpoint]
    split
    · trivial
    · exact every_bind (offers_call (by simp)) fun _ => trivial
  | sizing =>
    simp only [runVideo, hpoint, setPipeSize, bind_assoc]
    apply every_bind (offers_call (by simp))
    intro size
    split
    · trivial
    · exact every_bind (offers_call (by simp)) fun _ => trivial
  | absent =>
    simp only [runVideo, hpoint]
    apply every_bind (offers_shm _)
    intro count
    exact every_bind (offers_call (by simp)) fun _ => trivial
  | polling =>
    simp only [runVideo, hpoint]
    exact every_bind (offers_shm _) fun _ => trivial
  | idle =>
    simp only [runVideo, hpoint]
    exact every_bind (offers_call (by simp)) fun _ => trivial
  | reading count =>
    have hstagger : (stagger cfg).Every (fun _ _ => True) (Offers v) := by
      unfold stagger
      split
      · exact offers_call (by simp)
      · trivial
    simp only [runVideo, hpoint]
    apply every_bind hstagger
    intro _
    apply every_bind (offers_shm _)
    rintro ⟨res, frame⟩
    cases res <;> trivial
  | counting newest =>
    simp only [runVideo, hpoint]
    exact every_bind (offers_shm _) fun _ => trivial
  | writing =>
    simp only [runVideo, hpoint]
    apply every_bind (offers_writeFrame hpoint)
    intro outcome
    cases outcome with
    | wrote => trivial
    | dropped => trivial
    | readerGone => exact every_bind (offers_call (by simp)) fun _ => trivial

end Writes

section Runs

variable {r : Run} {j t : ℕ}

def pushed (r : Run) (t : ℕ) : List (List UInt8) := (r.state t).producer.ctl

theorem pushed_mono {u : ℕ} (h : t ≤ u) : pushed r t <+: pushed r u :=
  prefix_of_steps (fun t => (invariant_next (geometry r) (invariant_run r t) (r.event t)).2) h

theorem filled_run (h : t ≤ j) : Filled r.buf (pushed r j) (r.state t).world := by
  have hinvariant := invariant_run r t
  have hmore : pushed r t <+: pushed r j := pushed_mono h
  have hcompleted : (r.state t).world.completed = (pushed r t).length := hinvariant.completed
  constructor
  · rw [hcompleted]
    exact hmore.length_le
  · rw [hcompleted, ← List.prefix_iff_eq_take.mp hmore]
    exact live_invariant hinvariant

variable (r j) in
def bothTerms : Terms HostOp World VideoThread :=
  (loopTerms r.buf False).both (contentTerms r.buf (pushed r j))

theorem goes_both (hframes : r.completed j < 2 ^ 64) {v : VideoThread} {w : World}
    (h : (bothTerms r j).between v w) : Safe hostAccess (bothTerms r j) v
      (Ends (bothTerms r j) v) (runVideo r.cfg v) [] w := by
  obtain ⟨hloop, hfilled, hcontent⟩ := h
  have hfills : Fills r.buf (pushed r j) r.cfg v w := by
    cases hp : v.point with
    | geometry => exact fills_geometry hfilled (hdr_of_loop hloop) hp
    | reading count =>
      have hsees : Sees r.buf v.vid := sees_of_loop hloop (by rw [hp]; intro heq; cases heq)
      exact fills_reading (geometry r) hframes hfilled hcontent hsees hp
    | counting newest => exact fills_counting hfilled hcontent hp
    | writing => exact fills_plain hfilled hcontent (Or.inr hp) (by simp [hp])
    | _ => exact fills_plain hfilled hcontent (Or.inl (by rw [hp]; trivial)) (by simp [hp])
  apply safe_mono _ (safe_both (goes (geometry r) hloop) hfills)
  rintro v' made w' ⟨⟨hnext, -⟩, hnext', -⟩
  exact ⟨⟨hnext, hnext'⟩, trivial, trivial⟩

theorem holds_both (hframes : r.completed j < 2 ^ 64) (h : t ≤ j) :
    Holds hostAccess (bothTerms r j) (r.state t).thread (r.state t).world := by
  induction t with
  | zero =>
    have hfew : r.completed 0 < 2 ^ 64 := (completed_mono h).trans_lt hframes
    have hloop := (thread_rest hfew rfl).2
    exact holds_rest ⟨hloop, filled_run h, trivial⟩
  | succ t ih =>
    have hholds := ih (by omega)
    have hnext : r.completed (t + 1) < 2 ^ 64 := (completed_mono h).trans_lt hframes
    have hstate : r.state (t + 1) = next r.buf r.cfg (r.event t) (r.state t) := rfl
    -- what the step is to the thread, if it is the producer's
    have hother : (r.state (t + 1)).thread = (r.state t).thread →
        (r.state (t + 1)).world.openedAt = (r.state t).world.openedAt →
        Holds hostAccess (bothTerms r j) (r.state (t + 1)).thread (r.state (t + 1)).world := by
      intro hthread hopened
      have hlater := later_producer hnext hopened
      rw [hthread]
      exact holds_env hholds ⟨hlater, fun _ => filled_run h, hlater.completed⟩
    cases he : r.event t with
    | push src => exact hother (by rw [hstate, he]; rfl) (by rw [hstate, he]; rfl)
    | produce => exact hother (by rw [hstate, he]; rfl) (by rw [hstate, he]; rfl)
    | forward answer =>
      have hanswer : (bothTerms r j).rely (r.state t).world
          { (r.state t).world with answer := answer } :=
        ⟨⟨fun hc => ⟨hc.shows, hc.count⟩, Nat.le_refl _, rfl⟩,
          fun hf => ⟨hf.within, hf.live⟩, Nat.le_refl _⟩
      have hnow := holds_env hholds hanswer
      rw [hstate, he]
      rcases busy_or_rest (r.state t).thread with hb | ⟨c, hc⟩
      · simp only [next, advance_busy hb]
        exact (holds_access hnow hb ⟨fun hp => hp.elim, trivial⟩).1
      · simp only [next, advance_rest hc]
        exact (holds_invoke hnow fun c hc => goes_both hframes hc).1

/-- At every instant the thread's buffer holds what its point says. -/
theorem content_run (hframes : r.completed j < 2 ^ 64) (h : t ≤ j) :
    Content r.buf (pushed r j) (r.thread t) (r.state t).world := by
  induction t with
  | zero => trivial
  | succ t ih =>
    have hbefore : r.completed t < 2 ^ 64 := (completed_mono (by omega)).trans_lt hframes
    rcases busy_or_rest (r.state (t + 1)).thread with hb | ⟨c, hc⟩
    · have hrely : (contentTerms r.buf (pushed r j)).rely (r.state t).world
          (r.state (t + 1)).world := by
        refine ⟨fun _ => filled_run h, ?_⟩
        rw [(invariant_run r t).completed, (invariant_run r (t + 1)).completed]
        exact completed_mono (Nat.le_succ t)
      rw [thread_busy hbefore hb]
      exact ((contentTerms r.buf (pushed r j)).between_stable _ _ _
        ⟨filled_run (by omega), ih (by omega)⟩ hrely).2
    · exact (holds_between (holds_both hframes h) (not_busy hc)).2.2.2

theorem offers_run (r : Run) (t : ℕ) :
    (r.state t).thread.prog.Every (fun _ _ => True) (Offers (r.thread t)) := by
  induction t with
  | zero => trivial
  | succ t ih =>
    have hstate : r.state (t + 1) = next r.buf r.cfg (r.event t) (r.state t) := rfl
    rw [Run.thread, hstate]
    cases r.event t with
    | push src => exact ih
    | produce => exact ih
    | forward answer => exact every_advance_ctl (fun _ _ => trivial) ih (offers_runVideo r.cfg) _

/-- What the thread writes is, byte for byte, the frame with the last number handed. -/
theorem write_untorn (r : Run) (t : ℕ) (hframes : r.completed t < 2 ^ 64) {bytes : List UInt8}
    {k : Except Errno ℕ → HostProg VideoThread}
    (hwrite : (r.state t).thread.prog = .act (.write bytes) k) :
    ∃ (newest : ℕ) (hlt : newest < (pushed r t).length),
      (r.thread t).handed.getLast? = some newest ∧
        bytes = padded r.buf ((pushed r t)[newest]) := by
  have hoffers := offers_run r t
  rw [hwrite] at hoffers
  obtain ⟨hpoint, hbytes⟩ := hoffers.1 bytes rfl
  have hcontent := content_run hframes (Nat.le_refl t)
  unfold Content at hcontent
  rw [hpoint] at hcontent
  obtain ⟨newest, hlast, hlt, hframe⟩ := hcontent
  have hlt' : newest < (pushed r t).length := by
    rw [(invariant_run r t).completed] at hlt
    exact hlt
  refine ⟨newest, hlt', hlast, ?_⟩
  rw [hbytes, hframe, shown, List.getD_eq_getElem _ _ hlt']

def wideHandle : ShmVideoBuffer := ⟨0, 320, 0, 0, 0⟩

def pushing (src : List UInt8) : List Event := .push src :: List.replicate 8 .produce

/-- Frames of twelve bytes; the third is put while the second is read. -/
def overlappedRun : Run where
  handle := wideHandle
  vf := ⟨1, 1, 1, 0, 12⟩
  before := fun _ => 0
  buf := ⟨0, 320, 12, 64, 3⟩
  slots := 3
  start := ((wideHandle.setGeometry ⟨1, 1, 1, 0, 12⟩).run access fun _ => 0).2
  published := rfl
  attached := wideHandle
  sameRegion := rfl
  cfg := ⟨0, 0⟩
  answer := taking
  event t := (opening ++ pushing [1, 2, 3, 4, 5, 6, 7, 8, 9, 10, 11, 12] ++ pushing [21, 22, 23] ++
    List.replicate 6 (Event.forward taking) ++ pushing [31, 32, 33, 34]).getD t (.forward taking)

theorem write_untorn_overlapped : overlappedRun.completed 56 = 3 ∧
    ∃ (newest : ℕ) (hlt : newest < (pushed overlappedRun 56).length),
      (overlappedRun.thread 56).handed.getLast? = some newest ∧
        [21, 22, 23, 0, 0, 0, 0, 0, 0, 0, 0, 0] =
          padded overlappedRun.buf ((pushed overlappedRun 56)[newest]) := by
  have hpending : (overlappedRun.state 56).thread.prog.pending =
      some (.write [21, 22, 23, 0, 0, 0, 0, 0, 0, 0, 0, 0]) := by
    decide +kernel
  obtain ⟨k, hwrite⟩ := pending_eq_some.mp hpending
  have hcompleted : overlappedRun.completed 56 = 3 := by decide +kernel
  exact ⟨hcompleted, write_untorn overlappedRun 56 (by rw [hcompleted]; decide) hwrite⟩

end Runs

end FrameContent
