import Lalah.StreamWindow
import Lalah.WordCopy

/-! The ring of frame slots under its producer. A push writes the slot of the oldest frame
and then counts the new one, so at every instant all slots but one are settled (`Live`). -/
namespace VideoRing

open InteractionProgram RelyGuarantee ByteMemory StreamWindow ShmContract ShmVideoContract
  WordCopy

variable (buf : ShmVideoBuffer)

def word (f : VideoField) (m : Memory) : ℕ := shmVideoHeader.get buf.hdr f m

def slot (m : Memory) (i : ℕ) : List UInt8 :=
  (List.range buf.frameSize).map fun x => m (buf.payload + i * buf.slotStride + x)

/-- What the consumer sees of a pushed source: `frame_size` bytes of it, zeros behind. -/
def padded (src : List UInt8) : List UInt8 := paddedTo buf.frameSize src

structure Geometry : Prop where
  frame : 0 < buf.frameSize
  stride : buf.slotStride = alignUp64 buf.frameSize
  slots : 3 ≤ buf.slotCount

structure Shows (m : Memory) : Prop where
  frameSize : word buf .frameSize m = buf.frameSize
  slotCount : word buf .slotCount m = buf.slotCount

/-- What holds at every instant; of the frames nothing is claimed once the count wraps. -/
structure Live (pushed : List (List UInt8)) (m : Memory) : Prop where
  shows : Shows buf m
  count : word buf .frameSeq m = pushed.length % 2 ^ 64
  frames : pushed.length < 2 ^ 64 →
    Retains buf.slotCount (buf.slotCount - 1) (slot buf m) (pushed.map (padded buf))

def producerTerms : Terms Access Memory (List (List UInt8)) where
  rely m m' := m' = m
  allow := fun _ _ _ => True
  guar := fun _ _ => True
  during pushed _ := Live buf pushed
  between := Live buf
  follows pushed pushed' := ∃ src, pushed' = pushed ++ [src]
  rely_refl := fun _ => rfl
  rely_trans := fun _ _ _ h h' => h'.trans h
  between_stable := fun _ _ _ h hs => hs ▸ h

variable {buf}

section Handles

variable {self p : ShmVideoBuffer} {vf : VideoFormat} {n : ℕ} {m m' : Memory}

theorem le_alignUp64 (k : ℕ) : k ≤ alignUp64 k := by
  unfold alignUp64
  omega

def initWords : List (VideoField × ℕ) :=
  [(.headerSize, shmVideoHeader.size), (.width, 0), (.height, 0), (.stride, 0), (.fourcc, 0),
    (.slotCount, 0), (.frameSeq, 0), (.frameSize, 0), (.version, videoVersion),
    (.magic, videoMagic)]

theorem init_eq {base regionLen : ℕ} (h : shmVideoHeader.size < regionLen) :
    ShmVideoBuffer.init base regionLen =
      shmVideoHeader.storeAll base (some ⟨base, regionLen, 0, 0, 0⟩) initWords := by
  rw [ShmVideoBuffer.init, if_neg (Nat.not_le.mpr h)]
  rfl

theorem init_word {f : VideoField} {v : ℕ} (hmem : (f, v) ∈ initWords)
    (hv : v < 256 ^ shmVideoHeader.width f) (base : ℕ) (m : Memory) :
    shmVideoHeader.get base f (shmVideoHeader.putAll base initWords m) = v := by
  have hnodup : (initWords.map Prod.fst).Nodup := by simp [initWords]
  rw [shmVideoHeader.get_putAll_of_mem base m hnodup hmem, Nat.mod_eq_of_lt hv]

def geometryWords (vf : VideoFormat) (slots : ℕ) : List (VideoField × ℕ) :=
  [(.width, vf.width.toNat), (.height, vf.height.toNat), (.stride, vf.stride.toNat),
    (.fourcc, vf.fourcc.toNat), (.slotCount, slots), (.frameSeq, 0),
    (.frameSize, vf.frameSize.toNat)]

theorem geometryWords_nodup (vf : VideoFormat) (slots : ℕ) :
    ((geometryWords vf slots).map Prod.fst).Nodup := by
  simp [geometryWords]

theorem setGeometry_eq (hframe : vf.frameSize.toNat ≠ 0) (hslots : 3 ≤ n)
    (hn : n = (self.regionLen - shmVideoHeader.size) / alignUp64 vf.frameSize.toNat % 2 ^ 32) :
    self.setGeometry vf = shmVideoHeader.storeAll self.hdr
      (⟨self.hdr, self.regionLen, vf.frameSize.toNat, alignUp64 vf.frameSize.toNat, n⟩,
        (.ok n : Except String ℕ)) (geometryWords vf n) := by
  have hmin : ¬ n < videoMinSlots := Nat.not_lt.mpr hslots
  unfold ShmVideoBuffer.setGeometry
  dsimp only
  rw [if_neg hframe, ← hn, if_neg hmin]
  rfl

theorem setGeometry_ok (h : (self.setGeometry vf).run access m = ((p, .ok n), m')) :
    vf.frameSize.toNat ≠ 0 ∧ 3 ≤ n ∧
      n = (self.regionLen - shmVideoHeader.size) / alignUp64 vf.frameSize.toNat % 2 ^ 32 ∧
      p = ⟨self.hdr, self.regionLen, vf.frameSize.toNat, alignUp64 vf.frameSize.toNat, n⟩ ∧
      m' = shmVideoHeader.putAll self.hdr (geometryWords vf n) m := by
  by_cases hframe : vf.frameSize.toNat = 0
  · unfold ShmVideoBuffer.setGeometry at h
    dsimp only at h
    rw [if_pos hframe] at h
    cases h
  by_cases hslots : (self.regionLen - shmVideoHeader.size) / alignUp64 vf.frameSize.toNat % 2 ^ 32 <
      videoMinSlots
  · unfold ShmVideoBuffer.setGeometry at h
    dsimp only at h
    rw [if_neg hframe, if_pos hslots] at h
    cases h
  rw [setGeometry_eq hframe (Nat.not_lt.mp hslots) rfl, Layout.run_storeAll] at h
  obtain ⟨hp, hm⟩ := Prod.mk.inj h
  obtain ⟨rfl, hn⟩ := Prod.mk.inj hp
  obtain rfl := Except.ok.inj hn
  exact ⟨hframe, Nat.not_lt.mp hslots, rfl, rfl, hm.symm⟩

theorem setGeometry_error {e : String}
    (h : (self.setGeometry vf).run access m = ((p, .error e), m')) : p = self ∧ m' = m := by
  unfold ShmVideoBuffer.setGeometry at h
  dsimp only at h
  split at h
  · cases h
    exact ⟨rfl, rfl⟩
  split at h
  · cases h
    exact ⟨rfl, rfl⟩
  · cases h

theorem geometry_words {f : VideoField} {v : ℕ} (hn : n < 2 ^ 32)
    (hmem : (f, v) ∈ geometryWords vf n) (base : ℕ) (m : Memory) :
    shmVideoHeader.get base f (shmVideoHeader.putAll base (geometryWords vf n) m) = v := by
  rw [shmVideoHeader.get_putAll_of_mem base m (geometryWords_nodup _ _) hmem]
  have h32 : (256 : ℕ) ^ 4 = 2 ^ 32 := by decide
  simp only [geometryWords, List.mem_cons, Prod.mk.injEq, List.not_mem_nil, or_false] at hmem
  rcases hmem with ⟨rfl, rfl⟩ | ⟨rfl, rfl⟩ | ⟨rfl, rfl⟩ | ⟨rfl, rfl⟩ | ⟨rfl, rfl⟩ | ⟨rfl, rfl⟩ |
    ⟨rfl, rfl⟩
  · exact (congrArg _ h32).trans (Nat.mod_eq_of_lt vf.width.toNat_lt)
  · exact (congrArg _ h32).trans (Nat.mod_eq_of_lt vf.height.toNat_lt)
  · exact (congrArg _ h32).trans (Nat.mod_eq_of_lt vf.stride.toNat_lt)
  · exact (congrArg _ h32).trans (Nat.mod_eq_of_lt vf.fourcc.toNat_lt)
  · exact (congrArg _ h32).trans (Nat.mod_eq_of_lt hn)
  · exact Nat.zero_mod _
  · exact (congrArg _ h32).trans (Nat.mod_eq_of_lt vf.frameSize.toNat_lt)

/-- An accepted `set_geometry` leaves a handle whose geometry the header shows, and no
frames. -/
theorem live_setGeometry
    (h : (self.setGeometry vf).run access m = ((p, .ok n), m')) :
    p.hdr = self.hdr ∧ p.slotCount = n ∧ Geometry p ∧ Live p [] m' := by
  obtain ⟨hframe, hslots, hcount, rfl, rfl⟩ := setGeometry_ok h
  have hn : n < 2 ^ 32 := hcount ▸ Nat.mod_lt _ (by decide)
  refine ⟨rfl, rfl, ⟨Nat.pos_of_ne_zero hframe, rfl, hslots⟩, ⟨?_, ?_⟩, ?_, fun _ => retains_nil⟩
  · exact geometry_words hn (by simp [geometryWords]) self.hdr m
  · exact geometry_words hn (by simp [geometryWords]) self.hdr m
  · exact geometry_words hn (by simp [geometryWords]) self.hdr m

end Handles

section Pushes

variable {i j : ℕ} {m m' : Memory} {pushed : List (List UInt8)}

def SlotCells (buf : ShmVideoBuffer) (i a : ℕ) : Prop :=
  buf.payload + i * buf.slotStride ≤ a ∧ a < buf.payload + i * buf.slotStride + buf.frameSize

theorem word_slot {f : VideoField} (h : SameOutside (SlotCells buf i) m m') :
    word buf f m' = word buf f m := by
  apply loadWord_congr
  intro x hx
  apply h
  rintro ⟨hlo, _⟩
  have := shmVideoHeader.inside f
  unfold ShmVideoBuffer.payload at hlo
  omega

theorem slot_other (geo : Geometry buf) (h : SameOutside (SlotCells buf i) m m') (hij : j ≠ i) :
    slot buf m' j = slot buf m j := by
  apply List.map_congr_left
  intro x hx
  rw [List.mem_range] at hx
  apply h
  rintro ⟨hlo, hhi⟩
  have hstride : buf.frameSize ≤ buf.slotStride := geo.stride ▸ le_alignUp64 _
  rcases Nat.lt_or_gt_of_ne hij with hlt | hgt
  · have := Nat.mul_le_mul_right buf.slotStride (Nat.succ_le_of_lt hlt)
    rw [Nat.succ_mul] at this
    omega
  · have := Nat.mul_le_mul_right buf.slotStride (Nat.succ_le_of_lt hgt)
    rw [Nat.succ_mul] at this
    omega

/-- A half-written next slot leaves all that is claimed. -/
theorem live_slot (geo : Geometry buf) (h : Live buf pushed m)
    (hs : SameOutside (SlotCells buf (pushed.length % 2 ^ 64 % buf.slotCount)) m m') :
    Live buf pushed m' := by
  have hslots := geo.slots
  refine ⟨⟨?_, ?_⟩, ?_, fun hlt => (h.frames hlt).overwrite (by omega) fun i _ hi => ?_⟩
  · rw [word_slot hs]; exact h.shows.frameSize
  · rw [word_slot hs]; exact h.shows.slotCount
  · rw [word_slot hs]; exact h.count
  · rw [List.length_map] at hi
    rw [Nat.mod_eq_of_lt hlt] at hs
    exact slot_other geo hs hi

theorem slot_put (f : VideoField) (v : ℕ) (m : Memory) (i : ℕ) :
    slot buf (shmVideoHeader.put buf.hdr f v m) i = slot buf m i := by
  apply List.map_congr_left
  intro x _
  apply shmVideoHeader.put_outside
  unfold ShmVideoBuffer.payload
  omega

theorem live_count (geo : Geometry buf) {src : List UInt8} (h : Live buf pushed m)
    (hslot : slot buf m (pushed.length % 2 ^ 64 % buf.slotCount) = padded buf src) :
    Live buf (pushed ++ [src])
      (shmVideoHeader.put buf.hdr .frameSeq (wrappingAdd (pushed.length % 2 ^ 64) 1) m) := by
  have hslots := geo.slots
  refine ⟨⟨?_, ?_⟩, ?_, fun hlt => ?_⟩
  · rw [word, shmVideoHeader.get_put_ne _ (by decide)]; exact h.shows.frameSize
  · rw [word, shmVideoHeader.get_put_ne _ (by decide)]; exact h.shows.slotCount
  · have hwidth : 256 ^ shmVideoHeader.width .frameSeq = 2 ^ 64 := by decide
    rw [word, shmVideoHeader.get_put, hwidth, List.length_append, List.length_singleton]
    unfold wrappingAdd
    omega
  · rw [List.length_append, List.length_singleton] at hlt
    rw [Nat.mod_eq_of_lt (show pushed.length < 2 ^ 64 by omega)] at hslot
    have hnext : Retains buf.slotCount (buf.slotCount - 1 + 1) (slot buf m)
        (pushed.map (padded buf) ++ [padded buf src]) :=
      (h.frames (by omega)).snoc (by rw [List.length_map]; exact hslot)
    rw [List.map_append, List.map_singleton]
    exact (hnext.mono (by omega)).congr (fun i _ => (slot_put _ _ _ i).symm) (by omega)

theorem slot_written (src : List UInt8) (m : Memory) :
    slot buf ((volatileWriteFrame (buf.payload + i * buf.slotStride) src buf.frameSize).run
      access m).2 i = padded buf src := written_frame

theorem safe_push (geo : Geometry buf) (src : List UInt8) (h : Live buf pushed m) :
    Safe access (producerTerms buf) pushed (Ends (producerTerms buf) pushed)
      (buf.pushFrame src >>= fun _ => .ret (pushed ++ [src])) [] m := by
  have hframe := geo.frame
  have hslots := geo.slots
  have hset : ¬ (buf.frameSize = 0 ∨ buf.slotCount = 0) := by omega
  unfold ShmVideoBuffer.pushFrame
  rw [if_neg hset, bind_assoc]
  apply shmVideoHeader.safe_load
  rintro m rfl
  refine ⟨h, fun _ => ⟨trivial, ?_⟩⟩
  have hseq : shmVideoHeader.get buf.hdr .frameSeq m = pushed.length % 2 ^ 64 := h.count
  rw [hseq]
  dsimp only
  rw [bind_assoc]
  refine safe_bind (safe_mono ?_ (safe_alone (fun _ _ hs => hs)
    (safe_every (I := fun _ m => Live buf pushed m) (fun _ _ => trivial) ?_ storesOnly_writeFrame h)))
  · rintro _ made m' ⟨hwritten, hlive⟩
    obtain ⟨-, rfl⟩ := Prod.mk.inj hwritten
    apply shmVideoHeader.safe_store
    rintro m'' rfl
    exact ⟨hlive, fun _ => ⟨trivial, live_count geo hlive (slot_written src m), src, rfl⟩⟩
  · rintro made m' m'' hlive rfl
    exact ⟨hlive, fun op hop => ⟨trivial, live_slot geo hlive (hop.sameOutside m'')⟩⟩

end Pushes

section Reads

variable {h : ShmVideoBuffer} {mem : ℕ → Memory} {t u : ℕ} {m m' : Memory}

/-- A handle on the same region with the same geometry. -/
structure Sees (buf h : ShmVideoBuffer) : Prop where
  hdr : h.hdr = buf.hdr
  frameSize : h.frameSize = buf.frameSize
  slotStride : h.slotStride = buf.slotStride
  slotCount : h.slotCount = buf.slotCount

theorem storesOnly_readFrame {A : ℕ → Prop} (h : ShmVideoBuffer) (out : List UInt8) :
    StoresOnly A (h.readFrame out) := by
  unfold ShmVideoBuffer.readFrame
  split
  · trivial
  apply storesOnly_load
  intro s0
  split
  · trivial
  refine every_bind (storesOnly_copyFromWords _ _) fun live => storesOnly_load fun s1 => ?_
  split <;> trivial

theorem storesOnly_refreshGeometry {A : ℕ → Prop} (h : ShmVideoBuffer) :
    StoresOnly A h.refreshGeometry := by
  apply storesOnly_load
  intro fs
  split
  · trivial
  · exact storesOnly_load fun _ => storesOnly_load fun _ => storesOnly_load fun _ =>
      storesOnly_load fun _ => storesOnly_load fun _ => trivial

def afterCount (h : ShmVideoBuffer) (out : List UInt8) (s0 : ℕ) :
    MemProg (Option ℕ × List UInt8) := do
  if s0 = 0 then return (none, out)
  let live ← volatileCopyFromWords (h.payload + (s0 - 1) % h.slotCount * h.slotStride)
    (min h.frameSize out.length)
  let s1 ← h.load .frameSeq
  if wrappingSub s1 s0 ≤ h.slotCount - 2 then
    return (some (s0 - 1), live ++ out.drop (min h.frameSize out.length))
  else
    return (none, live ++ out.drop (min h.frameSize out.length))

theorem readFrame_eq (hset : ¬ (h.frameSize = 0 ∨ h.slotCount = 0)) (out : List UInt8) :
    h.readFrame out = h.load .frameSeq >>= afterCount h out := if_neg hset

/-- The rest of a finished `read_frame`: nothing on an empty ring, else the copy of the
newest frame's slot and, as the last access, the second load. -/
theorem reach_afterCount {out out' : List UInt8} {s0 : ℕ} {res : Option ℕ}
    (hr : Reach access mem t (afterCount h out s0) u (.ret (res, out'))) :
    s0 = 0 ∧ res = none ∨ s0 ≠ 0 ∧ ∃ v live, t ≤ v ∧ v + 1 = u ∧
      live.length = min h.frameSize out.length ∧
      out' = live ++ out.drop (min h.frameSize out.length) ∧
      (∀ x (hx : x < live.length), ∃ w, t ≤ w ∧ w < v ∧
        live[x] = mem w (h.payload + (s0 - 1) % h.slotCount * h.slotStride + x)) ∧
      res = if wrappingSub (word h .frameSeq (mem v)) s0 ≤ h.slotCount - 2
        then some (s0 - 1) else none := by
  unfold afterCount at hr
  by_cases hzero : s0 = 0
  · rw [if_pos hzero] at hr
    obtain ⟨_, heq⟩ := Reach.ret_inv hr
    exact Or.inl ⟨hzero, (Prod.mk.inj heq).1⟩
  · rw [if_neg hzero] at hr
    obtain ⟨w, live, hcopy, hr⟩ := Reach.bind_inv hr
    obtain ⟨v, hv, hr⟩ := shmVideoHeader.reach_load hr
    obtain ⟨hle, hlen, hbytes⟩ := reach_copyFromWords hcopy
    have hcells : ∀ x (hx : x < live.length), ∃ w, t ≤ w ∧ w < v ∧
        live[x] = mem w (h.payload + (s0 - 1) % h.slotCount * h.slotStride + x) := by
      intro x hx
      obtain ⟨y, hty, hyw, hb⟩ := hbytes x hx
      exact ⟨y, hty, by omega, hb⟩
    refine Or.inr ⟨hzero, v, live, by omega, ?_⟩
    change Reach access mem (v + 1)
      (if wrappingSub (word h .frameSeq (mem v)) s0 ≤ h.slotCount - 2 then _ else _) u _ at hr
    by_cases hlap : wrappingSub (word h .frameSeq (mem v)) s0 ≤ h.slotCount - 2
    · rw [if_pos hlap] at hr ⊢
      obtain ⟨rfl, heq⟩ := Reach.ret_inv hr
      obtain ⟨rfl, rfl⟩ := Prod.mk.inj heq
      exact ⟨rfl, hlen, rfl, hcells, rfl⟩
    · rw [if_neg hlap] at hr ⊢
      obtain ⟨rfl, heq⟩ := Reach.ret_inv hr
      obtain ⟨rfl, rfl⟩ := Prod.mk.inj heq
      exact ⟨rfl, hlen, rfl, hcells, rfl⟩

end Reads

end VideoRing
