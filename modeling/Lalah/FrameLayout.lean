import Lalah.VideoRing
import Mathlib.Data.List.Induction

/-! The layout that `set_geometry` publishes. The producer computes the slots from the
region, the consumer from the header; both have the same ones, inside the region, and the
producer's pushes stay in them. -/
namespace FrameLayout

open InteractionProgram RelyGuarantee ByteMemory StreamWindow ShmContract ShmVideoContract
  WordCopy VideoRing

variable {self p : ShmVideoBuffer} {vf : VideoFormat} {n : ℕ} {m m' : Memory}

def pushAll (buf : ShmVideoBuffer) (srcs : List (List UInt8)) (m : Memory) : Memory :=
  srcs.foldl (fun m src => ((buf.pushFrame src).run access m).2) m

theorem pushAll_snoc (buf : ShmVideoBuffer) (srcs : List (List UInt8)) (src : List UInt8)
    (m : Memory) : pushAll buf (srcs ++ [src]) m =
      ((buf.pushFrame src).run access (pushAll buf srcs m)).2 := by
  rw [pushAll, List.foldl_append]
  rfl

/-- The slots of a handle in a region of `regionLen` bytes, as offsets in the payload. -/
structure SoundSlots (p : ShmVideoBuffer) : Prop where
  enough : 3 ≤ p.slotCount
  aligned : ∀ i < p.slotCount, 64 ∣ i * p.slotStride
  disjoint : ∀ i j, i < j → i * p.slotStride + p.frameSize ≤ j * p.slotStride
  inside : ∀ i < p.slotCount,
    i * p.slotStride + p.frameSize ≤ p.regionLen - shmVideoHeader.size

def FrameCells (p : ShmVideoBuffer) (a : ℕ) : Prop :=
  (∃ i < p.slotCount, SlotCells p i a) ∨ shmVideoHeader.Cells p.hdr [.frameSeq] a

structure Kept (p : ShmVideoBuffer) (srcs : List (List UInt8)) (m m' : Memory) : Prop where
  frames : ∀ k (h : k < srcs.length), srcs.length ≤ k + p.slotCount →
    slot p m' (k % p.slotCount) = paddedTo p.frameSize srcs[k]
  payload : ∀ a, p.payload ≤ a → (∀ i < p.slotCount, ¬ SlotCells p i a) → m' a = m a
  header : ∀ f, f ≠ .frameSeq → word p f m' = word p f m

theorem slots_sound (h : (self.setGeometry vf).run access m = ((p, .ok n), m')) :
    SoundSlots p := by
  obtain ⟨hframe, hslots, hcount, rfl, rfl⟩ := setGeometry_ok h
  have hstride : vf.frameSize.toNat ≤ alignUp64 vf.frameSize.toNat := le_alignUp64 _
  have hcap : n * alignUp64 vf.frameSize.toNat ≤ self.regionLen - shmVideoHeader.size :=
    calc n * alignUp64 vf.frameSize.toNat
      _ ≤ (self.regionLen - shmVideoHeader.size) / alignUp64 vf.frameSize.toNat *
          alignUp64 vf.frameSize.toNat := by
        apply Nat.mul_le_mul_right
        rw [hcount]
        exact Nat.mod_le _ _
      _ ≤ self.regionLen - shmVideoHeader.size := Nat.div_mul_le_self _ _
  have hnext : ∀ i j, i < j → i * alignUp64 vf.frameSize.toNat + vf.frameSize.toNat ≤
      j * alignUp64 vf.frameSize.toNat := by
    intro i j hij
    have := Nat.mul_le_mul_right (alignUp64 vf.frameSize.toNat) (Nat.succ_le_of_lt hij)
    rw [Nat.succ_mul] at this
    omega
  refine ⟨hslots, fun i _ => ?_, hnext, fun i hi => (hnext i n hi).trans hcap⟩
  exact Dvd.dvd.mul_left (Nat.dvd_mul_left _ _) _

theorem storesOnly_pushFrame (src : List UInt8) : StoresOnly (FrameCells p) (p.pushFrame src) := by
  unfold ShmVideoBuffer.pushFrame
  split
  · trivial
  next hset =>
  refine storesOnly_load fun seq => every_bind (StoresOnly.mono storesOnly_writeFrame ?_) fun _ =>
    storesOnly_store (k := .ret) (fun x hlo hhi => Or.inr ⟨.frameSeq, by simp, hlo, hhi⟩) trivial
  intro a ha
  exact Or.inl ⟨seq % p.slotCount, Nat.mod_lt _ (by omega), ha⟩

theorem outside_pushAll (srcs : List (List UInt8)) (m : Memory) :
    SameOutside (FrameCells p) m (pushAll p srcs m) := by
  induction srcs using List.reverseRecOn with
  | nil => exact sameOutside_refl _ _
  | append_singleton srcs src ih =>
    rw [pushAll_snoc]
    exact ih.trans (StoresOnly.run (storesOnly_pushFrame src) _)

theorem word_pushAll {f : VideoField} (hf : f ≠ .frameSeq) (srcs : List (List UInt8))
    (m : Memory) : word p f (pushAll p srcs m) = word p f m := by
  apply loadWord_congr
  intro x hx
  apply outside_pushAll
  have hinside := shmVideoHeader.inside f
  rintro (⟨i, _, hlo, _⟩ | ⟨g, hg, hlo, hhi⟩)
  · unfold ShmVideoBuffer.payload at hlo
    omega
  · obtain rfl := List.mem_singleton.mp hg
    have := shmVideoHeader.disjoint f .frameSeq hf
    omega

theorem run_pushFrame (geo : Geometry p) (src : List UInt8) {count : ℕ}
    (hcount : word p .frameSeq m = count) : ((p.pushFrame src).run access m).2 =
      shmVideoHeader.put p.hdr .frameSeq (wrappingAdd count 1)
        ((volatileWriteFrame (p.payload + count % p.slotCount * p.slotStride) src
          p.frameSize).run access m).2 := by
  have hframe := geo.frame
  have hslots := geo.slots
  have hset : ¬ (p.frameSize = 0 ∨ p.slotCount = 0) := by omega
  have hrun : ((p.pushFrame src).run access m).2 =
      shmVideoHeader.put p.hdr .frameSeq (wrappingAdd (word p .frameSeq m) 1)
        ((volatileWriteFrame (p.payload + word p .frameSeq m % p.slotCount * p.slotStride) src
          p.frameSize).run access m).2 := by
    rw [ShmVideoBuffer.pushFrame, if_neg hset, run_bind, run_bind]
    rfl
  rw [hrun, hcount]

/-- Between pushes all slots are settled, not only all but one. -/
theorem retains_pushAll (geo : Geometry p) (hfresh : word p .frameSeq m = 0)
    (srcs : List (List UInt8)) (hlt : srcs.length < 2 ^ 64) :
    word p .frameSeq (pushAll p srcs m) = srcs.length ∧
      Retains p.slotCount p.slotCount (slot p (pushAll p srcs m))
        (srcs.map (paddedTo p.frameSize)) := by
  have hslots := geo.slots
  induction srcs using List.reverseRecOn with
  | nil => exact ⟨hfresh, retains_nil⟩
  | append_singleton srcs src ih =>
    rw [List.length_append, List.length_singleton] at hlt ⊢
    obtain ⟨hcount, hretains⟩ := ih (by omega)
    rw [pushAll_snoc, run_pushFrame geo src hcount, List.map_append, List.map_singleton]
    constructor
    · have hwidth : 256 ^ shmVideoHeader.width .frameSeq = 2 ^ 64 := by decide
      rw [word, shmVideoHeader.get_put, hwidth]
      unfold wrappingAdd
      omega
    · refine hretains.write (by omega) (fun i _ hne => ?_) ?_
      · rw [List.length_map] at hne
        rw [slot_put]
        exact slot_other geo (StoresOnly.run storesOnly_writeFrame _) hne
      · rw [List.length_map, slot_put]
        exact written_frame

theorem kept_pushAll (geo : Geometry p) (hfresh : word p .frameSeq m = 0)
    (srcs : List (List UInt8)) (hlt : srcs.length < 2 ^ 64) : Kept p srcs m (pushAll p srcs m) := by
  refine ⟨fun k hk hnew => ?_, fun a ha hslots => ?_, fun f hf => word_pushAll hf srcs m⟩
  · have hretains := (retains_pushAll geo hfresh srcs hlt).2 k (by rw [List.length_map]; exact hk)
      (by rw [List.length_map]; exact hnew)
    rwa [List.getElem_map] at hretains
  · apply outside_pushAll
    rintro (⟨i, hi, hcell⟩ | hcell)
    · exact hslots i hi hcell
    · have := (shmVideoHeader.cells_inside hcell).2
      unfold ShmVideoBuffer.payload at ha
      omega

/-- A consumer that refreshes finds the producer's geometry. -/
theorem refresh_published (h : (self.setGeometry vf).run access m = ((p, .ok n), m'))
    (srcs : List (List UInt8)) (c : ShmVideoBuffer) (hc : c.hdr = self.hdr) :
    (c.refreshGeometry).run access (pushAll p srcs m') =
      ((⟨c.hdr, c.regionLen, p.frameSize, p.slotStride, p.slotCount⟩, some vf),
        pushAll p srcs m') := by
  obtain ⟨hframe, _, hcount, hp, hm⟩ := setGeometry_ok h
  have hn : n < 2 ^ 32 := hcount ▸ Nat.mod_lt _ (by decide)
  have hptr : c.hdr = p.hdr := by rw [hc, hp]
  have hword : ∀ f v, (f, v) ∈ geometryWords vf n → f ≠ .frameSeq →
      shmVideoHeader.get c.hdr f (pushAll p srcs m') = v := by
    intro f v hmem hf
    have hkept : word p f (pushAll p srcs m') = word p f m' := word_pushAll hf srcs m'
    rw [hptr]
    apply hkept.trans
    rw [hm, word, ← hptr, hc]
    exact geometry_words hn hmem self.hdr m
  have hload : ∀ f, (shmVideoHeader.load c.hdr f).run access (pushAll p srcs m') =
      (shmVideoHeader.get c.hdr f (pushAll p srcs m'), pushAll p srcs m') := fun _ => rfl
  generalize pushAll p srcs m' = later at hword hload ⊢
  have hsize := hword .frameSize vf.frameSize.toNat (by simp [geometryWords]) (by decide)
  have hslots := hword .slotCount n (by simp [geometryWords]) (by decide)
  have hwidth := hword .width vf.width.toNat (by simp [geometryWords]) (by decide)
  have hheight := hword .height vf.height.toNat (by simp [geometryWords]) (by decide)
  have hstride := hword .stride vf.stride.toNat (by simp [geometryWords]) (by decide)
  have hfourcc := hword .fourcc vf.fourcc.toNat (by simp [geometryWords]) (by decide)
  unfold ShmVideoBuffer.refreshGeometry ShmVideoBuffer.load
  rw [run_bind, hload]
  dsimp only
  rw [hsize, if_neg hframe]
  simp only [run_bind, hload, hslots, hwidth, hheight, hstride, hfourcc, UInt32.ofNat_toNat, hp]
  rfl

/-- The layout is sound, the consumer has the same one, and pushes keep to it. -/
theorem frame_layout (self : ShmVideoBuffer) (vf : VideoFormat) (m : Memory) :
    match (self.setGeometry vf).run access m with
    | ((p, .ok n), m') =>
      p.hdr = self.hdr ∧ p.regionLen = self.regionLen ∧ p.slotCount = n ∧
      p.frameSize = vf.frameSize.toNat ∧ SoundSlots p ∧ word p .frameSeq m' = 0 ∧
      ∀ srcs : List (List UInt8), srcs.length < 2 ^ 64 →
        Kept p srcs m' (pushAll p srcs m') ∧
        ∀ c : ShmVideoBuffer, c.hdr = self.hdr →
          (c.refreshGeometry).run access (pushAll p srcs m') =
            ((⟨c.hdr, c.regionLen, p.frameSize, p.slotStride, p.slotCount⟩, some vf),
              pushAll p srcs m')
    | ((p, .error _), m') => p = self ∧ m' = m := by
  split
  next p n m' h =>
    obtain ⟨_, _, _, hp, _⟩ := setGeometry_ok h
    obtain ⟨hptr, hslots, geo, hlive⟩ := live_setGeometry h
    refine ⟨hptr, by rw [hp], hslots, by rw [hp], slots_sound h, hlive.count, fun srcs hlt => ?_⟩
    exact ⟨kept_pushAll geo hlive.count srcs hlt, fun c hc => refresh_published h srcs c hc⟩
  next p e m' h => exact setGeometry_error h

end FrameLayout
