import Lalah.VideoRing

/-! What `read_frame` can touch with a geometry that it has taken from the header. Nothing
checks that geometry against the length of the region, so the reads stay inside exactly
when the published slots do. -/
namespace VideoBounds

open InteractionProgram ByteMemory ShmContract ShmVideoContract WordCopy VideoRing

def Inside (h : ShmVideoBuffer) : Access → Prop
  | .load w a => h.hdr ≤ a ∧ a + w ≤ h.hdr + h.regionLen
  | .store w a _ => h.hdr ≤ a ∧ a + w ≤ h.hdr + h.regionLen

def SlotsFit (h : ShmVideoBuffer) : Prop :=
  h.slotCount = 0 ∨
    shmVideoHeader.size + (h.slotCount - 1) * h.slotStride + h.frameSize ≤ h.regionLen

variable {h c c' : ShmVideoBuffer} {m m' : Memory}

theorem inside_copy {s n : ℕ} (hs : h.hdr ≤ s) (hn : 0 < n) :
    (volatileCopyFromWords s n).Every Fits (Inside h) ↔ s + n ≤ h.hdr + h.regionLen := by
  rw [every_copyFromWords]
  constructor
  · rintro ⟨hwords, hbytes⟩
    by_cases htail : n / 8 * 8 < n
    · have := (hbytes (n - n / 8 * 8 - 1) (by omega)).2
      omega
    · have := (hwords (n / 8 - 1) (by omega)).2
      omega
  · intro hfit
    exact ⟨fun i hi => ⟨by omega, by omega⟩, fun i hi => ⟨by omega, by omega⟩⟩

theorem inside_word (hregion : shmVideoHeader.size < h.regionLen) (f : VideoField) :
    Inside h (.load (shmVideoHeader.width f) (h.hdr + shmVideoHeader.offset f)) := by
  have := shmVideoHeader.inside f
  exact ⟨by omega, by omega⟩

/-- With slots that fit, no value of the count takes a read out of the region. -/
theorem inside_of_fit (hregion : shmVideoHeader.size < h.regionLen) (hfit : SlotsFit h)
    (out : List UInt8) : (h.readFrame out).Every Fits (Inside h) := by
  by_cases hset : h.frameSize = 0 ∨ h.slotCount = 0
  · rw [ShmVideoBuffer.readFrame, if_pos hset]
    trivial
  rw [readFrame_eq hset]
  apply every_load (inside_word hregion .frameSeq)
  intro s0 _
  unfold afterCount
  split
  · trivial
  refine every_bind ?_ fun live => every_load (inside_word hregion .frameSeq) fun s1 _ => ?_
  rotate_left
  · split <;> trivial
  have hlt : (s0 - 1) % h.slotCount ≤ h.slotCount - 1 := by
    have := Nat.mod_lt (s0 - 1) (show h.slotCount > 0 by omega)
    omega
  have hoff := Nat.mul_le_mul_right h.slotStride hlt
  have hend : shmVideoHeader.size + (h.slotCount - 1) * h.slotStride + h.frameSize ≤
      h.regionLen := hfit.resolve_left (by omega)
  by_cases hempty : min h.frameSize out.length = 0
  · rw [hempty]
    exact True.intro
  · have hpayload : h.payload = h.hdr + shmVideoHeader.size := rfl
    rw [inside_copy (by omega) (by omega)]
    omega

theorem fit_of_inside (hframe : h.frameSize ≠ 0) (hcount : h.slotCount < 2 ^ 64)
    (hinside : (h.readFrame (List.replicate h.frameSize 0)).Every Fits (Inside h)) :
    SlotsFit h := by
  by_cases hslots : h.slotCount = 0
  · exact Or.inl hslots
  rw [readFrame_eq (by omega)] at hinside
  have hfits : Fits (.load (shmVideoHeader.width .frameSeq)
      (h.hdr + shmVideoHeader.offset .frameSeq))
      h.slotCount := by
    have hwidth : 256 ^ shmVideoHeader.width .frameSeq = 2 ^ 64 := by decide
    change h.slotCount < 256 ^ shmVideoHeader.width .frameSeq
    rwa [hwidth]
  have hafter : (afterCount h (List.replicate h.frameSize 0) h.slotCount).Every Fits (Inside h) :=
    hinside.2 _ hfits
  rw [afterCount, if_neg hslots] at hafter
  have hcopy := every_left hafter
  have hpayload : h.payload = h.hdr + shmVideoHeader.size := rfl
  rw [List.length_replicate, Nat.min_self, Nat.mod_eq_of_lt (by omega),
    inside_copy (by omega) (by omega)] at hcopy
  exact Or.inr (by omega)

theorem refresh_handle {vf : VideoFormat}
    (hr : (c.refreshGeometry).run access m = ((c', some vf), m')) :
    word c .frameSize m ≠ 0 ∧ c' = ⟨c.hdr, c.regionLen, word c .frameSize m,
      alignUp64 (word c .frameSize m), word c .slotCount m⟩ := by
  have hload : ∀ f, (c.load f).run access m = (word c f m, m) := fun _ => rfl
  rw [ShmVideoBuffer.refreshGeometry, run_bind, hload] at hr
  dsimp only at hr
  by_cases hzero : word c .frameSize m = 0
  · rw [if_pos hzero] at hr
    cases hr
  · rw [if_neg hzero] at hr
    simp only [run_bind, hload] at hr
    obtain ⟨hc, _⟩ := Prod.mk.inj (Prod.mk.inj hr).1
    exact ⟨hzero, hc.symm⟩

/-- For every header that lets `refresh_geometry` succeed: all reads stay inside the region
exactly when there are no slots or the last one ends inside. -/
theorem read_frame_inside_iff {vf : VideoFormat} (hregion : shmVideoHeader.size < c.regionLen)
    (hr : (c.refreshGeometry).run access m = ((c', some vf), m')) :
    (∀ out, (c'.readFrame out).Every Fits (Inside c')) ↔
      word c .slotCount m = 0 ∨ shmVideoHeader.size +
        (word c .slotCount m - 1) * alignUp64 (word c .frameSize m) + word c .frameSize m ≤
          c.regionLen := by
  obtain ⟨hframe, rfl⟩ := refresh_handle hr
  have hcount : word c .slotCount m < 2 ^ 64 := by
    have hlt := shmVideoHeader.get_lt c.hdr .slotCount m
    have hwidth : 256 ^ shmVideoHeader.width .slotCount = 2 ^ 32 := by decide
    rw [hwidth] at hlt
    exact hlt.trans (by decide)
  constructor
  · intro h
    exact fit_of_inside hframe hcount (h _)
  · intro hfit out
    exact @inside_of_fit ⟨c.hdr, c.regionLen, word c .frameSize m,
      alignUp64 (word c .frameSize m), word c .slotCount m⟩ hregion hfit out

/-- A region with room for three slots of 64 bytes, and a header that says four. -/
def fourSlots : Memory :=
  shmVideoHeader.putAll 0 [(.frameSize, 64), (.slotCount, 4)] fun _ => 0

theorem fourSlots_refresh : ((⟨0, 320, 0, 0, 0⟩ : ShmVideoBuffer).refreshGeometry).run access
    fourSlots = ((⟨0, 320, 64, 64, 4⟩, some ⟨0, 0, 0, 0, 64⟩), fourSlots) := by
  have hresult : (((⟨0, 320, 0, 0, 0⟩ : ShmVideoBuffer).refreshGeometry).run access
      fourSlots).1 = (⟨0, 320, 64, 64, 4⟩, some ⟨0, 0, 0, 0, 64⟩) := by decide +kernel
  exact Prod.ext hresult ((storesOnly_refreshGeometry _).run_loads _)

theorem read_frame_inside_fourSlots :
    (∀ out, ((⟨0, 320, 64, 64, 4⟩ : ShmVideoBuffer).readFrame out).Every Fits
      (Inside ⟨0, 320, 64, 64, 4⟩)) ↔ False := by
  have hiff := read_frame_inside_iff (by decide) fourSlots_refresh
  have hcondition : ¬ (word ⟨0, 320, 0, 0, 0⟩ .slotCount fourSlots = 0 ∨ shmVideoHeader.size +
      (word ⟨0, 320, 0, 0, 0⟩ .slotCount fourSlots - 1) *
        alignUp64 (word ⟨0, 320, 0, 0, 0⟩ .frameSize fourSlots) +
        word ⟨0, 320, 0, 0, 0⟩ .frameSize fourSlots ≤ 320) := by decide +kernel
  exact hiff.trans (iff_false_intro hcondition)

/-- The read of the fourth frame goes past the end of the region. -/
theorem read_frame_outside : ∃ vf m', ((⟨0, 320, 0, 0, 0⟩ : ShmVideoBuffer).refreshGeometry).run
      access fourSlots = ((⟨0, 320, 64, 64, 4⟩, some vf), m') ∧
    ¬ ((⟨0, 320, 64, 64, 4⟩ : ShmVideoBuffer).readFrame (List.replicate 64 0)).Every Fits
      (Inside ⟨0, 320, 64, 64, 4⟩) := by
  refine ⟨_, _, fourSlots_refresh, fun hinside => ?_⟩
  have hfit : SlotsFit ⟨0, 320, 64, 64, 4⟩ := fit_of_inside (by decide) (by decide) hinside
  rcases hfit with hnone | hend
  · exact absurd hnone (by decide)
  · exact absurd hend (by decide)

end VideoBounds
