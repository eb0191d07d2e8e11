import Lalah.RegionSplit
import Lalah.VideoRing

/-! The sizes the host computes against the checks that both sides make of them: `init`
asserts three conditions on the capacity, `attach` tests three others. -/
namespace HostSizing

open InteractionProgram ByteMemory ShmContract ShmVideoContract AudioRing RegionSplit

def Largest (p n : ℕ) : Prop :=
  IsPowerOfTwo p ∧ p ≤ n ∧ ∀ q, IsPowerOfTwo q → q ≤ n → q ≤ p

section Attach

variable {ring : ShmAudioBuffer} {total base regionLen : ℕ} {m : Memory}

/-- `attach` accepts a complete header whose ring fits. -/
theorem attach_header (hfits : ring.cap + shmHeader.size ≤ total)
    (hmagic : word ring .magic m = shmMagic) (hversion : word ring .version m = shmVersion)
    (hheader : word ring .headerSize m = shmHeader.size)
    (hcap : word ring .capacity m = ring.cap) :
    ((ShmAudioBuffer.attach ring.hdr total).run access m).1 = .ok ring := by
  have hload : ∀ f, (shmHeader.load ring.hdr f).run access m = (word ring f m, m) := fun _ => rfl
  have hpos := cap_pos ring
  have hvalid : ring.cap ≠ 0 ∧ IsPowerOfTwo ring.cap ∧ ring.cap ≤ total - shmHeader.size :=
    ⟨by omega, ring.pow2, by omega⟩
  rw [ShmAudioBuffer.attach, if_neg (by omega)]
  simp only [run_bind, hload, hmagic, hversion, hheader, hcap, ne_eq, not_true_eq_false, if_false]
  rw [dif_pos hvalid]
  rfl

theorem attach_videoHeader (hsize : shmVideoHeader.size < regionLen) :
    ((ShmVideoBuffer.attach base regionLen).run access
      (shmVideoHeader.putAll base VideoRing.initWords m)).1 = .ok ⟨base, regionLen, 0, 0, 0⟩ := by
  have hword : ∀ f v, (f, v) ∈ VideoRing.initWords → v < 256 ^ shmVideoHeader.width f →
      (shmVideoHeader.load base f).run access (shmVideoHeader.putAll base VideoRing.initWords m) =
        (v, shmVideoHeader.putAll base VideoRing.initWords m) := by
    intro f v hmem hv
    exact Prod.ext (VideoRing.init_word hmem hv base m) rfl
  rw [ShmVideoBuffer.attach, if_neg (Nat.not_le.mpr hsize)]
  simp only [run_bind, hword .magic videoMagic (by simp [VideoRing.initWords]) (by decide),
    hword .version videoVersion (by simp [VideoRing.initWords]) (by decide),
    hword .headerSize shmVideoHeader.size (by simp [VideoRing.initWords]) (by decide), ne_eq,
    not_true_eq_false, if_false, ShmVideoBuffer.refreshGeometry, ShmVideoBuffer.load,
    hword .frameSize 0 (by simp [VideoRing.initWords]) (by decide), if_true, pure_eq, run_ret]

end Attach

section Start

variable {video : Bool} {total base vbase vlen : ℕ} {before : Memory} {ring : ShmAudioBuffer}

theorem largest_prevPowerOfTwo {n : ℕ} (h : 0 < n) (husize : n < 2 ^ 64) :
    Largest (prevPowerOfTwo n) n := by
  refine ⟨prevPowerOfTwo_pow2 h husize, (prevPowerOfTwo_le h husize).1, ?_⟩
  rintro q ⟨k, _, rfl⟩ hle
  exact pow_le_prevPowerOfTwo hle husize

/-- The video ring is pinned to the first 16 MiB, and the rest has room for a header. -/
theorem video_split (h : videoRegion base total = some (vbase, vlen)) :
    ∃ cap, startCapacity true total = .ok cap ∧ shmHeader.size + cap ≤ audioRegionBytes ∧
      vbase = base + audioRegionBytes ∧ vbase + vlen = base + total ∧
      shmVideoHeader.size < vlen := by
  obtain ⟨hroom, hbase, hlen⟩ := videoRegion_some h
  have h192 : shmHeader.size = 192 := rfl
  have h16 : audioRegionBytes = 16777216 := rfl
  have hpublishes : Publishes true total := ⟨by omega, fun _ => by omega⟩
  have hle : modeCapacity true total ≤ audioRegionBytes - shmHeader.size :=
    (prevPowerOfTwo_le (by rw [if_pos rfl]; omega) (by rw [if_pos rfl]; omega)).1
  exact ⟨modeCapacity true total, startCapacity_publishes hpublishes, by omega, hbase,
    by omega, by omega⟩

theorem attach_started {m : Memory} (hptr : ring.hdr = 0)
    (hfits : ring.cap + shmHeader.size ≤ total)
    (hm : SameOutside (fun a => audioRegionBytes ≤ a)
      (shmHeader.putAll 0 (initWords ring.cap) before) m) :
    ((ShmAudioBuffer.attach 0 total).run access m).1 = .ok ring := by
  have hinit : (ShmAudioBuffer.init ring.hdr total ring.cap).run access before =
      (some ring, shmHeader.putAll ring.hdr (initWords ring.cap) before) := by
    rw [init_eq total hfits, Layout.run_storeAll]
  obtain ⟨_, _, _, hfresh⟩ := fresh_init hinit
  rw [hptr] at hfresh
  have h192 : shmHeader.size = 192 := rfl
  have h16 : audioRegionBytes = 16777216 := rfl
  have hword : ∀ f, word ring f m =
      word ring f (shmHeader.putAll 0 (initWords ring.cap) before) := by
    intro f
    rw [word, word, hptr]
    exact header_sameOutside hm (fun a ha => by omega) f
  have hattach := attach_header hfits ((hword _).trans hfresh.magic)
    ((hword _).trans hfresh.version) ((hword _).trans hfresh.headerSize)
    ((hword _).trans hfresh.capacity)
  rwa [hptr] at hattach

theorem startVideo_running (ring : ShmAudioBuffer) (m : Memory)
    (h : videoRegion 0 total = some (vbase, vlen)) :
    (startVideo true total ring).run access m =
      (.running ring (some ⟨vbase, vlen, 0, 0, 0⟩),
        shmVideoHeader.putAll vbase VideoRing.initWords m) := by
  obtain ⟨_, _, _, _, _, hsize⟩ := video_split h
  rw [startVideo, if_pos rfl, h]
  dsimp only
  rw [VideoRing.init_eq hsize, run_bind, Layout.run_storeAll]
  rfl

/-- No assertion fires: a start that is not refused has its handles. -/
theorem start_not_panicked (husize : total < 2 ^ 64) :
    ((hostStart video total).run access before).1 ≠ .panicked := by
  by_cases hpub : Publishes video total
  · obtain ⟨ring, hptr, hcap⟩ := exists_ring (modeCapacity_pow2 hpub husize)
    rw [start_eq hptr hcap hpub husize]
    cases video with
    | false => exact fun h => Started.noConfusion h
    | true =>
      cases hregion : videoRegion 0 total with
      | some region =>
        rw [startVideo_running ring _ hregion]
        intro h
        exact Started.noConfusion h
      | none =>
        rw [startVideo, if_pos rfl, hregion]
        intro h
        exact Started.noConfusion h
  · obtain ⟨msg, hrefused⟩ := start_refused hpub before
    rw [hrefused]
    intro h
    exact Started.noConfusion h

theorem startVideo_closed {ring' : ShmAudioBuffer} {vid : Option ShmVideoBuffer} {m m' : Memory}
    (h : (startVideo video total ring).run access m = (.running ring' vid, m')) :
    ring' = ring ∧ ∀ v, vid = some v → v.hdr = audioRegionBytes ∧
      shmVideoHeader.get v.hdr .frameSize m' = 0 := by
  cases video with
  | false =>
    cases h
    exact ⟨rfl, fun v hv => by cases hv⟩
  | true =>
    cases hregion : videoRegion 0 total with
    | none =>
      rw [startVideo, if_pos rfl, hregion] at h
      cases h
    | some region =>
      obtain ⟨vbase, vlen⟩ := region
      obtain ⟨_, hbase, _⟩ := videoRegion_some hregion
      rw [startVideo_running ring m hregion] at h
      obtain ⟨hstarted, rfl⟩ := Prod.mk.inj h
      obtain ⟨rfl, rfl⟩ := Started.running.inj hstarted
      refine ⟨rfl, fun v hv => ?_⟩
      rw [← Option.some.inj hv]
      exact ⟨hbase.trans (Nat.zero_add _),
        VideoRing.init_word (by simp [VideoRing.initWords]) (by decide) vbase m⟩

/-- Behind a start neither the format nor the geometry is published. -/
theorem start_closed {vid : Option ShmVideoBuffer} {m : Memory} (husize : total < 2 ^ 64)
    (h : (hostStart video total).run access before = (.running ring vid, m)) :
    ring.hdr = 0 ∧ word ring .frameBytes m = 0 ∧
      ∀ v, vid = some v → v.hdr = audioRegionBytes ∧
        shmVideoHeader.get v.hdr .frameSize m = 0 := by
  by_cases hpub : Publishes video total
  · obtain ⟨ring', hptr, hcap⟩ := exists_ring (modeCapacity_pow2 hpub husize)
    obtain ⟨_, hfits⟩ := modeCapacity_fits hpub husize
    rw [← hcap] at hfits
    rw [start_eq hptr hcap hpub husize] at h
    obtain ⟨rfl, hvideo⟩ := startVideo_closed h
    have hinit : (ShmAudioBuffer.init ring.hdr total ring.cap).run access before =
        (some ring, shmHeader.putAll ring.hdr (initWords ring.cap) before) := by
      rw [init_eq total hfits, Layout.run_storeAll]
    obtain ⟨_, _, _, hfresh⟩ := fresh_init hinit
    have hbehind : SameOutside (fun a => audioRegionBytes ≤ a)
        (shmHeader.putAll 0 (initWords ring.cap) before) m := by
      have hrun := (@storesOnly_startVideo video total ring).run
        (shmHeader.putAll 0 (initWords ring.cap) before)
      rwa [h] at hrun
    have h192 : shmHeader.size = 192 := rfl
    have h16 : audioRegionBytes = 16777216 := rfl
    refine ⟨hptr, ?_, hvideo⟩
    have hgate := hfresh.frameBytes
    rw [word, hptr] at hgate ⊢
    exact (header_sameOutside hbehind (fun a ha => by omega) .frameBytes).trans hgate
  · obtain ⟨msg, hrefused⟩ := start_refused hpub before
    rw [hrefused] at h
    cases h

/-- The region behind a start with this capacity: both sides' attaches succeed. -/
structure Accepted (video : Bool) (total cap : ℕ) (vid : Option ShmVideoBuffer) (m : Memory) :
    Prop where
  audio : ∃ ring, ring.cap = cap ∧ ((ShmAudioBuffer.attach 0 total).run access m).1 = .ok ring
  video : video = true → ∃ vbase vlen v, videoRegion 0 total = some (vbase, vlen) ∧
    vid = some v ∧ ((ShmVideoBuffer.attach vbase vlen).run access m).1 = .ok v

theorem start_accepted (hpub : Publishes video total) (husize : total < 2 ^ 64)
    (hregion : video = true → (videoRegion 0 total).isSome) (before : Memory) :
    ∃ ring vid m, (hostStart video total).run access before = (.running ring vid, m) ∧
      ring.cap = modeCapacity video total ∧
      Accepted video total (modeCapacity video total) vid m := by
  obtain ⟨ring, hptr, hcap⟩ := exists_ring (modeCapacity_pow2 hpub husize)
  obtain ⟨_, hfits⟩ := modeCapacity_fits hpub husize
  rw [← hcap] at hfits ⊢
  have hstart := start_eq hptr hcap hpub husize before
  have hbehind : SameOutside (fun a => audioRegionBytes ≤ a)
      (shmHeader.putAll 0 (initWords ring.cap) before)
      ((hostStart video total).run access before).2 :=
    hstart ▸ (storesOnly_startVideo ring).run _
  have haudio := attach_started hptr hfits hbehind
  cases video with
  | false =>
    rw [show startVideo false total ring = .ret (.running ring none) from rfl, run_ret] at hstart
    rw [hstart] at haudio
    refine ⟨ring, none, _, hstart, rfl, ⟨ring, rfl, haudio⟩, ?_⟩
    intro hvideo
    cases hvideo
  | true =>
    obtain ⟨⟨vbase, vlen⟩, hsome⟩ := Option.isSome_iff_exists.mp (hregion rfl)
    obtain ⟨_, _, _, _, _, hsize⟩ := video_split hsome
    rw [startVideo_running ring _ hsome] at hstart
    rw [hstart] at haudio
    refine ⟨ring, _, _, hstart, rfl, ⟨ring, rfl, haudio⟩, ?_⟩
    intro _
    exact ⟨vbase, vlen, _, hsome, rfl, attach_videoHeader hsize⟩

end Start

/-- What the host chooses passes every check that either side makes of it. -/
theorem host_sizing {total : ℕ} (hsize : shmHeader.size < total) (husize : total < 2 ^ 64) :
    Largest (prevPowerOfTwo (total - shmHeader.size)) (total - shmHeader.size) ∧
    (∀ base vbase vlen, videoRegion base total = some (vbase, vlen) →
      ∃ cap, startCapacity true total = .ok cap ∧ shmHeader.size + cap ≤ audioRegionBytes ∧
        vbase = base + audioRegionBytes ∧ vbase + vlen = base + total ∧
        shmVideoHeader.size < vlen) ∧
    (∀ video before, ((hostStart video total).run access before).1 ≠ .panicked) ∧
    (∀ video before, (video = true → (videoRegion 0 total).isSome) →
      ∃ cap ring vid m, startCapacity video total = .ok cap ∧
        (hostStart video total).run access before = (.running ring vid, m) ∧ ring.cap = cap ∧
        Accepted video total cap vid m) := by
  refine ⟨largest_prevPowerOfTwo (by omega) (by omega), fun _ _ _ => video_split,
    fun _ _ => start_not_panicked husize, ?_⟩
  intro video before hregion
  have hpub : Publishes video total := by
    refine ⟨hsize, fun hvideo => ?_⟩
    obtain ⟨⟨vbase, vlen⟩, hsome⟩ := Option.isSome_iff_exists.mp (hregion hvideo)
    have := (videoRegion_some hsome).1
    omega
  obtain ⟨ring, vid, m, hrun, hcap, haccepted⟩ := start_accepted hpub husize hregion before
  exact ⟨modeCapacity video total, ring, vid, m, startCapacity_publishes hpub, hrun, hcap,
    haccepted⟩

/-- The smallest regions: a ring of one byte, and one byte behind the header of the frames. -/
theorem host_sizing_smallest :
    (Largest (prevPowerOfTwo 1) 1 ∧
      ∃ cap ring vid m, startCapacity false 193 = .ok cap ∧
        (hostStart false 193).run access (fun _ => 0) = (.running ring vid, m) ∧ ring.cap = cap ∧
        Accepted false 193 cap vid m) ∧
    (∃ cap, startCapacity true 16777345 = .ok cap ∧ shmHeader.size + cap ≤ audioRegionBytes ∧
      shmVideoHeader.size < 129) ∧
    ∃ cap ring vid m, startCapacity true 16777345 = .ok cap ∧
      (hostStart true 16777345).run access (fun _ => 7) = (.running ring vid, m) ∧
      ring.cap = cap ∧ Accepted true 16777345 cap vid m := by
  obtain ⟨hlargest, -, -, haudio⟩ := @host_sizing 193 (by decide) (by decide)
  obtain ⟨-, hsplit, -, hvideo⟩ := @host_sizing 16777345 (by decide) (by decide)
  obtain ⟨cap, hcap, hfits, -, -, hsize⟩ := hsplit 0 audioRegionBytes 129 (by decide)
  exact ⟨⟨hlargest, haudio false (fun _ => 0) (by decide)⟩, ⟨cap, hcap, hfits, hsize⟩,
    hvideo true (fun _ => 7) (by decide)⟩

end HostSizing
