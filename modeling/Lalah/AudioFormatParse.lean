import Lalah.AudioRing

/-! The two parsers of a Windows wave format, and what of it they pass on to the ring: the
sample format comes from the tag, the sub-format and the depth, the frame size unchecked
from the block alignment. -/
namespace AudioFormatParse

open InteractionProgram ByteMemory ShmContract AudioRing

abbrev Guid := BitVec 128

structure Platform where
  formatWaveFormatEx : Guid
  subtypePcm : Guid
  subtypeIeeeFloat : Guid
  sizeWaveFormatEx : ℕ
  sizeWaveFormatExtensible : ℕ

structure WaveFormatEx where
  wFormatTag : UInt16
  nChannels : UInt16
  nSamplesPerSec : UInt32
  nBlockAlign : UInt16
  wBitsPerSample : UInt16
  deriving DecidableEq, Repr

structure WaveFormatExtensible where
  format : WaveFormatEx
  subFormat : Guid
  deriving DecidableEq, Repr

/-- `pbFormat` is null or points at a format block, of which `cbFormat` bytes are valid. -/
structure AmMediaType where
  formattype : Guid
  cbFormat : UInt32
  pbFormat : Option WaveFormatExtensible
  deriving DecidableEq, Repr

def pcmTag : UInt16 := 1
def ieeeFloatTag : UInt16 := 3
def extensibleTag : UInt16 := 0xFFFE

/-- The end of both parsers: the depths that are carried, and the published record. -/
def wireFormat (isFloat : Bool) (wfx : WaveFormatEx) : Option AudioFormat := do
  let format ←
    if isFloat then
      if wfx.wBitsPerSample ≠ 32 then none else some SampleFormat.f32Le
    else if wfx.wBitsPerSample = 16 then some SampleFormat.s16Le
    else if wfx.wBitsPerSample = 32 then some SampleFormat.s32Le
    else none
  return ⟨wfx.nSamplesPerSec, wfx.nChannels.toUInt32, format, wfx.nBlockAlign.toUInt32⟩

/-- Any sub-format other than IEEE float is taken for PCM. -/
def parseAudioFormat (p : Platform) (w : WaveFormatExtensible) : Option AudioFormat :=
  let tag := w.format.wFormatTag
  let isFloat :=
    if tag = ieeeFloatTag then some true
    else if tag = pcmTag then some false
    else if tag = extensibleTag then some (decide (w.subFormat = p.subtypeIeeeFloat))
    else none
  isFloat.bind fun isFloat => wireFormat isFloat w.format

def parseWfx (p : Platform) (mt : AmMediaType) : Option AudioFormat :=
  match mt.pbFormat with
  | none => none
  | some ext =>
    if mt.formattype ≠ p.formatWaveFormatEx ∨ mt.cbFormat.toNat < p.sizeWaveFormatEx then none
    else
      let tag := ext.format.wFormatTag
      let isFloat :=
        if tag = ieeeFloatTag then some true
        else if tag = pcmTag then some false
        else if tag = extensibleTag then
          if mt.cbFormat.toNat < p.sizeWaveFormatExtensible then none
          else some (decide (ext.subFormat = p.subtypeIeeeFloat))
        else none
      isFloat.bind fun isFloat => wireFormat isFloat ext.format

/-- The format that a parser returned is PCM or IEEE float in whole frames, and the
consumer reads it back. -/
structure Published (p : Platform) (w : WaveFormatExtensible) (f : AudioFormat) : Prop where
  encoding : w.format.wFormatTag = pcmTag ∨ w.format.wFormatTag = ieeeFloatTag ∨
    w.format.wFormatTag = extensibleTag ∧
      (w.subFormat = p.subtypePcm ∨ w.subFormat = p.subtypeIeeeFloat)
  frame : f.frameBytes.toNat = f.channels.toNat * f.format.bytesPerSample
  nonzero : f.frameBytes ≠ 0
  readBack : ∀ (ring : ShmAudioBuffer) (m : Memory),
    ((ring.setFormat f >>= fun _ => ring.format).run access m).1 = some f

def Depth (isFloat : Bool) (wfx : WaveFormatEx) : Prop :=
  wfx.wBitsPerSample = 32 ∨ isFloat = false ∧ wfx.wBitsPerSample = 16

def Carried (p : Platform) (w : WaveFormatExtensible) : Prop :=
  w.format.wFormatTag = ieeeFloatTag ∧ Depth true w.format ∨
  w.format.wFormatTag = pcmTag ∧ Depth false w.format ∨
  w.format.wFormatTag = extensibleTag ∧
    Depth (decide (w.subFormat = p.subtypeIeeeFloat)) w.format

def Delivered (p : Platform) (mt : AmMediaType) (w : WaveFormatExtensible) : Prop :=
  mt.pbFormat = some w ∧ mt.formattype = p.formatWaveFormatEx ∧
    p.sizeWaveFormatEx ≤ mt.cbFormat.toNat ∧
    (w.format.wFormatTag = extensibleTag → p.sizeWaveFormatExtensible ≤ mt.cbFormat.toNat)

/-- The sub-format is one of the two, and the block is one sample of every channel. -/
def Consistent (p : Platform) (w : WaveFormatExtensible) : Prop :=
  (w.format.wFormatTag = extensibleTag →
    w.subFormat = p.subtypePcm ∨ w.subFormat = p.subtypeIeeeFloat) ∧
  w.format.nBlockAlign.toNat =
    w.format.nChannels.toNat * (w.format.wBitsPerSample.toNat / 8) ∧
  w.format.nBlockAlign ≠ 0

variable {p : Platform} {mt : AmMediaType} {w : WaveFormatExtensible} {f : AudioFormat}
  {isFloat : Bool} {wfx : WaveFormatEx}

theorem wireFormat_depth (h : wireFormat isFloat wfx = some f) : Depth isFloat wfx ∧
    f = ⟨wfx.nSamplesPerSec, wfx.nChannels.toUInt32, f.format, wfx.nBlockAlign.toUInt32⟩ ∧
    f.format.bytesPerSample = wfx.wBitsPerSample.toNat / 8 := by
  cases isFloat with
  | true =>
    by_cases hbits : wfx.wBitsPerSample = 32
    · obtain rfl : _ = f := by simpa [wireFormat, hbits] using h
      refine ⟨Or.inl hbits, rfl, ?_⟩
      rw [hbits]
      rfl
    · simp [wireFormat, hbits] at h
  | false =>
    by_cases hshort : wfx.wBitsPerSample = 16
    · obtain rfl : _ = f := by simpa [wireFormat, hshort] using h
      refine ⟨Or.inr ⟨rfl, hshort⟩, rfl, ?_⟩
      rw [hshort]
      rfl
    · by_cases hbits : wfx.wBitsPerSample = 32
      · obtain rfl : _ = f := by simpa [wireFormat, hbits] using h
        refine ⟨Or.inl hbits, rfl, ?_⟩
        rw [hbits]
        rfl
      · simp [wireFormat, hshort, hbits] at h

theorem wireFormat_some (h : Depth isFloat wfx) : ∃ f, wireFormat isFloat wfx = some f := by
  rcases h with hbits | ⟨rfl, hbits⟩
  · cases isFloat <;> simp [wireFormat, hbits]
  · simp [wireFormat, hbits]

theorem parseAudioFormat_some (h : parseAudioFormat p w = some f) :
    Carried p w ∧ ∃ isFloat, wireFormat isFloat w.format = some f := by
  rw [parseAudioFormat] at h
  by_cases hfloat : w.format.wFormatTag = ieeeFloatTag
  · rw [if_pos hfloat] at h
    have hwire : wireFormat true w.format = some f := h
    exact ⟨Or.inl ⟨hfloat, (wireFormat_depth hwire).1⟩, _, hwire⟩
  rw [if_neg hfloat] at h
  by_cases hpcm : w.format.wFormatTag = pcmTag
  · rw [if_pos hpcm] at h
    have hwire : wireFormat false w.format = some f := h
    exact ⟨Or.inr (Or.inl ⟨hpcm, (wireFormat_depth hwire).1⟩), _, hwire⟩
  rw [if_neg hpcm] at h
  by_cases hext : w.format.wFormatTag = extensibleTag
  · rw [if_pos hext] at h
    have hwire : wireFormat (decide (w.subFormat = p.subtypeIeeeFloat)) w.format = some f := h
    exact ⟨Or.inr (Or.inr ⟨hext, (wireFormat_depth hwire).1⟩), _, hwire⟩
  · rw [if_neg hext] at h
    cases h

theorem parseAudioFormat_carried (h : Carried p w) : ∃ f, parseAudioFormat p w = some f := by
  rw [parseAudioFormat]
  rcases h with ⟨htag, hdepth⟩ | ⟨htag, hdepth⟩ | ⟨htag, hdepth⟩
  · rw [htag]
    exact wireFormat_some hdepth
  · rw [htag]
    exact wireFormat_some hdepth
  · rw [htag]
    exact wireFormat_some hdepth

theorem parseWfx_delivered (h : Delivered p mt w) : parseWfx p mt = parseAudioFormat p w := by
  obtain ⟨hpb, htype, hsize, hextensible⟩ := h
  have hpass : ¬ (mt.formattype ≠ p.formatWaveFormatEx ∨
      mt.cbFormat.toNat < p.sizeWaveFormatEx) := by
    rintro (hne | hlt)
    · exact hne htype
    · omega
  rw [parseWfx, hpb]
  dsimp only
  rw [if_neg hpass]
  by_cases hext : w.format.wFormatTag = extensibleTag
  · rw [if_neg (Nat.not_lt.mpr (hextensible hext))]
    rfl
  · rw [if_neg hext, parseAudioFormat, if_neg hext]

theorem parseWfx_some (h : parseWfx p mt = some f) (hpb : mt.pbFormat = some w) :
    Delivered p mt w := by
  rw [parseWfx, hpb] at h
  dsimp only at h
  by_cases hpass : mt.formattype ≠ p.formatWaveFormatEx ∨ mt.cbFormat.toNat < p.sizeWaveFormatEx
  · rw [if_pos hpass] at h
    cases h
  rw [if_neg hpass] at h
  push Not at hpass
  refine ⟨hpb, hpass.1, hpass.2, fun hext => ?_⟩
  by_contra hshort
  rw [hext, if_neg (by decide), if_neg (by decide), if_pos rfl, if_pos (by omega)] at h
  cases h

/-- The consumer reads any format back but one whose frame size is the gate's zero. -/
theorem readBack_iff : (∀ (ring : ShmAudioBuffer) (m : Memory),
    ((ring.setFormat f >>= fun _ => ring.format).run access m).1 = some f) ↔ f.frameBytes ≠ 0 := by
  have hread : ∀ (ring : ShmAudioBuffer) (m : Memory),
      ((ring.setFormat f >>= fun _ => ring.format).run access m).1 =
        if f.frameBytes = 0 then none else some f := by
    intro ring m
    rw [run_bind, setFormat_eq, Layout.run_storeAll,
      run_format f _ fun g v hmem => format_word hmem ring.hdr m]
  constructor
  · intro h hzero
    have hnone := h ⟨0, 1, 0, by decide, rfl⟩ fun _ => 0
    rw [hread, if_pos hzero] at hnone
    cases hnone
  · intro hne ring m
    rw [hread, if_neg hne]

theorem published_iff (h : parseAudioFormat p w = some f) : Published p w f ↔ Consistent p w := by
  obtain ⟨hcarried, isFloat, hwire⟩ := parseAudioFormat_some h
  obtain ⟨_, hf, hbytes⟩ := wireFormat_depth hwire
  have hframe : f.frameBytes.toNat = w.format.nBlockAlign.toNat := by rw [hf]; rfl
  have hchannels : f.channels.toNat = w.format.nChannels.toNat := by rw [hf]; rfl
  have hzero : f.frameBytes = 0 ↔ w.format.nBlockAlign = 0 := by
    rw [← UInt32.toNat_inj, ← UInt16.toNat_inj, hframe]
    rfl
  constructor
  · intro hpub
    refine ⟨fun hext => ?_, ?_, fun hz => hpub.nonzero (hzero.mpr hz)⟩
    · rcases hpub.encoding with hpcm | hfloat | ⟨_, hsub⟩
      · exact absurd (hext.symm.trans hpcm) (by decide)
      · exact absurd (hext.symm.trans hfloat) (by decide)
      · exact hsub
    · rw [← hframe, ← hchannels, ← hbytes]
      exact hpub.frame
  · rintro ⟨hsub, hblock, hne⟩
    have hnonzero : f.frameBytes ≠ 0 := fun hz => hne (hzero.mp hz)
    refine ⟨?_, ?_, hnonzero, readBack_iff.mpr hnonzero⟩
    · rcases hcarried with ⟨htag, _⟩ | ⟨htag, _⟩ | ⟨htag, _⟩
      · exact Or.inr (Or.inl htag)
      · exact Or.inl htag
      · exact Or.inr (Or.inr ⟨htag, hsub htag⟩)
    · rw [hframe, hchannels, hbytes]
      exact hblock

/-- What either parser lets through is well formed exactly when the description itself is:
neither parser compares the block with the channels and the depth, and both take every
sub-format but IEEE float for PCM. -/
theorem parse_published_iff (p : Platform) (mt : AmMediaType) (w : WaveFormatExtensible) :
    ((∀ ext f, mt.pbFormat = some ext → parseWfx p mt = some f → Published p ext f) ↔
      ∀ ext, Delivered p mt ext → Carried p ext → Consistent p ext) ∧
    ((∀ f, parseAudioFormat p w = some f → Published p w f) ↔ (Carried p w → Consistent p w)) := by
  refine ⟨⟨fun h ext hdelivered hcarried => ?_, fun h ext f hpb hparse => ?_⟩,
    fun h hcarried => ?_, fun h f hparse => ?_⟩
  · obtain ⟨f, hparse⟩ := parseAudioFormat_carried hcarried
    exact (published_iff hparse).mp
      (h ext f hdelivered.1 ((parseWfx_delivered hdelivered).trans hparse))
  · have hdelivered := parseWfx_some hparse hpb
    rw [parseWfx_delivered hdelivered] at hparse
    exact (published_iff hparse).mpr (h ext hdelivered (parseAudioFormat_some hparse).1)
  · obtain ⟨f, hparse⟩ := parseAudioFormat_carried hcarried
    exact (published_iff hparse).mp (h f hparse)
  · exact (published_iff hparse).mpr (h (parseAudioFormat_some hparse).1)

def windows : Platform where
  formatWaveFormatEx := 0x05589f81c35611cebf0100aa0055595a
  subtypePcm := 0x0000000100000010800000aa00389b71
  subtypeIeeeFloat := 0x0000000300000010800000aa00389b71
  sizeWaveFormatEx := 18
  sizeWaveFormatExtensible := 40

/-- Compressed audio over an S/PDIF frame, as a capture card may report it. -/
def dolbyDigital : WaveFormatExtensible where
  format := ⟨extensibleTag, 2, 48000, 4, 16⟩
  subFormat := 0x0000009200000010800000aa00389b71

theorem dolbyDigital_not_published (f : AudioFormat) : ¬ Published windows dolbyDigital f := by
  intro hpub
  rcases hpub.encoding with htag | htag | ⟨_, hsub⟩
  · exact absurd htag (by decide)
  · exact absurd htag (by decide)
  · exact absurd hsub (by decide)

theorem parse_published_dolbyDigital :
    (¬ ∀ ext f, some dolbyDigital = some ext →
      parseWfx windows ⟨windows.formatWaveFormatEx, 40, some dolbyDigital⟩ = some f →
        Published windows ext f) ∧
    ¬ ∀ f, parseAudioFormat windows dolbyDigital = some f → Published windows dolbyDigital f :=
  ⟨fun h => dolbyDigital_not_published ⟨48000, 2, .s16Le, 4⟩ (h _ _ rfl (by decide)),
    fun h => dolbyDigital_not_published ⟨48000, 2, .s16Le, 4⟩ (h _ (by decide))⟩

end AudioFormatParse
