import Lalah.AudioTearFreedom
import Lalah.GatedRecord

/-! The format of a ring in use: the producer publishes it before its first push, and pushes
behind it leave it alone, so a poll at any time returns nothing or the format itself. -/
namespace FormatHandover

open InteractionProgram RelyGuarantee ByteMemory GatedRecord ShmContract AudioRing
open AudioTearFreedom

section Record

theorem formatWords_nodup (fmt : AudioFormat) : ((formatWords fmt).map Prod.fst).Nodup := by
  simp [formatWords]

theorem formatWords_fit (fmt : AudioFormat) (f : ShmField) (v : ℕ)
    (hmem : (f, v) ∈ formatWords fmt) : v < 256 ^ shmHeader.width f := by
  have hget := format_word hmem 0 fun _ => 0
  rw [← hget]
  exact shmHeader.get_lt _ _ _

theorem frameBytes_nonzero {fmt : AudioFormat} (h : fmt.frameBytes ≠ 0) :
    fmt.frameBytes.toNat ≠ 0 := fun hz => h (UInt32.toNat_inj.mp hz)

def formatRecord (ring : ShmAudioBuffer) (fmt : AudioFormat) (h : fmt.frameBytes ≠ 0) :
    Record shmHeader where
  base := ring.hdr
  words := [(.sampleRate, fmt.sampleRate.toNat), (.channels, fmt.channels.toNat),
    (.format, fmt.format.toU32)]
  gate := .frameBytes
  opens := fmt.frameBytes.toNat
  nodup := formatWords_nodup fmt
  fit := formatWords_fit fmt
  nonzero := frameBytes_nonzero h

variable {ring : ShmAudioBuffer} {fmt : AudioFormat} {h : fmt.frameBytes ≠ 0} {m m' : Memory}

theorem advances_words (hwords : ∀ f ∈ [ShmField.sampleRate, .channels, .format, .frameBytes],
    word ring f m' = word ring f m) : (formatRecord ring fmt h).Advances m m' := by
  have hcomplete : (formatRecord ring fmt h).Complete m →
      (formatRecord ring fmt h).Complete m' := by
    intro hc f v hmem
    have hfield : f ∈ [ShmField.sampleRate, .channels, .format, .frameBytes] :=
      List.mem_map_of_mem (f := Prod.fst) hmem
    exact (hwords f hfield).trans (hc f v hmem)
  refine ⟨fun hg => ?_, hcomplete⟩
  rcases hg with hclosed | hc
  · exact Or.inl ((hwords .frameBytes (by simp)).trans hclosed)
  · exact Or.inr (hcomplete hc)

theorem advances_head (hs : SameOutside (HeadCells ring) m m') :
    (formatRecord ring fmt h).Advances m m' := by
  apply advances_words
  intro f hf
  apply word_sameOutside hs
  rintro hhead
  obtain rfl := List.mem_singleton.mp hhead
  simp at hf

theorem word_pushCells {f : ShmField} (hf : f ∉ [ShmField.tail, ShmField.seq])
    (hs : SameOutside (PushCells ring) m m') : word ring f m' = word ring f m := by
  apply loadWord_congr
  intro i hi
  apply hs
  rintro (⟨g, hg, hlo, hhi⟩ | ⟨hlo, _⟩)
  · have hne : f ≠ g := fun e => hf (e ▸ hg)
    have := shmHeader.disjoint f g hne
    omega
  · have := shmHeader.inside f
    unfold ShmAudioBuffer.payload at hlo
    omega

theorem advances_push (hs : SameOutside (PushCells ring) m m') :
    (formatRecord ring fmt h).Advances m m' := by
  apply advances_words
  intro f hf
  apply word_pushCells _ hs
  intro hline
  simp only [List.mem_cons, List.not_mem_nil, or_false] at hf hline
  rcases hline with rfl | rfl <;> simp at hf

end Record

section Producer

variable (ring : ShmAudioBuffer) (fmt : AudioFormat) (h : fmt.frameBytes ≠ 0)

/-- From the publication on: the consumer moves its head, and between two calls of the producer
the format is there. -/
def formatTerms : Terms Access Memory (List (List UInt8)) where
  rely := SameOutside (HeadCells ring)
  allow := fun _ _ _ => True
  guar := (formatRecord ring fmt h).Advances
  during := fun _ _ => (formatRecord ring fmt h).Gated
  between := fun _ => (formatRecord ring fmt h).Complete
  follows := fun _ _ => True
  rely_refl := headCells_refl ring
  rely_trans := headCells_trans ring
  between_stable := fun _ _ _ hc hs => (advances_head hs).2 hc

variable {ring fmt h} {pushed c : List (List UInt8)} {m : Memory}

theorem safe_publish_format (hclosed : word ring .frameBytes m = 0) :
    Safe access (formatTerms ring fmt h) c (Ends (formatTerms ring fmt h) c)
      (startFormat ring fmt pushed) [] m := by
  apply safe_bind
  have hpublish := @Record.safe_publish_among _ _ (formatRecord ring fmt h) m _ _
    (formatTerms ring fmt h) c ()
    (fun _ made m => Safe access (formatTerms ring fmt h) c (Ends (formatTerms ring fmt h) c)
      (.ret pushed) made m) []
  apply hpublish
  · intro m m' hs f v hmem
    apply word_sameOutside hs
    intro hhead
    obtain rfl := List.mem_singleton.mp hhead
    simp [Record.all, formatRecord] at hmem
  · exact fun _ _ hg => hg
  · exact fun _ _ _ hadvance => hadvance
  · exact fun _ _ hc => ⟨hc, trivial⟩
  · exact hclosed

theorem safe_push_format (src : List UInt8) (hc : (formatRecord ring fmt h).Complete m) :
    Safe access (formatTerms ring fmt h) c (Ends (formatTerms ring fmt h) c)
      (startPush ring src pushed) [] m := by
  apply safe_bind
  have hpush : Safe access (formatTerms ring fmt h) c
      (fun _ _ => (formatRecord ring fmt h).Complete) (ring.pushOverwrite src) [] m := by
    apply safe_every (fun _ _ => trivial) _ (storesOnly_push src) hc
    intro made m m' hm hs
    have hm' := (@advances_head ring fmt h _ _ hs).2 hm
    refine ⟨Or.inr hm', fun op hop => ?_⟩
    have hadvance := @advances_push ring fmt h _ _ (hop.sameOutside m')
    exact ⟨hadvance, hadvance.2 hm'⟩
  exact safe_mono (fun _ _ _ hm => ⟨hm, trivial⟩) hpush

end Producer

section Poll

variable {C α : Type} {T : Terms Access Memory C} {c : C} {Q : α → List Access → Memory → Prop}
  {ring : ShmAudioBuffer} {fmt : AudioFormat} {h : fmt.frameBytes ≠ 0} {m : Memory}
  {k : Option AudioFormat → MemProg α} {made : List Access}

/-- A poll among others that advance the record finds the gate closed, or the whole format. -/
theorem safe_poll_format (hrely : ∀ m m', T.rely m m' → (formatRecord ring fmt h).Advances m m')
    (hfree : ∀ made m, (formatRecord ring fmt h).Gated m → T.during c made m ∧ T.guar m m)
    (hg : (formatRecord ring fmt h).Gated m)
    (hnone : ∀ made m, (formatRecord ring fmt h).Gated m → Safe access T c Q (k none) made m)
    (hsome : ∀ made m, (formatRecord ring fmt h).Complete m →
      Safe access T c Q (k (some fmt)) made m) :
    Safe access T c Q (ring.format >>= k) made m := by
  have hstable : ∀ m m', (formatRecord ring fmt h).Gated m →
      (formatRecord ring fmt h).Advances m m' → (formatRecord ring fmt h).Gated m' :=
    fun _ _ hg hs => hs.1 hg
  have hword : ∀ {f v} {next : ℕ → MemProg α} {made m}, (f, v) ∈ formatWords fmt →
      (formatRecord ring fmt h).Complete m →
      (∀ made m', (formatRecord ring fmt h).Complete m' → Safe access T c Q (next v) made m') →
      Safe access T c Q (ring.load f >>= next) made m :=
    fun hmem hc hk => Record.safe_complete (r := formatRecord ring fmt h) hrely hfree hstable
      hmem (Or.inr hc) hc fun made m' _ hc' => hk made m' hc'
  simp only [ShmAudioBuffer.format, bind_assoc]
  apply Record.safe_gate (r := formatRecord ring fmt h) hrely hfree hstable hg hg
  · intro made m' hg' _
    rw [if_pos rfl]
    exact hnone made m' hg'
  · intro made m₁ _ c₁
    rw [if_neg (formatRecord ring fmt h).nonzero, bind_assoc]
    apply hword (show (ShmField.format, fmt.format.toU32) ∈ _ by simp [formatWords]) c₁
    intro made m₂ c₂
    rw [fromU32_toU32]
    dsimp only
    rw [bind_assoc]
    apply hword (show (ShmField.sampleRate, fmt.sampleRate.toNat) ∈ _ by simp [formatWords]) c₂
    intro made m₃ c₃
    rw [bind_assoc]
    apply hword (show (ShmField.channels, fmt.channels.toNat) ∈ _ by simp [formatWords]) c₃
    intro made m₄ c₄
    have hgate : UInt32.ofNat (formatRecord ring fmt h).opens = fmt.frameBytes :=
      UInt32.ofNat_toNat
    rw [UInt32.ofNat_toNat, UInt32.ofNat_toNat, hgate]
    exact hsome _ m₄ c₄

end Poll

end FormatHandover
