import Lalah.RelyGuarantee
import Lalah.StreamWindow
import Lalah.ShmContract

/-! What one `push_overwrite` does to the ring while the consumer moves the head: the
stream that the completed pushes have published, the state between pushes (`Quiet`), and
the seqlock discipline inside one (`producerTerms`). -/
namespace AudioRing

open InteractionProgram RelyGuarantee ByteMemory StreamWindow ShmContract

variable (ring : ShmAudioBuffer)

def word (f : ShmField) (m : Memory) : ℕ := shmHeader.get ring.hdr f m

def cell (m : Memory) (i : ℕ) : UInt8 := m (ring.payload + i)

theorem cap_pos : 0 < ring.cap := by
  obtain ⟨k, _, hk⟩ := ring.pow2
  rw [hk]
  exact Nat.two_pow_pos k

theorem cap_dvd : ring.cap ∣ 2 ^ 64 := by
  obtain ⟨k, hk, h⟩ := ring.pow2
  rw [h]
  exact Nat.pow_dvd_pow 2 (by omega)

theorem mask_eq (pos : ℕ) : ring.mask pos = pos % ring.cap := by
  obtain ⟨k, _, h⟩ := ring.pow2
  rw [ShmAudioBuffer.mask, h, Nat.and_two_pow_sub_one_eq_mod]

theorem mask_wrapped (pos : ℕ) : ring.mask (pos % 2 ^ 64) = pos % ring.cap := by
  rw [mask_eq, Nat.mod_mod_of_dvd _ (cap_dvd ring)]

theorem kept_length (src : List UInt8) : (ring.kept src).length = min src.length ring.cap := by
  unfold ShmAudioBuffer.kept
  split <;> simp <;> omega

abbrev HeadCells : ℕ → Prop := shmHeader.Cells ring.hdr [.head]

abbrev FormatCells : ℕ → Prop :=
  shmHeader.Cells ring.hdr [.sampleRate, .channels, .format, .frameBytes]

theorem word_sameOutside {ring : ShmAudioBuffer} {fs : List ShmField} {f : ShmField}
    {m m' : Memory} (h : SameOutside (shmHeader.Cells ring.hdr fs) m m') (hf : f ∉ fs) :
    word ring f m' = word ring f m := shmHeader.get_sameOutside hf h

theorem cell_sameOutside {ring : ShmAudioBuffer} {fs : List ShmField} {m m' : Memory}
    (h : SameOutside (shmHeader.Cells ring.hdr fs) m m') (i : ℕ) :
    cell ring m' i = cell ring m i := by
  apply h
  intro hc
  have := (shmHeader.cells_inside hc).2
  unfold ShmAudioBuffer.payload at this
  omega

theorem word_tail_lt (m : Memory) : word ring .tail m < 2 ^ 64 := by
  have hlt := shmHeader.get_lt ring.hdr .tail m
  have hwidth : 256 ^ shmHeader.width .tail = 2 ^ 64 := by decide
  rwa [hwidth] at hlt

theorem cell_put (g : ShmField) (v : ℕ) (m : Memory) (i : ℕ) :
    cell ring (shmHeader.put ring.hdr g v m) i = cell ring m i :=
  shmHeader.put_outside _ _ _ _ (Or.inr (by unfold ShmAudioBuffer.payload; omega))

theorem word_storeByte (f : ShmField) (i v : ℕ) (m : Memory) :
    word ring f (storeWord m 1 (ring.payload + i) v) = word ring f m :=
  shmHeader.get_store_after _ _ _ (by unfold ShmAudioBuffer.payload; omega)

/-- The bytes that the pushes have put into the ring, oldest first. -/
def stream (pushed : List (List UInt8)) : List UInt8 := pushed.flatMap ring.kept

def writes (pushed : List (List UInt8)) : ℕ := (pushed.filter (· ≠ [])).length

structure Quiet (pushed : List (List UInt8)) (m : Memory) : Prop where
  seq : word ring .seq m = 2 * writes pushed % 2 ^ 64
  tail : word ring .tail m = (stream ring pushed).length % 2 ^ 64
  live : Retains ring.cap ring.cap (cell ring m) (stream ring pushed)

/-- Between the two stores to `seq`: the ring holds the newest bytes of `S`. -/
structure Writing (count tail : ℕ) (S : List UInt8) (m : Memory) : Prop where
  seq : word ring .seq m = (2 * count + 1) % 2 ^ 64
  tail : word ring .tail m = tail % 2 ^ 64
  live : Retains ring.cap ring.cap (cell ring m) S

def StoresWord (f : ShmField) : Access → Prop
  | .load _ _ => False
  | .store w a _ => w = shmHeader.width f ∧ a = ring.hdr + shmHeader.offset f

instance (f : ShmField) (op : Access) : Decidable (StoresWord ring f op) :=
  match op with
  | .load _ _ => inferInstanceAs (Decidable False)
  | .store _ _ _ => inferInstanceAs (Decidable (_ ∧ _))

def Opened (made : List Access) : Prop := ∃ op ∈ made, StoresWord ring .seq op

instance (made : List Access) : Decidable (Opened ring made) :=
  inferInstanceAs (Decidable (∃ op ∈ made, StoresWord ring .seq op))

structure Fresh (m : Memory) : Prop where
  magic : word ring .magic m = shmMagic
  version : word ring .version m = shmVersion
  headerSize : word ring .headerSize m = shmHeader.size
  capacity : word ring .capacity m = ring.cap
  frameBytes : word ring .frameBytes m = 0
  head : word ring .head m = 0
  tail : word ring .tail m = 0
  seq : word ring .seq m = 0

theorem headCells_refl (m : Memory) : SameOutside (HeadCells ring) m m := sameOutside_refl _ m

theorem headCells_trans (m m' m'' : Memory) (h : SameOutside (HeadCells ring) m m')
    (k : SameOutside (HeadCells ring) m' m'') : SameOutside (HeadCells ring) m m'' := h.trans k

/-- The others move the head only. A store of the producer either moves `seq` by one, or
leaves it; and while `seq` is even, nothing but the format words changes. -/
def producerTerms : Terms Access Memory (List (List UInt8)) where
  rely := SameOutside (HeadCells ring)
  allow := fun _ _ _ => True
  guar m m' := word ring .seq m' = (word ring .seq m + 1) % 2 ^ 64 ∨
    word ring .seq m' = word ring .seq m ∧
      (word ring .seq m % 2 = 0 → SameOutside (FormatCells ring) m m')
  during pushed made m := ¬ Opened ring made ∧ Quiet ring pushed m ∨
    Opened ring made ∧ word ring .seq m = (2 * writes pushed + 1) % 2 ^ 64
  between := Quiet ring
  follows pushed pushed' := pushed' = pushed ∨ ∃ src, pushed' = pushed ++ [src]
  rely_refl := headCells_refl ring
  rely_trans := headCells_trans ring
  between_stable := fun _ _ _ h hs => by
    refine ⟨?_, ?_, h.live.congr (fun i _ => (cell_sameOutside hs i).symm) (cap_pos ring)⟩
    · rw [word_sameOutside hs (by decide)]; exact h.seq
    · rw [word_sameOutside hs (by decide)]; exact h.tail

variable {ring}

def initWords (cap : ℕ) : List (ShmField × ℕ) :=
  [(.headerSize, shmHeader.size), (.capacity, cap), (.sampleRate, 0), (.channels, 0),
    (.format, 0), (.frameBytes, 0), (.head, 0), (.tail, 0), (.seq, 0), (.version, shmVersion),
    (.magic, shmMagic)]

theorem initWords_nodup (cap : ℕ) : ((initWords cap).map Prod.fst).Nodup := by
  simp [initWords]

theorem init_eq (total : ℕ) (hcap : ring.cap + shmHeader.size ≤ total) :
    ShmAudioBuffer.init ring.hdr total ring.cap =
      shmHeader.storeAll ring.hdr (some ring) (initWords ring.cap) := by
  have hpos := cap_pos ring
  have htotal : ¬ total ≤ shmHeader.size := by omega
  have hfits : ¬ ring.cap > total - shmHeader.size := by omega
  unfold ShmAudioBuffer.init
  simp only [htotal, ring.pow2, hfits, if_false, dite_true]
  rfl

theorem init_some {ptr total cap : ℕ} {before m : Memory}
    (h : (ShmAudioBuffer.init ptr total cap).run access before = (some ring, m)) :
    ring.hdr = ptr ∧ ring.cap = cap ∧ cap + shmHeader.size ≤ total := by
  unfold ShmAudioBuffer.init at h
  by_cases htotal : total ≤ shmHeader.size
  · simp [htotal] at h
  by_cases hpow : IsPowerOfTwo cap
  · by_cases hcap : cap > total - shmHeader.size
    · simp [htotal, hpow, hcap] at h
    · simp only [htotal, hpow, hcap, if_false, dite_true] at h
      obtain rfl : (⟨ptr, cap, hpow⟩ : ShmAudioBuffer) = ring := Option.some.inj (Prod.mk.inj h).1
      exact ⟨rfl, rfl, by omega⟩
  · simp [htotal, hpow] at h

theorem cap_lt : ring.cap < 2 ^ 64 := by
  obtain ⟨k, hk, h⟩ := ring.pow2
  rw [h]
  exact Nat.pow_lt_pow_right (by decide) hk

/-- A region on which `init` has succeeded holds an empty ring of that capacity. -/
theorem fresh_init {ptr total cap : ℕ} {before m : Memory}
    (h : (ShmAudioBuffer.init ptr total cap).run access before = (some ring, m)) :
    ring.hdr = ptr ∧ ring.cap = cap ∧ cap + shmHeader.size ≤ total ∧ Fresh ring m := by
  obtain ⟨rfl, rfl, hcap⟩ := init_some h
  refine ⟨rfl, rfl, hcap, ?_⟩
  rw [init_eq total hcap, Layout.run_storeAll] at h
  obtain rfl : shmHeader.putAll ring.hdr (initWords ring.cap) before = m := (Prod.mk.inj h).2
  have hword : ∀ f v, (f, v) ∈ initWords ring.cap → v < 256 ^ shmHeader.width f →
      word ring f (shmHeader.putAll ring.hdr (initWords ring.cap) before) = v := by
    intro f v hmem hlt
    have hget := shmHeader.get_putAll_of_mem ring.hdr before (initWords_nodup ring.cap) hmem
    rwa [Nat.mod_eq_of_lt hlt] at hget
  constructor
  case capacity =>
    have hwidth : 256 ^ shmHeader.width .capacity = 2 ^ 64 := by decide
    exact hword _ _ (by simp [initWords]) (by rw [hwidth]; exact cap_lt)
  all_goals exact hword _ _ (by simp [initWords]) (by decide)

theorem quiet_fresh {m : Memory} (h : Fresh ring m) : Quiet ring [] m :=
  ⟨h.seq, h.tail, retains_nil⟩

section Rules

variable {C : Type} {T : Terms Access Memory C} {c : C} {α : Type}
  {Q : α → List Access → Memory → Prop} {made : List Access} {m : Memory}

theorem safe_load {f : ShmField} {k : ℕ → MemProg α}
    (h : ∀ m', T.rely m m' → T.during c made m' ∧ (T.allow c made m' →
      T.guar m' m' ∧ Safe access T c Q (k (word ring f m'))
        (.load (shmHeader.width f) (ring.hdr + shmHeader.offset f) :: made) m')) :
    Safe access T c Q (ring.load f >>= k) made m := shmHeader.safe_load h

theorem safe_store {f : ShmField} {v : ℕ} {k : Unit → MemProg α}
    (h : ∀ m', T.rely m m' → T.during c made m' ∧ (T.allow c made m' →
      T.guar m' (shmHeader.put ring.hdr f v m') ∧ Safe access T c Q (k ())
        (.store (shmHeader.width f) (ring.hdr + shmHeader.offset f) v :: made)
        (shmHeader.put ring.hdr f v m'))) :
    Safe access T c Q (ring.store f v >>= k) made m := shmHeader.safe_store h

theorem safe_storeByte {a : ℕ} {b : UInt8} {k : Unit → MemProg α}
    (h : ∀ m', T.rely m m' → T.during c made m' ∧ (T.allow c made m' →
      T.guar m' (storeWord m' 1 a b.toNat) ∧ Safe access T c Q (k ())
        (.store 1 a b.toNat :: made) (storeWord m' 1 a b.toNat))) :
    Safe access T c Q (ByteMemory.store 1 a b.toNat >>= k) made m := h

end Rules

variable {pushed : List (List UInt8)} {count tail : ℕ} {S src : List UInt8}
  {made : List Access} {m m' : Memory}

theorem writing_stable (h : Writing ring count tail S m)
    (hs : SameOutside (HeadCells ring) m m') : Writing ring count tail S m' := by
  refine ⟨?_, ?_, h.live.congr (fun i _ => (cell_sameOutside hs i).symm) (cap_pos ring)⟩
  · rw [word_sameOutside hs (by decide)]; exact h.seq
  · rw [word_sameOutside hs (by decide)]; exact h.tail

theorem writing_byte (b : UInt8) (h : Writing ring count tail S m) :
    Writing ring count tail (S ++ [b])
      (storeWord m 1 (ring.payload + S.length % ring.cap) b.toNat) := by
  refine ⟨?_, ?_, ?_⟩
  · rw [word_storeByte]; exact h.seq
  · rw [word_storeByte]; exact h.tail
  · refine h.live.write (cap_pos ring) (fun i _ hne => ?_) (storeWord_one _ _ _)
    exact storeWord_outside (by omega)

theorem opened_cons {op : Access} :
    Opened ring (op :: made) ↔ StoresWord ring .seq op ∨ Opened ring made := by
  simp [Opened]

theorem not_opened_nil : ¬ Opened ring [] := by simp [Opened]

theorem Opened.cons (h : Opened ring made) (op : Access) : Opened ring (op :: made) :=
  opened_cons.mpr (Or.inr h)

theorem opened_store (v : ℕ) : Opened ring
    (.store (shmHeader.width .seq) (ring.hdr + shmHeader.offset .seq) v :: made) :=
  opened_cons.mpr (Or.inl ⟨rfl, rfl⟩)

theorem not_opened_load (h : ¬ Opened ring made) (w a : ℕ) :
    ¬ Opened ring (.load w a :: made) := by
  rw [opened_cons]
  intro ho
  exact ho.elim id h

theorem not_opened_word (h : ¬ Opened ring made) {f : ShmField} (hf : f ≠ .seq) (v : ℕ) :
    ¬ Opened ring (.store (shmHeader.width f) (ring.hdr + shmHeader.offset f) v :: made) := by
  rw [opened_cons]
  rintro (⟨_, ha⟩ | ho)
  · have hdisjoint := shmHeader.disjoint f .seq hf
    have hwidth : 0 < shmHeader.width f := by cases f <;> decide
    have hseq : shmHeader.width .seq = 8 := rfl
    omega
  · exact h ho

theorem guar_refl (m : Memory) : (producerTerms ring).guar m m :=
  Or.inr ⟨rfl, fun _ => sameOutside_refl _ _⟩

/-- Inside the seqlock the sequence word is odd, so nothing is promised about the rest. -/
theorem guar_of_writing (h : Writing ring count tail S m)
    (hseq : word ring .seq m' = word ring .seq m) : (producerTerms ring).guar m m' :=
  Or.inr ⟨hseq, fun heven => absurd heven (by rw [h.seq]; omega)⟩

theorem safe_copyTo (src : List UInt8) (hopen : Opened ring made)
    (h : Writing ring (writes pushed) tail S m)
    (hfit : S.length % ring.cap + src.length ≤ ring.cap) :
    Safe access (producerTerms ring) pushed
      (fun _ made m => Opened ring made ∧ Writing ring (writes pushed) tail (S ++ src) m)
      (volatileCopyTo (ring.payload + S.length % ring.cap) src) made m := by
  induction src generalizing S made m with
  | nil => exact ⟨hopen, by simpa using h⟩
  | cons b src ih =>
    apply safe_storeByte
    intro m' hs
    have hw := writing_stable h hs
    refine ⟨Or.inr ⟨hopen, hw.seq⟩, fun _ => ⟨guar_of_writing hw (word_storeByte _ _ _ _ _), ?_⟩⟩
    cases src with
    | nil => exact ⟨hopen.cons _, writing_byte b hw⟩
    | cons b' src =>
      -- the next byte goes to the next cell: the copy has not reached the ring boundary
      have hnext : (S ++ [b]).length % ring.cap = S.length % ring.cap + 1 := by
        simp only [List.length_append, List.length_cons] at hfit ⊢
        exact cell_succ (by omega)
      have hrest := ih (hopen.cons (.store 1 (ring.payload + S.length % ring.cap) b.toNat))
        (writing_byte b hw) (by rw [hnext]; simp only [List.length_cons] at hfit ⊢; omega)
      rw [hnext, List.append_assoc] at hrest
      exact hrest

/-- The copy split at the ring boundary writes every byte into the next cell. -/
theorem safe_copyIn (hopen : Opened ring made) (h : Writing ring (writes pushed) tail S m)
    (hfit : src.length ≤ ring.cap) :
    Safe access (producerTerms ring) pushed
      (fun _ made m => Opened ring made ∧ Writing ring (writes pushed) tail (S ++ src) m)
      (ring.copyIn (S.length % ring.cap) src) made m := by
  unfold ShmAudioBuffer.copyIn
  split
  next hstart => exact safe_copyTo src hopen h hstart
  next hstart =>
    have hlt := Nat.mod_lt S.length (cap_pos ring)
    have hfirst : (src.take (ring.cap - S.length % ring.cap)).length =
        ring.cap - S.length % ring.cap := by
      rw [List.length_take]; omega
    refine safe_bind (safe_mono ?_ (safe_copyTo (src.take (ring.cap - S.length % ring.cap))
      hopen h (by omega)))
    rintro _ made m ⟨hopen, hw⟩
    have hzero : (S ++ src.take (ring.cap - S.length % ring.cap)).length % ring.cap = 0 := by
      rw [List.length_append, hfirst]
      exact cell_wrap (by omega)
    have hrest := safe_copyTo (src.drop (ring.cap - S.length % ring.cap)) hopen hw (by
      rw [hzero, List.length_drop]; omega)
    rw [hzero, List.append_assoc, List.take_append_drop] at hrest
    exact hrest

theorem stream_snoc (pushed : List (List UInt8)) (src : List UInt8) :
    stream ring (pushed ++ [src]) = stream ring pushed ++ ring.kept src := by
  simp [stream]

theorem stream_mono {pushed pushed' : List (List UInt8)} (h : pushed <+: pushed') :
    stream ring pushed <+: stream ring pushed' := by
  obtain ⟨more, rfl⟩ := h
  rw [stream, stream, List.flatMap_append]
  exact List.prefix_append _ _

theorem kept_eq_nil : ring.kept src = [] ↔ src = [] := by
  have hcap := cap_pos ring
  rw [← List.length_eq_zero_iff, kept_length, ← List.length_eq_zero_iff]
  omega

theorem writes_snoc (pushed : List (List UInt8)) (h : src ≠ []) :
    writes (pushed ++ [src]) = writes pushed + 1 := by
  simp [writes, h]

theorem quiet_snoc_nil (h : Quiet ring pushed m) : Quiet ring (pushed ++ [[]]) m := by
  have hw : writes (pushed ++ [[]]) = writes pushed := by simp [writes]
  have hs : stream ring (pushed ++ [[]]) = stream ring pushed := by
    rw [stream_snoc, kept_eq_nil.mpr rfl, List.append_nil]
  exact ⟨hw ▸ h.seq, hs ▸ h.tail, hs ▸ h.live⟩

theorem quiet_open (h : Quiet ring pushed m) :
    Writing ring (writes pushed) (stream ring pushed).length (stream ring pushed)
      (shmHeader.put ring.hdr .seq (wrappingAdd (2 * writes pushed % 2 ^ 64) 1) m) := by
  refine ⟨?_, ?_, h.live.congr (fun i _ => (cell_put ring _ _ _ i).symm) (cap_pos ring)⟩
  · rw [word, shmHeader.get_put]
    show wrappingAdd _ _ % 256 ^ 8 = _
    unfold wrappingAdd
    omega
  · rw [word, shmHeader.get_put_ne _ (by decide)]; exact h.tail

theorem writing_tail (h : Writing ring count tail S m) (new : ℕ) :
    Writing ring count new S (shmHeader.put ring.hdr .tail (new % 2 ^ 64) m) := by
  refine ⟨?_, ?_, h.live.congr (fun i _ => (cell_put ring _ _ _ i).symm) (cap_pos ring)⟩
  · rw [word, shmHeader.get_put_ne _ (by decide)]; exact h.seq
  · rw [word, shmHeader.get_put]
    show new % 2 ^ 64 % 256 ^ 8 = _
    omega

theorem writing_close (hsrc : src ≠ []) (h : Writing ring (writes pushed)
      (stream ring (pushed ++ [src])).length (stream ring (pushed ++ [src])) m) :
    Quiet ring (pushed ++ [src])
      (shmHeader.put ring.hdr .seq (wrappingAdd (2 * writes pushed % 2 ^ 64) 2) m) := by
  refine ⟨?_, ?_, h.live.congr (fun i _ => (cell_put ring _ _ _ i).symm) (cap_pos ring)⟩
  · rw [word, shmHeader.get_put, writes_snoc _ hsrc]
    show wrappingAdd _ _ % 256 ^ 8 = _
    unfold wrappingAdd
    omega
  · rw [word, shmHeader.get_put_ne _ (by decide)]; exact h.tail

/-- The whole push: two loads that change nothing, the seqlock opened, the kept bytes
copied behind the stream, the new tail, the seqlock closed. -/
theorem safe_push (src : List UInt8) (h : Quiet ring pushed m) :
    Safe access (producerTerms ring) pushed (Ends (producerTerms ring) pushed)
      (ring.pushOverwrite src >>= fun _ => .ret (pushed ++ [src])) [] m := by
  by_cases hsrc : src = []
  · subst hsrc
    have hk : ring.kept [] = [] := kept_eq_nil.mpr rfl
    rw [ShmAudioBuffer.pushOverwrite, hk]
    exact ⟨quiet_snoc_nil h, Or.inr ⟨[], rfl⟩⟩
  have hn : (ring.kept src).length ≠ 0 := fun hl =>
    hsrc (kept_eq_nil.mp (List.length_eq_zero_iff.mp hl))
  simp only [ShmAudioBuffer.pushOverwrite, hn, if_false, bind_assoc]
  have hidle : ¬ Opened ring ([] : List Access) := not_opened_nil
  have hstable := (producerTerms ring).between_stable pushed
  apply safe_load
  intro m₁ h₁
  have q₁ := hstable _ _ h h₁
  refine ⟨Or.inl ⟨hidle, q₁⟩, fun _ => ⟨guar_refl _, safe_load fun m₂ h₂ => ?_⟩⟩
  have q₂ := hstable _ _ q₁ h₂
  have hidle := not_opened_load hidle (shmHeader.width .tail) (ring.hdr + shmHeader.offset .tail)
  refine ⟨Or.inl ⟨hidle, q₂⟩, fun _ => ⟨guar_refl _, safe_store fun m₃ h₃ => ?_⟩⟩
  have q₃ := hstable _ _ q₂ h₃
  have hidle := not_opened_load hidle (shmHeader.width .seq) (ring.hdr + shmHeader.offset .seq)
  rw [q₁.tail, q₂.seq, mask_wrapped]
  have hw := quiet_open q₃
  refine ⟨Or.inl ⟨hidle, q₃⟩, fun _ => ⟨Or.inl ?_, ?_⟩⟩
  · rw [hw.seq, q₃.seq]; omega
  refine safe_bind (safe_mono ?_ (safe_copyIn (opened_store _) hw ?_))
  · rintro _ made m₄ ⟨hopen, hw⟩
    apply safe_store
    intro m₅ h₅
    have w₅ := writing_stable hw h₅
    refine ⟨Or.inr ⟨hopen, w₅.seq⟩, fun _ =>
      ⟨guar_of_writing w₅ (shmHeader.get_put_ne _ (by decide) _ _), safe_store fun m₆ h₆ => ?_⟩⟩
    have hlen : wrappingAdd ((stream ring pushed).length % 2 ^ 64) (ring.kept src).length =
        (stream ring (pushed ++ [src])).length % 2 ^ 64 := by
      rw [stream_snoc, List.length_append]
      unfold wrappingAdd
      omega
    have w₆ := writing_stable (writing_tail w₅ (stream ring (pushed ++ [src])).length)
      (hlen ▸ h₆)
    refine ⟨Or.inr ⟨hopen.cons _, w₆.seq⟩, fun _ => ⟨Or.inl ?_, ?_⟩⟩
    · rw [word, shmHeader.get_put, w₆.seq]
      show wrappingAdd _ _ % 256 ^ 8 = _
      unfold wrappingAdd
      omega
    · rw [← stream_snoc] at w₆
      exact ⟨writing_close hsrc w₆, Or.inr ⟨src, rfl⟩⟩
  · rw [kept_length]; omega

def PayloadCells (ring : ShmAudioBuffer) (a : ℕ) : Prop :=
  ring.payload ≤ a ∧ a < ring.payload + ring.cap

def PushCells (ring : ShmAudioBuffer) (a : ℕ) : Prop :=
  shmHeader.Cells ring.hdr [.tail, .seq] a ∨ PayloadCells ring a

theorem word_payload {f : ShmField} (h : SameOutside (PayloadCells ring) m m') :
    word ring f m' = word ring f m := by
  apply loadWord_congr
  intro i hi
  apply h
  rintro ⟨hlo, _⟩
  have := shmHeader.inside f
  unfold ShmAudioBuffer.payload at hlo
  omega

theorem storesOnly_copyTo (start : ℕ) (src : List UInt8) (h : start + src.length ≤ ring.cap) :
    StoresOnly (PayloadCells ring) (volatileCopyTo (ring.payload + start) src) := by
  induction src generalizing start with
  | nil => trivial
  | cons b src ih =>
    rw [List.length_cons] at h
    refine storesOnly_store (fun x hlo hhi => ⟨by omega, by omega⟩) ?_
    rw [Nat.add_assoc]
    exact ih (start + 1) (by omega)

theorem storesOnly_copyIn (pos : ℕ) (src : List UInt8) :
    StoresOnly (PayloadCells ring) (ring.copyIn (ring.mask pos) (ring.kept src)) := by
  have hstart : ring.mask pos < ring.cap := by
    rw [mask_eq]
    exact Nat.mod_lt _ (cap_pos ring)
  have hfit := kept_length ring src
  unfold ShmAudioBuffer.copyIn
  split
  next h => exact storesOnly_copyTo _ _ h
  next h =>
    refine every_bind (storesOnly_copyTo _ _ ?_) fun _ => storesOnly_copyTo 0 _ ?_
    · rw [List.length_take]; omega
    · rw [List.length_drop]; omega

theorem storesOnly_push (src : List UInt8) :
    StoresOnly (PushCells ring) (ring.pushOverwrite src) := by
  have hline : ∀ f ∈ [ShmField.tail, ShmField.seq], ∀ x,
      ring.hdr + shmHeader.offset f ≤ x →
      x < ring.hdr + shmHeader.offset f + shmHeader.width f → PushCells ring x :=
    fun f hf x hlo hhi => Or.inl ⟨f, hf, hlo, hhi⟩
  unfold ShmAudioBuffer.pushOverwrite
  dsimp only
  split
  · trivial
  refine storesOnly_load fun tail => storesOnly_load fun s => ?_
  have hcopy : StoresOnly (PushCells ring) (ring.copyIn (ring.mask tail) (ring.kept src)) :=
    StoresOnly.mono (storesOnly_copyIn tail src) fun _ ha => Or.inr ha
  refine storesOnly_store (hline .seq (by simp)) (every_bind hcopy fun _ => ?_)
  exact storesOnly_store (hline .tail (by simp)) (storesOnly_store (hline .seq (by simp)) trivial)

theorem word_push {f : ShmField} (hf : f ∉ [ShmField.tail, ShmField.seq]) (src : List UInt8)
    (m : Memory) : word ring f ((ring.pushOverwrite src).run access m).2 = word ring f m := by
  have hrun : SameOutside (PushCells ring) m ((ring.pushOverwrite src).run access m).2 :=
    (storesOnly_push src).run m
  apply loadWord_congr
  intro i hi
  apply hrun
  rintro (⟨g, hg, hlo, hhi⟩ | ⟨hlo, _⟩)
  · have hne : f ≠ g := fun e => hf (e ▸ hg)
    have := shmHeader.disjoint f g hne
    omega
  · have := shmHeader.inside f
    unfold ShmAudioBuffer.payload at hlo
    omega

theorem storesOnly_setFormat (fmt : AudioFormat) :
    StoresOnly (FormatCells ring) (ring.setFormat fmt) := by
  refine shmHeader.storesOnly_store (by simp) (shmHeader.storesOnly_store (by simp) ?_)
  exact shmHeader.storesOnly_store (by simp) (shmHeader.storesOnly_store (k := .ret) (by simp)
    trivial)

def formatWords (fmt : AudioFormat) : List (ShmField × ℕ) :=
  [(.sampleRate, fmt.sampleRate.toNat), (.channels, fmt.channels.toNat),
    (.format, fmt.format.toU32), (.frameBytes, fmt.frameBytes.toNat)]

theorem setFormat_eq (fmt : AudioFormat) :
    ring.setFormat fmt = shmHeader.storeAll ring.hdr () (formatWords fmt) := rfl

theorem format_word {f : ShmField} {v : ℕ} {fmt : AudioFormat} (hmem : (f, v) ∈ formatWords fmt)
    (base : ℕ) (m : Memory) :
    shmHeader.get base f (shmHeader.putAll base (formatWords fmt) m) = v := by
  have hnodup : ((formatWords fmt).map Prod.fst).Nodup := by simp [formatWords]
  rw [shmHeader.get_putAll_of_mem base m hnodup hmem]
  have h32 : (256 : ℕ) ^ 4 = 2 ^ 32 := by decide
  simp only [formatWords, List.mem_cons, Prod.mk.injEq, List.not_mem_nil, or_false] at hmem
  rcases hmem with ⟨rfl, rfl⟩ | ⟨rfl, rfl⟩ | ⟨rfl, rfl⟩ | ⟨rfl, rfl⟩
  · exact (congrArg _ h32).trans (Nat.mod_eq_of_lt fmt.sampleRate.toNat_lt)
  · exact (congrArg _ h32).trans (Nat.mod_eq_of_lt fmt.channels.toNat_lt)
  · cases fmt.format <;> rfl
  · exact (congrArg _ h32).trans (Nat.mod_eq_of_lt fmt.frameBytes.toNat_lt)

theorem word_setFormat (fmt : AudioFormat) (m : Memory) :
    word ring .frameBytes ((ring.setFormat fmt).run access m).2 = fmt.frameBytes.toNat := by
  rw [setFormat_eq, Layout.run_storeAll]
  exact format_word (by simp [formatWords]) ring.hdr m

theorem fromU32_toU32 (s : SampleFormat) : SampleFormat.fromU32 s.toU32 = some s := by
  cases s <;> rfl

theorem run_format (fmt : AudioFormat) (m : Memory)
    (h : ∀ f v, (f, v) ∈ formatWords fmt → word ring f m = v) :
    (ring.format).run access m = (if fmt.frameBytes = 0 then none else some fmt, m) := by
  have hload : ∀ f v, (f, v) ∈ formatWords fmt → (ring.load f).run access m = (v, m) :=
    fun f v hmem => Prod.ext (h f v hmem) rfl
  rw [ShmAudioBuffer.format, run_bind,
    hload .frameBytes fmt.frameBytes.toNat (by simp [formatWords])]
  by_cases hgate : fmt.frameBytes = 0
  · rw [if_pos hgate, hgate]
    rfl
  · have hne : fmt.frameBytes.toNat ≠ 0 := fun hz => hgate (UInt32.toNat_inj.mp hz)
    rw [if_neg hgate]
    dsimp only
    rw [if_neg hne, run_bind, hload .format fmt.format.toU32 (by simp [formatWords])]
    dsimp only
    rw [fromU32_toU32]
    simp only [run_bind, hload .sampleRate fmt.sampleRate.toNat (by simp [formatWords]),
      hload .channels fmt.channels.toNat (by simp [formatWords]), pure_eq, run_ret,
      UInt32.ofNat_toNat]

theorem safe_formatWord {f : ShmField} {v : ℕ} {k : Unit → MemProg (List (List UInt8))}
    (hf : f ∈ [ShmField.sampleRate, .channels, .format, .frameBytes])
    (hidle : ¬ Opened ring made) (h : Quiet ring pushed m)
    (hk : ∀ made m, ¬ Opened ring made → Quiet ring pushed m →
      Safe access (producerTerms ring) pushed (Ends (producerTerms ring) pushed) (k ()) made m) :
    Safe access (producerTerms ring) pushed (Ends (producerTerms ring) pushed)
      (ring.store f v >>= k) made m := by
  have hseq : f ≠ .seq := by rintro rfl; simp at hf
  apply safe_store
  intro m' hs
  have q := (producerTerms ring).between_stable _ _ _ h hs
  have hout : SameOutside (FormatCells ring) m' (shmHeader.put ring.hdr f v m') :=
    shmHeader.put_sameOutside hf v m'
  have hword : ∀ g ∉ [ShmField.sampleRate, .channels, .format, .frameBytes],
      word ring g (shmHeader.put ring.hdr f v m') = word ring g m' :=
    fun g hg => word_sameOutside hout hg
  refine ⟨Or.inl ⟨hidle, q⟩,
    fun _ => ⟨Or.inr ⟨hword .seq (by decide), fun _ => hout⟩, hk _ _ ?_ ?_⟩⟩
  · exact not_opened_word hidle hseq v
  · refine ⟨?_, ?_, q.live.congr (fun i _ => (cell_sameOutside hout i).symm) (cap_pos ring)⟩
    · rw [hword .seq (by decide)]; exact q.seq
    · rw [hword .tail (by decide)]; exact q.tail

theorem safe_setFormat (fmt : AudioFormat) (h : Quiet ring pushed m) :
    Safe access (producerTerms ring) pushed (Ends (producerTerms ring) pushed)
      (ring.setFormat fmt >>= fun _ => .ret pushed) [] m := by
  simp only [ShmAudioBuffer.setFormat, bind_assoc]
  apply safe_formatWord (by simp) not_opened_nil h
  intro _ _ ho h
  apply safe_formatWord (by simp) ho h
  intro _ _ ho h
  apply safe_formatWord (by simp) ho h
  intro _ _ ho h
  exact safe_formatWord (by simp) ho h fun _ _ _ h => ⟨h, Or.inl rfl⟩

end AudioRing
