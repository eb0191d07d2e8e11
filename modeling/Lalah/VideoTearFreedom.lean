import Lalah.VideoRing

/-! One producer and one consumer on the frame slots, interleaved access by access. While
the count has advanced by at most `slot_count - 2` the writer has not reached the slot that
the reader is in, though it may be inside any other. -/
namespace VideoTearFreedom

open InteractionProgram RelyGuarantee ByteMemory StreamWindow ShmContract ShmVideoContract
  WordCopy VideoRing

/-- Without geometry, or with it and between reads, with what the last one returned. -/
inductive Reader where
  | blind (h : ShmVideoBuffer)
  | seeing (h : ShmVideoBuffer) (last : Option (Option ℕ × List UInt8))
  deriving DecidableEq, Repr

structure State where
  mem : Memory
  producer : Party Access Access.Reply (List (List UInt8))
  consumer : Party Access Access.Reply Reader

inductive Event where
  | push (src : List UInt8)
  | produce
  | refresh
  | read (out : List UInt8)
  | consume
  deriving DecidableEq, Repr

def startPush (buf : ShmVideoBuffer) (src : List UInt8) (pushed : List (List UInt8)) :
    MemProg (List (List UInt8)) :=
  buf.pushFrame src >>= fun _ => .ret (pushed ++ [src])

def afterRefresh : ShmVideoBuffer × Option VideoFormat → Reader
  | (h, some _) => .seeing h none
  | (h, none) => .blind h

def startRefresh : Reader → MemProg Reader
  | .blind h => h.refreshGeometry >>= fun r => .ret (afterRefresh r)
  | .seeing h last => .ret (.seeing h last)

def startRead (out : List UInt8) : Reader → MemProg Reader
  | .blind h => .ret (.blind h)
  | .seeing h _ => h.readFrame out >>= fun r => .ret (.seeing h (some r))

def next (buf : ShmVideoBuffer) : Event → State → State
  | .push src, s => { s with producer := s.producer.invoke (startPush buf src) }
  | .produce, s =>
    { s with producer := (s.producer.access access s.mem).1
             mem := (s.producer.access access s.mem).2 }
  | .refresh, s => { s with consumer := s.consumer.invoke startRefresh }
  | .read out, s => { s with consumer := s.consumer.invoke (startRead out) }
  | .consume, s =>
    { s with consumer := (s.consumer.access access s.mem).1
             mem := (s.consumer.access access s.mem).2 }

structure Run where
  handle : ShmVideoBuffer
  vf : VideoFormat
  before : Memory
  buf : ShmVideoBuffer
  slots : ℕ
  start : Memory
  published : (handle.setGeometry vf).run access before = ((buf, .ok slots), start)
  attached : ShmVideoBuffer
  sameRegion : attached.hdr = handle.hdr
  event : ℕ → Event

def Run.state (r : Run) : ℕ → State
  | 0 => ⟨r.start, .rest [], .rest (.blind r.attached)⟩
  | t + 1 => next r.buf (r.event t) (r.state t)

def Run.mem (r : Run) (t : ℕ) : Memory := (r.state t).mem

def Run.pushed (r : Run) (t : ℕ) : List (List UInt8) := (r.state t).producer.ctl

/-- The call of `read_frame` that step `i` begins has returned at instant `j`. -/
structure Run.Returns (r : Run) (i : ℕ) (out : List UInt8) (j : ℕ) (res : Option ℕ)
    (out' : List UInt8) : Prop where
  begins : r.event i = .read out
  sees : ∃ h last, (r.state i).consumer.prog = .ret (.seeing h last)
  before : i < j
  inside : ∀ t, i < t → t < j → (r.state t).consumer.Busy
  returned : ∃ h, (r.state j).consumer.prog = .ret (.seeing h (some (res, out')))

def Run.FirstLoad (r : Run) (i t : ℕ) : Prop :=
  i < t ∧ r.event t = .consume ∧ ∀ u, i < u → u < t → r.event u ≠ .consume

section Steps

variable {buf : ShmVideoBuffer} {s : State}

/-- The consumer's handle is on the region, and with geometry it has the producer's. -/
def Attached (buf : ShmVideoBuffer) : Reader → Prop
  | .blind h => h.hdr = buf.hdr
  | .seeing h _ => Sees buf h

def consumerTerms (buf : ShmVideoBuffer) : Terms Access Memory Reader where
  rely m m' := Shows buf m → Shows buf m'
  allow := fun _ _ _ => True
  guar := fun _ _ => True
  during := fun _ _ _ => True
  between c m := Shows buf m ∧ Attached buf c
  follows := fun _ _ => True
  rely_refl := fun _ => id
  rely_trans := fun _ _ _ h h' => h' ∘ h
  between_stable := fun _ _ _ h hs => ⟨hs h.1, h.2⟩

theorem safe_load {c : Reader} {f : VideoField} {k : ℕ → MemProg Reader} {made : List Access}
    {m : Memory} {h : ShmVideoBuffer} (hm : Shows buf m)
    (hk : ∀ made m', Shows buf m' → Safe access (consumerTerms buf) c
      (Ends (consumerTerms buf) c) (k (word h f m')) made m') :
    Safe access (consumerTerms buf) c (Ends (consumerTerms buf) c) (h.load f >>= k) made m :=
  shmVideoHeader.safe_load fun m' hs => ⟨trivial, fun _ => ⟨trivial, hk _ m' (hs hm)⟩⟩

theorem safe_refresh (geo : Geometry buf) {m : Memory} (c : Reader) (hm : Shows buf m)
    (hc : Attached buf c) : Safe access (consumerTerms buf) c (Ends (consumerTerms buf) c)
      (startRefresh c) [] m := by
  cases c with
  | seeing h last => exact ⟨⟨hm, hc⟩, trivial⟩
  | blind h =>
    have hword : ∀ f m, word h f m = word buf f m := by
      intro f m
      rw [word, word, hc]
    simp only [startRefresh, ShmVideoBuffer.refreshGeometry, bind_assoc]
    apply safe_load hm
    intro _ m₁ h₁
    have hgate := (hword .frameSize m₁).trans h₁.frameSize
    rw [hgate, if_neg (Nat.ne_of_gt geo.frame)]
    simp only [bind_assoc]
    apply safe_load h₁
    intro _ m₂ h₂
    have hslots := (hword .slotCount m₂).trans h₂.slotCount
    rw [hslots]
    refine safe_load h₂ fun _ m₃ h₃ => safe_load h₃ fun _ m₄ h₄ => ?_
    refine safe_load h₄ fun _ m₅ h₅ => safe_load h₅ fun _ m₆ h₆ => ?_
    exact ⟨⟨h₆, hc, rfl, geo.stride.symm, rfl⟩, trivial⟩

theorem safe_read {m : Memory} (out : List UInt8) (c : Reader) (hm : Shows buf m)
    (hc : Attached buf c) : Safe access (consumerTerms buf) c (Ends (consumerTerms buf) c)
      (startRead out c) [] m := by
  cases c with
  | blind h => exact ⟨⟨hm, hc⟩, trivial⟩
  | seeing h last =>
    have hcall : StoresOnly (fun _ => False) (h.readFrame out) := storesOnly_readFrame h out
    refine safe_bind (safe_mono (fun r _ m' hm' => ?_)
      (safe_every (I := fun _ m => Shows buf m) (fun _ _ => trivial) ?_ hcall hm))
    · exact ⟨⟨hm', hc⟩, trivial⟩
    · intro made m₁ m₂ h₁ hs
      refine ⟨trivial, fun op hop => ⟨trivial, ?_⟩⟩
      have hsame : (access op m₂).2 = m₂ := funext fun a => hop.sameOutside m₂ a id
      rw [hsame]
      exact hs h₁

theorem storesOnly_calls {A : ℕ → Prop} (c : Reader) :
    StoresOnly A (startRefresh c) ∧ ∀ out, StoresOnly A (startRead out c) := by
  cases c with
  | blind h => exact ⟨every_bind (storesOnly_refreshGeometry h) fun _ => trivial, fun _ => trivial⟩
  | seeing h last =>
    exact ⟨trivial, fun out => every_bind (storesOnly_readFrame h out) fun _ => trivial⟩

structure Invariant (buf : ShmVideoBuffer) (s : State) : Prop where
  producer : Holds access (producerTerms buf) s.producer s.mem
  consumer : Holds access (consumerTerms buf) s.consumer s.mem
  loads : StoresOnly (fun _ => False) s.consumer.prog

theorem live_invariant (h : Invariant buf s) : Live buf s.producer.ctl s.mem := by
  by_cases hb : s.producer.Busy
  · exact holds_during h.producer hb
  · exact (holds_between h.producer hb).2

theorem pushed_follows {pushed pushed' : List (List UInt8)}
    (h : pushed' = pushed ∨ (producerTerms buf).follows pushed pushed') : pushed <+: pushed' := by
  rcases h with rfl | ⟨src, rfl⟩
  · exact List.prefix_refl _
  · exact List.prefix_append _ _

theorem invariant_next (geo : Geometry buf) (h : Invariant buf s) (e : Event) :
    Invariant buf (next buf e s) ∧ s.producer.ctl <+: (next buf e s).producer.ctl := by
  cases e with
  | push src =>
    obtain ⟨hholds, hctl⟩ := holds_invoke h.producer fun c hc => safe_push geo src hc
    exact ⟨⟨hholds, h.consumer, h.loads⟩, pushed_follows hctl⟩
  | produce =>
    rcases busy_or_rest s.producer with hb | ⟨c, hc⟩
    · obtain ⟨hholds, _, hctl⟩ := holds_access h.producer hb trivial
      have hinvariant : Invariant buf (next buf .produce s) := by
        refine ⟨hholds, holds_env h.consumer fun _ => ?_, h.loads⟩
        by_cases hb' : (next buf .produce s).producer.Busy
        · exact (holds_during hholds hb').shows
        · exact (holds_between hholds hb').2.shows
      exact ⟨hinvariant, pushed_follows hctl⟩
    · have hstay : s.producer.access access s.mem = (s.producer, s.mem) := access_rest hc s.mem
      have hnext : next buf .produce s = s := by simp only [next, hstay]
      rw [hnext]
      exact ⟨h, List.prefix_refl _⟩
  | refresh =>
    refine ⟨⟨h.producer, ?_, every_invoke h.loads fun c => (storesOnly_calls c).1⟩,
      List.prefix_refl _⟩
    exact (holds_invoke h.consumer fun c hc => safe_refresh geo c hc.1 hc.2).1
  | read out =>
    refine ⟨⟨h.producer, ?_, every_invoke h.loads fun c => (storesOnly_calls c).2 out⟩,
      List.prefix_refl _⟩
    exact (holds_invoke h.consumer fun c hc => safe_read out c hc.1 hc.2).1
  | consume =>
    rcases busy_or_rest s.consumer with hb | ⟨c, hc⟩
    · obtain ⟨hholds, _, _⟩ := holds_access h.consumer hb trivial
      have hmem : (next buf .consume s).mem = s.mem := by
        rcases access_state h.loads s.mem with hsame | ⟨op, hop, hdone⟩
        · exact hsame
        · exact hdone.trans (funext fun a => hop.sameOutside s.mem a id)
      refine ⟨⟨?_, hholds, every_access (fun _ _ => trivial) h.loads s.mem⟩,
        List.prefix_refl _⟩
      exact holds_env h.producer hmem
    · have hstay : s.consumer.access access s.mem = (s.consumer, s.mem) := access_rest hc s.mem
      have hnext : next buf .consume s = s := by simp only [next, hstay]
      rw [hnext]
      exact ⟨h, List.prefix_refl _⟩

end Steps

section Runs

variable {r : Run} {i j t u : ℕ}

theorem geometry (r : Run) : Geometry r.buf := (live_setGeometry r.published).2.2.1

theorem slots_eq (r : Run) : r.buf.slotCount = r.slots := (live_setGeometry r.published).2.1

theorem invariant_start (r : Run) : Invariant r.buf (r.state 0) := by
  obtain ⟨hptr, _, _, hlive⟩ := live_setGeometry r.published
  have hattached : Attached r.buf (.blind r.attached) := r.sameRegion.trans hptr.symm
  exact ⟨holds_rest hlive, holds_rest ⟨hlive.shows, hattached⟩, trivial⟩

theorem invariant_run (r : Run) (t : ℕ) : Invariant r.buf (r.state t) := by
  induction t with
  | zero => exact invariant_start r
  | succ t ih => exact (invariant_next (geometry r) ih (r.event t)).1

theorem pushed_mono (h : t ≤ u) : r.pushed t <+: r.pushed u :=
  prefix_of_steps (fun t => (invariant_next (geometry r) (invariant_run r t) (r.event t)).2) h

theorem moves_busy (r : Run) (t : ℕ) (hb : (r.state t).consumer.Busy) :
    Moves access r.mem (fun t => r.event t = .consume) (fun t => (r.state t).consumer) t := by
  have hstate : r.state (t + 1) = next r.buf (r.event t) (r.state t) := rfl
  constructor
  · intro he
    simp only [Run.mem, hstate, he]
    exact ⟨rfl, rfl⟩
  · intro he
    dsimp only
    rw [hstate]
    cases hevent : r.event t with
    | push src => rfl
    | produce => rfl
    | refresh => exact invoke_busy hb
    | read out => exact invoke_busy hb
    | consume => exact absurd hevent he

/-- The slot of frame `k` while at most `slot_count - 1` frames behind it are begun. -/
theorem frame_kept {k x : ℕ} (hlt : (r.pushed t).length < 2 ^ 64)
    (hk : k < (r.pushed t).length) (hnear : (r.pushed t).length ≤ k + (r.slots - 1))
    (hx : x < r.buf.frameSize) :
    r.mem t (r.buf.payload + k % r.buf.slotCount * r.buf.slotStride + x) =
      (padded r.buf ((r.pushed t)[k])).getD x 0 := by
  have hframes := (live_invariant (invariant_run r t)).frames hlt
  rw [slots_eq] at hframes ⊢
  have hslot := hframes k (by rw [List.length_map]; exact hk) (by rw [List.length_map]; exact hnear)
  rw [List.getElem_map] at hslot
  have hbyte : (slot r.buf (r.state t).mem (k % r.slots)).getD x 0 =
      r.mem t (r.buf.payload + k % r.slots * r.buf.slotStride + x) := by
    simp [slot, hx, Run.mem]
  rw [← hbyte, hslot]
  rfl

/-- A returned call loaded the count first, and then went through the rest of the read. -/
theorem returns_reach {out out' : List UInt8} {res : Option ℕ} (h : r.Returns i out j res out') :
    ∃ h₀ first, Sees r.buf h₀ ∧ r.FirstLoad i first ∧ first < j ∧
      Reach access r.mem (first + 1)
        (afterCount h₀ out (word r.buf .frameSeq (r.mem first))) j (.ret (res, out')) := by
  obtain ⟨h₀, last, hrest⟩ := h.sees
  obtain ⟨h₁, hreturned⟩ := h.returned
  have hsees : Sees r.buf h₀ := by
    obtain ⟨hparty, _, hattached⟩ := holds_between (invariant_run r i).consumer (not_busy hrest)
    rw [hparty] at hrest
    rw [Prog.ret.inj hrest] at hattached
    exact hattached
  have geo := geometry r
  have hframe := geo.frame
  have hslots := geo.slots
  have hset : ¬ (h₀.frameSize = 0 ∨ h₀.slotCount = 0) := by
    rw [hsees.frameSize, hsees.slotCount]
    omega
  have hstart : (r.state (i + 1)).consumer.prog =
      .act (.load (shmVideoHeader.width .frameSeq) (h₀.hdr + shmVideoHeader.offset .frameSeq))
        fun s0 => afterCount h₀ out s0 >>= fun a => .ret (.seeing h₀ (some a)) := by
    have hstate : r.state (i + 1) = next r.buf (r.event i) (r.state i) := rfl
    rw [hstate, h.begins]
    have hinvoke : ((r.state i).consumer.invoke (startRead out)).prog =
        h₀.readFrame out >>= fun a => .ret (.seeing h₀ (some a)) :=
      (congrArg Party.prog (invoke_rest hrest)).trans (settle_prog _ _ _)
    exact hinvoke.trans (by rw [readFrame_eq hset]; rfl)
  obtain ⟨first, hif, hfj, hmine, hbefore, hreach⟩ := first_access (Nat.succ_le_of_lt h.before)
    (fun t hit htj => ⟨h.inside t hit htj, moves_busy r t (h.inside t hit htj)⟩) hstart
    (not_busy hreturned)
  rw [hreturned] at hreach
  obtain ⟨u, a, hafter, hret⟩ := Reach.bind_inv hreach
  obtain ⟨rfl, heq⟩ := Reach.ret_inv hret
  obtain ⟨-, hres⟩ := Reader.seeing.inj heq
  obtain rfl := Option.some.inj hres
  have hword : word r.buf .frameSeq (r.mem first) = word h₀ .frameSeq (r.mem first) := by
    rw [word, word, hsees.hdr]
  refine ⟨h₀, first, hsees, ⟨hif, hmine, hbefore⟩, hfj, ?_⟩
  rw [hword]
  exact hafter

/-- Bytes copied while the frame's slot was not reused are the frame. -/
theorem live_frame {first v : ℕ} {live : List UInt8} (hcount : (r.pushed v).length < 2 ^ 64)
    (hpos : (r.pushed first).length ≠ 0)
    (hlap : (r.pushed v).length - (r.pushed first).length ≤ r.slots - 2)
    (hfull : live.length = r.buf.frameSize)
    (hbytes : ∀ x (hx : x < live.length), ∃ w, first ≤ w ∧ w < v ∧ live[x] = r.mem w
      (r.buf.payload + ((r.pushed first).length - 1) % r.buf.slotCount * r.buf.slotStride + x)) :
    live = padded r.buf ((r.pushed first)[(r.pushed first).length - 1]) := by
  have hslots := (geometry r).slots
  rw [slots_eq] at hslots
  have hk : (r.pushed first).length - 1 < (r.pushed first).length := by omega
  apply List.ext_getElem
  · rw [hfull, padded, paddedTo_length]
  · intro x hx hx'
    obtain ⟨w, hlo, hhi, hbyte⟩ := hbytes x hx
    have hmore : r.pushed first <+: r.pushed w := pushed_mono hlo
    have hfew : (r.pushed w).length ≤ (r.pushed v).length := (pushed_mono hhi.le).length_le
    have hkw : (r.pushed first).length - 1 < (r.pushed w).length := hk.trans_le hmore.length_le
    have hsame : (r.pushed w)[(r.pushed first).length - 1] =
        (r.pushed first)[(r.pushed first).length - 1] := (hmore.getElem hk).symm
    have hkept := frame_kept (hfew.trans_lt hcount) hkw (by omega) (hfull ▸ hx)
    rw [hbyte, hkept, hsame, List.getD_eq_getElem _ _ hx']

theorem last_own {i v : ℕ} {out out' : List UInt8} {res : Option ℕ}
    (h : r.Returns i out (v + 1) res out') (hiv : i < v) : r.event v = .consume := by
  by_contra hother
  have hbusy := h.inside v hiv (Nat.lt_succ_self v)
  have hstay : (r.state (v + 1)).consumer = (r.state v).consumer := (moves_busy r v hbusy).2 hother
  obtain ⟨h₁, hreturned⟩ := h.returned
  rw [hstay] at hreturned
  exact not_busy hreturned hbusy

/-- Every read that returns a number has put that frame, the newest one at its first load,
into the buffer in full; every other one found no frame, or was lapped. -/
theorem read_frame_untorn (r : Run) {i j : ℕ} {out out' : List UInt8} {res : Option ℕ}
    (hcount : (r.pushed j).length < 2 ^ 64) (hout : r.buf.frameSize ≤ out.length)
    (h : r.Returns i out j res out') :
    ∃ first, r.FirstLoad i first ∧ first < j ∧
      match res with
      | some k => ∃ hk : k < (r.pushed first).length, (r.pushed first).length = k + 1 ∧
          out'.take r.buf.frameSize = padded r.buf ((r.pushed first)[k])
      | none => r.pushed first = [] ∨
          ∃ second, first < second ∧ second + 1 = j ∧ r.event second = .consume ∧
            (r.pushed first).length + (r.slots - 1) ≤ (r.pushed second).length := by
  obtain ⟨h₀, first, hsees, hfirst, hfj, hreach⟩ := returns_reach h
  have hle : ∀ t ≤ j, (r.pushed t).length ≤ (r.pushed j).length :=
    fun t ht => (pushed_mono ht).length_le
  have hword : ∀ t ≤ j, word r.buf .frameSeq (r.mem t) = (r.pushed t).length := by
    intro t ht
    have hlive := live_invariant (invariant_run r t)
    exact hlive.count.trans (Nat.mod_eq_of_lt ((hle t ht).trans_lt hcount))
  refine ⟨first, hfirst, hfj, ?_⟩
  rw [hword first hfj.le] at hreach
  rcases reach_afterCount hreach with ⟨hzero, rfl⟩ |
    ⟨hpos, v, live, hv, hj, hlen, hfilled, hbytes, hres⟩
  · exact Or.inl (List.length_eq_zero_iff.mp hzero)
  have hsub : wrappingSub (r.pushed v).length (r.pushed first).length =
      (r.pushed v).length - (r.pushed first).length := by
    apply wrappingSub_of_le
    · exact (pushed_mono (by omega)).length_le
    · exact (hle v (by omega)).trans_lt hcount
  have hcond : word h₀ .frameSeq (r.mem v) = (r.pushed v).length := by
    rw [← hword v (by omega), word, word, hsees.hdr]
  rw [hcond, hsub, hsees.slotCount, slots_eq] at hres
  have hslots := (geometry r).slots
  rw [slots_eq] at hslots
  by_cases hlap : (r.pushed v).length - (r.pushed first).length ≤ r.slots - 2
  · rw [if_pos hlap] at hres
    subst hres
    have hk : (r.pushed first).length - 1 < (r.pushed first).length := by omega
    refine ⟨hk, by omega, ?_⟩
    have hfull : live.length = r.buf.frameSize := by
      rw [hlen, hsees.frameSize]
      omega
    have hpayload : h₀.payload = r.buf.payload := by
      rw [ShmVideoBuffer.payload, ShmVideoBuffer.payload, hsees.hdr]
    rw [hpayload, hsees.slotCount, hsees.slotStride] at hbytes
    rw [hfilled, List.take_append_of_le_length hfull.ge, List.take_of_length_le hfull.le]
    apply live_frame ((hle v (by omega)).trans_lt hcount) hpos hlap hfull
    intro x hx
    obtain ⟨w, hlo, hhi, hbyte⟩ := hbytes x hx
    exact ⟨w, by omega, hhi, hbyte⟩
  · rw [if_neg hlap] at hres
    subst hres
    have hafter : i < v := by
      have := hfirst.1
      omega
    exact Or.inr ⟨v, by omega, hj, last_own (hj ▸ h) hafter, by omega⟩

def overtakenEvents : List Event :=
  .push [1, 2, 3] :: List.replicate 4 .produce ++
    .refresh :: List.replicate 6 .consume ++
    .read (List.replicate 10 0xEE) :: .consume ::
    .push (List.replicate 12 7) :: List.replicate 4 .produce

/-- Three slots of nine bytes; the second push falls behind the first load of the read. -/
def overtaken : Run where
  handle := ⟨0, 320, 0, 0, 0⟩
  vf := ⟨3, 1, 9, 0, 9⟩
  before := fun _ => 0xEE
  buf := ⟨0, 320, 9, 64, 3⟩
  slots := 3
  start := (((⟨0, 320, 0, 0, 0⟩ : ShmVideoBuffer).setGeometry ⟨3, 1, 9, 0, 9⟩).run access
    fun _ => 0xEE).2
  published := rfl
  attached := ⟨0, 320, 0, 0, 0⟩
  sameRegion := rfl
  event t := overtakenEvents.getD t .consume

theorem read_frame_untorn_overtaken :
    ∃ first, overtaken.FirstLoad 12 first ∧ first < 22 ∧
      ∃ hk : 0 < (overtaken.pushed first).length, (overtaken.pushed first).length = 0 + 1 ∧
        ([1, 2, 3, 0, 0, 0, 0, 0, 0, 0xEE] : List UInt8).take 9 =
          padded overtaken.buf ((overtaken.pushed first)[0]) := by
  have hbusy : ∀ t ∈ List.range' 13 9, ((overtaken.state t).consumer.prog.result).isNone := by
    decide +kernel
  have hreturns : overtaken.Returns 12 (List.replicate 10 0xEE) 22 (some 0)
      [1, 2, 3, 0, 0, 0, 0, 0, 0, 0xEE] := by
    refine ⟨rfl, ⟨⟨0, 320, 9, 64, 3⟩, none, result_eq_some.mp (by decide +kernel)⟩, by decide, ?_,
      ⟨0, 320, 9, 64, 3⟩, result_eq_some.mp (by decide +kernel)⟩
    intro t hlo hhi
    rcases busy_or_rest (overtaken.state t).consumer with hb | ⟨c, hc⟩
    · exact hb
    · have hnone := hbusy t (by rw [List.mem_range'_1]; omega)
      rw [hc] at hnone
      cases hnone
  exact read_frame_untorn overtaken (by decide +kernel) (by decide) hreturns

end Runs

end VideoTearFreedom
