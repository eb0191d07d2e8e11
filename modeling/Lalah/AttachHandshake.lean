import Lalah.AudioRing

/-! One `init` of the host against the guest's attaches, from any earlier contents of the
region. The magic is stored last, which protects the attach only if the magic and the
version were not already there: a complete older header lets it read the older capacity. -/
namespace AttachHandshake

open InteractionProgram ByteMemory ShmContract AudioRing

structure Setup where
  ring : ShmAudioBuffer
  total : ℕ
  fits : ring.cap + shmHeader.size ≤ total
  before : Memory

structure State where
  mem : Memory
  host : Party Access Access.Reply (Option ShmAudioBuffer)
  guest : Party Access Access.Reply (List (Except String ShmAudioBuffer))

inductive Event where
  | host
  | attach
  | guest
  deriving DecidableEq, Repr

section System

variable (setup : Setup)

def initial : State where
  mem := setup.before
  host := settle none [] (ShmAudioBuffer.init setup.ring.hdr setup.total setup.ring.cap)
  guest := .rest []

def startAttach (results : List (Except String ShmAudioBuffer)) :
    MemProg (List (Except String ShmAudioBuffer)) :=
  ShmAudioBuffer.attach setup.ring.hdr setup.total >>= fun r => .ret (results ++ [r])

def Begun (s : State) : Prop := s.host.made ≠ [] ∨ s.host.prog.result.isSome

instance (s : State) : Decidable (Begun s) := inferInstanceAs (Decidable (_ ∨ _))

/-- No attach begins before the first store of `init`. -/
def next : Event → State → State
  | .host, s =>
    { s with
      host := (s.host.access access s.mem).1
      mem := (s.host.access access s.mem).2 }
  | .attach, s => if Begun s then { s with guest := s.guest.invoke (startAttach setup) } else s
  | .guest, s =>
    { s with
      guest := (s.guest.access access s.mem).1
      mem := (s.guest.access access s.mem).2 }

end System

structure Run where
  setup : Setup
  event : ℕ → Event

def Run.state (r : Run) : ℕ → State
  | 0 => initial r.setup
  | t + 1 => next r.setup (r.event t) (r.state t)

def Run.mem (r : Run) (t : ℕ) : Memory := (r.state t).mem

/-- Every attach that has returned a handle agrees with the host on the ring size. -/
def Agrees (setup : Setup) (s : State) : Prop :=
  ∀ b, .ok b ∈ s.guest.ctl → b.cap = setup.ring.cap

/-- The earlier contents pass the checks of `attach` with another capacity, whatever their
`header_size`. -/
structure Stale (setup : Setup) : Prop where
  magic : word setup.ring .magic setup.before = shmMagic
  version : word setup.ring .version setup.before = shmVersion
  valid : word setup.ring .capacity setup.before ≠ 0 ∧
    IsPowerOfTwo (word setup.ring .capacity setup.before) ∧
    word setup.ring .capacity setup.before ≤ setup.total - shmHeader.size
  other : word setup.ring .capacity setup.before ≠ setup.ring.cap

section Host

variable {setup : Setup} {s : State} {k : ℕ}

/-- The host has made the first `k` stores of `init`, and nobody else any. -/
structure Stored (setup : Setup) (k : ℕ) (s : State) : Prop where
  host : s.host.prog = shmHeader.storeAll setup.ring.hdr (some setup.ring)
    ((initWords setup.ring.cap).drop k)
  mem : s.mem = shmHeader.putAll setup.ring.hdr ((initWords setup.ring.cap).take k) setup.before
  guest : StoresOnly (fun _ => False) s.guest.prog
  begun : Begun s → 1 ≤ k

theorem storesOnly_attach (ptr total : ℕ) {A : ℕ → Prop} :
    StoresOnly A (ShmAudioBuffer.attach ptr total) := by
  unfold ShmAudioBuffer.attach
  split
  · trivial
  apply storesOnly_load
  intro magic
  split
  · trivial
  apply storesOnly_load
  intro version
  split
  · trivial
  apply storesOnly_load
  intro headerSize
  split
  · trivial
  apply storesOnly_load
  intro cap
  split <;> trivial

theorem stored_initial (setup : Setup) : Stored setup 0 (initial setup) := by
  refine ⟨?_, rfl, trivial, fun h => ?_⟩
  · rw [initial, settle_prog, init_eq setup.total setup.fits]
    rfl
  · simp only [initial, Begun, settle_prog, init_eq setup.total setup.fits] at h
    rcases h with h | h
    · exact absurd rfl h
    · cases h

theorem stored_host (h : Stored setup k s) :
    ∃ k', k ≤ k' ∧ Stored setup k' (next setup .host s) := by
  by_cases hk : k < (initWords setup.ring.cap).length
  · refine ⟨k + 1, Nat.le_succ k, ?_⟩
    have hdrop := List.drop_eq_getElem_cons hk
    have hhost := h.host
    rw [hdrop] at hhost
    have haccess : s.host.access access s.mem = _ := access_act hhost s.mem
    refine ⟨?_, ?_, h.guest, fun _ => by omega⟩
    · rw [next, haccess, settle_prog]
      rfl
    · rw [next, haccess, List.take_succ_eq_append_getElem hk, Layout.putAll_append, ← h.mem]
      rfl
  · refine ⟨k, Nat.le_refl k, ?_⟩
    have hhost := h.host
    rw [List.drop_eq_nil_of_le (by omega)] at hhost
    have hstay : s.host.access access s.mem = (s.host, s.mem) := access_rest hhost s.mem
    have hnext : next setup .host s = s := by simp only [next, hstay]
    rwa [hnext]

theorem stored_next (h : Stored setup k s) (e : Event) :
    ∃ k', k ≤ k' ∧ Stored setup k' (next setup e s) := by
  cases e with
  | host => exact stored_host h
  | attach =>
    refine ⟨k, Nat.le_refl k, ?_⟩
    by_cases hbegun : Begun s
    · simp only [next, hbegun, if_true]
      refine ⟨h.host, h.mem, every_invoke h.guest fun c => ?_, h.begun⟩
      exact every_bind (storesOnly_attach _ _) fun _ => trivial
    · simp only [next, hbegun, if_false]
      exact h
  | guest =>
    have hmem : (s.guest.access access s.mem).2 = s.mem := by
      rcases access_state h.guest s.mem with hsame | ⟨op, hop, hdone⟩
      · exact hsame
      · exact hdone.trans (sameOutside_none (hop.sameOutside s.mem))
    refine ⟨k, Nat.le_refl k, h.host, ?_, every_access (fun _ _ => trivial) h.guest s.mem, h.begun⟩
    exact hmem.trans h.mem

theorem stored_run (r : Run) (t : ℕ) : ∃ k, Stored r.setup k (r.state t) := by
  induction t with
  | zero => exact ⟨0, stored_initial r.setup⟩
  | succ t ih =>
    obtain ⟨k, hk⟩ := ih
    obtain ⟨k', _, hk'⟩ := stored_next hk (r.event t)
    exact ⟨k', hk'⟩

theorem stored_later {r : Run} {t u : ℕ} (h : Stored r.setup k (r.state t)) (htu : t ≤ u) :
    ∃ k', k ≤ k' ∧ Stored r.setup k' (r.state u) := by
  induction u, htu using Nat.le_induction with
  | base => exact ⟨k, Nat.le_refl k, h⟩
  | succ u _ ih =>
    obtain ⟨k', hkk', hk'⟩ := ih
    obtain ⟨k'', hkk'', hk''⟩ := stored_next hk' (r.event u)
    exact ⟨k'', by omega, hk''⟩

end Host

section Words

variable {setup : Setup} {s : State} {k : ℕ}

theorem word_before {f : ShmField} {n : ℕ} (h : Stored setup k s) (hk : k ≤ n)
    (hf : f ∉ ((initWords setup.ring.cap).take n).map Prod.fst) :
    word setup.ring f s.mem = word setup.ring f setup.before := by
  rw [h.mem]
  refine shmHeader.get_putAll_of_not_mem _ _ fun hmem => hf ?_
  obtain ⟨w, hw, hfst⟩ := List.mem_map.mp hmem
  exact List.mem_map.mpr ⟨w, List.take_subset_take_left _ hk hw, hfst⟩

theorem capacity_stored (h : Stored setup k s) (hk : 2 ≤ k) :
    word setup.ring .capacity s.mem = setup.ring.cap := by
  have hwidth : 256 ^ shmHeader.width .capacity = 2 ^ 64 := by decide
  have hmem : (ShmField.capacity, setup.ring.cap) ∈ (initWords setup.ring.cap).take k :=
    List.take_subset_take_left _ hk (by simp [initWords])
  have hnodup : (((initWords setup.ring.cap).take k).map Prod.fst).Nodup :=
    (initWords_nodup _).sublist ((List.take_sublist _ _).map _)
  have hget := shmHeader.get_putAll_of_mem setup.ring.hdr setup.before hnodup hmem
  rw [hwidth, Nat.mod_eq_of_lt cap_lt, ← h.mem] at hget
  exact hget

theorem reach_attach {ptr total t u : ℕ} {mem : ℕ → Memory} {b : ShmAudioBuffer}
    (h : Reach access mem t (ShmAudioBuffer.attach ptr total) u (.ret (.ok b))) :
    ∃ t₁ t₂ t₃ t₄, t ≤ t₁ ∧ t₁ < t₂ ∧ t₂ < t₃ ∧ t₃ < t₄ ∧
      shmHeader.get ptr .magic (mem t₁) = shmMagic ∧
      shmHeader.get ptr .version (mem t₂) = shmVersion ∧
      shmHeader.get ptr .headerSize (mem t₃) = shmHeader.size ∧
      b.hdr = ptr ∧ b.cap = shmHeader.get ptr .capacity (mem t₄) ∧ b.cap ≠ 0 ∧
      b.cap ≤ total - shmHeader.size := by
  unfold ShmAudioBuffer.attach at h
  split at h
  · exact absurd (Reach.ret_inv h).2 (by simp)
  obtain ⟨t₁, h₁, h⟩ := shmHeader.reach_load h
  split at h
  · exact absurd (Reach.ret_inv h).2 (by simp)
  next hmagic =>
  obtain ⟨t₂, h₂, h⟩ := shmHeader.reach_load h
  split at h
  · exact absurd (Reach.ret_inv h).2 (by simp)
  next hversion =>
  obtain ⟨t₃, h₃, h⟩ := shmHeader.reach_load h
  split at h
  · exact absurd (Reach.ret_inv h).2 (by simp)
  next hsize =>
  obtain ⟨t₄, h₄, h⟩ := shmHeader.reach_load h
  split at h
  next hcap =>
    obtain ⟨_, hok⟩ := Reach.ret_inv h
    obtain rfl := Except.ok.inj hok
    exact ⟨t₁, t₂, t₃, t₄, h₁, h₂, h₃, h₄, not_ne_iff.mp hmagic, not_ne_iff.mp hversion,
      not_ne_iff.mp hsize, rfl, rfl, hcap.1, hcap.2.2⟩
  next => exact absurd (Reach.ret_inv h).2 (by simp)

/-- An attach that began behind the first store agrees, unless the header was stale. -/
theorem attach_agrees {r : Run} {t u : ℕ} {b : ShmAudioBuffer} (hstale : ¬ Stale r.setup)
    (h : Reach access r.mem t (ShmAudioBuffer.attach r.setup.ring.hdr r.setup.total) u
      (.ret (.ok b))) : b.cap = r.setup.ring.cap := by
  obtain ⟨t₁, t₂, t₃, t₄, _, h₁₂, h₂₃, h₃₄, hmagic, hversion, _, _, hcap, hpos, hfits⟩ :=
    reach_attach h
  obtain ⟨k₁, hk₁⟩ := stored_run r t₁
  obtain ⟨k₂, hle₂, hk₂⟩ := stored_later hk₁ (show t₁ ≤ t₂ by omega)
  obtain ⟨k₄, hle₄, hk₄⟩ := stored_later hk₂ (show t₂ ≤ t₄ by omega)
  have hloaded : b.cap = word r.setup.ring .capacity (r.state t₄).mem := hcap
  rw [hloaded]
  by_cases hlate : 2 ≤ k₄
  · exact capacity_stored hk₄ hlate
  by_contra hother
  -- all three words are the earlier contents', so those were a header of another ring
  have hcapacity := word_before (f := .capacity) (n := 1) hk₄ (by omega) (by simp [initWords])
  refine hstale ⟨?_, ?_, ?_, ?_⟩
  · exact (word_before (f := .magic) (n := 1) hk₁ (by omega)
      (by simp [initWords])).symm.trans hmagic
  · exact (word_before (f := .version) (n := 1) hk₂ (by omega)
      (by simp [initWords])).symm.trans hversion
  · rw [← hcapacity, ← hloaded]
    exact ⟨hpos, b.pow2, hfits⟩
  · rw [← hcapacity]
    exact hother

end Words

section Guest

variable {r : Run} {t : ℕ}

/-- The results so far agree, and an attach in progress began behind the first store. -/
structure Attaching (r : Run) (t : ℕ) : Prop where
  agrees : Agrees r.setup (r.state t)
  rest : ∀ c, (r.state t).guest.prog = .ret c → c = (r.state t).guest.ctl
  busy : (r.state t).guest.Busy → ∃ i, i ≤ t ∧
    Reach access r.mem i (startAttach r.setup (r.state t).guest.ctl) t (r.state t).guest.prog

theorem attaching_wait (h : Attaching r t)
    (hsame : (r.state (t + 1)).guest = (r.state t).guest) : Attaching r (t + 1) := by
  refine ⟨?_, by rw [hsame]; exact h.rest, fun hb => ?_⟩
  · unfold Agrees
    rw [hsame]
    exact h.agrees
  · rw [hsame] at hb ⊢
    obtain ⟨i, hi, hreach⟩ := h.busy hb
    exact ⟨i, by omega, hreach.pause hb⟩

theorem attaching_settle {c : List (Except String ShmAudioBuffer)} {made : List Access}
    {p : MemProg (List (Except String ShmAudioBuffer))} {i : ℕ} (hstale : ¬ Stale r.setup)
    (hagrees : ∀ b, .ok b ∈ c → b.cap = r.setup.ring.cap) (hi : i ≤ t)
    (hreach : Reach access r.mem i (startAttach r.setup c) t p)
    (hguest : (r.state t).guest = settle c made p) : Attaching r t := by
  cases p with
  | act op k =>
    refine ⟨?_, fun c' hc' => ?_, fun _ => ⟨i, hi, ?_⟩⟩
    · unfold Agrees
      rw [hguest]
      exact hagrees
    · rw [hguest] at hc'
      cases hc'
    · rw [hguest]
      exact hreach
  | ret c' =>
    obtain ⟨v, res, hattach, hret⟩ := Reach.bind_inv hreach
    obtain ⟨rfl, rfl⟩ := Reach.ret_inv hret
    refine ⟨?_, fun c'' hc'' => ?_, fun hb => ?_⟩
    · unfold Agrees
      rw [hguest]
      intro b hb
      rcases List.mem_append.mp hb with hb | hb
      · exact hagrees b hb
      · obtain rfl : .ok b = res := List.mem_singleton.mp hb
        exact attach_agrees hstale hattach
    · rw [hguest] at hc'' ⊢
      exact (Prog.ret.inj hc'').symm
    · rw [hguest] at hb
      exact absurd hb (not_busy rfl)

theorem attaching_next (hstale : ¬ Stale r.setup) (h : Attaching r t) : Attaching r (t + 1) := by
  have hstate : r.state (t + 1) = next r.setup (r.event t) (r.state t) := rfl
  cases he : r.event t with
  | host => exact attaching_wait h (by rw [hstate, he]; rfl)
  | attach =>
    by_cases hbegun : Begun (r.state t)
    · have hguest : (r.state (t + 1)).guest =
          (r.state t).guest.invoke (startAttach r.setup) := by
        rw [hstate, he]
        simp only [next, hbegun, if_true]
      rcases busy_or_rest (r.state t).guest with hb | ⟨c, hc⟩
      · exact attaching_wait h (hguest.trans (invoke_busy hb))
      · obtain rfl := h.rest c hc
        exact attaching_settle hstale h.agrees (Nat.le_refl _) (.refl _ _)
          (hguest.trans (invoke_rest hc))
    · apply attaching_wait h
      rw [hstate, he]
      simp only [next, hbegun, if_false]
  | guest =>
    have hguest : (r.state (t + 1)).guest = ((r.state t).guest.access access (r.mem t)).1 := by
      rw [hstate, he]
      rfl
    have hmem : r.mem (t + 1) = ((r.state t).guest.access access (r.mem t)).2 := by
      rw [Run.mem, hstate, he]
      rfl
    rcases busy_or_rest (r.state t).guest with ⟨op, k, hp⟩ | ⟨c, hc⟩
    · obtain ⟨i, hi, hreach⟩ := h.busy ⟨op, k, hp⟩
      have hreach' := hreach.access ⟨op, k, hp⟩ hmem
      rw [access_act hp] at hguest hreach'
      rw [settle_prog] at hreach'
      exact attaching_settle hstale h.agrees (by omega) hreach' hguest
    · rw [access_rest hc] at hguest
      exact attaching_wait h hguest

theorem attaching_run (hstale : ¬ Stale r.setup) (t : ℕ) : Attaching r t := by
  induction t with
  | zero =>
    have hrest : (r.state 0).guest.prog = .ret [] := rfl
    refine ⟨fun b hb => (by cases hb), fun c hc => ?_, fun hb => absurd hb (not_busy hrest)⟩
    exact (Prog.ret.inj hc).symm
  | succ t ih => exact attaching_next hstale ih

end Guest

section StaleRun

variable (setup : Setup)

/-- One store of `init`, then an attach from its first load to its last. -/
def staleRun : Run where
  setup := setup
  event
    | 0 => .host
    | 1 => .attach
    | _ => .guest

def stored : Memory := shmHeader.put setup.ring.hdr .headerSize shmHeader.size setup.before

theorem staleRun_begun : ((staleRun setup).state 2).mem = stored setup ∧
    ((staleRun setup).state 2).guest = settle [] [] (startAttach setup []) := by
  have hinit := init_eq setup.total setup.fits
  have hfirst : (staleRun setup).state 1 = next setup .host (initial setup) := rfl
  have hsecond : (staleRun setup).state 2 =
    next setup .attach ((staleRun setup).state 1) := rfl
  have hbegun : Begun ((staleRun setup).state 1) := by
    rw [hfirst, Begun, initial, hinit]
    left
    simp [next, initWords, Layout.storeAll, Layout.store, settle, Party.access]
  rw [hsecond]
  simp only [next, hbegun, if_true]
  rw [hfirst, initial, hinit]
  exact ⟨rfl, rfl⟩

theorem staleRun_alone (n : ℕ) :
    (((staleRun setup).state (n + 2)).guest, ((staleRun setup).state (n + 2)).mem) =
      (fun x : Party Access Access.Reply (List (Except String ShmAudioBuffer)) × Memory =>
        x.1.access access x.2)^[n]
        (((staleRun setup).state 2).guest, ((staleRun setup).state 2).mem) := by
  induction n with
  | zero => rfl
  | succ n ih =>
    rw [Function.iterate_succ_apply', ← ih]
    rfl

theorem attach_stale (h : Stale setup) :
    ((ShmAudioBuffer.attach setup.ring.hdr setup.total).run access (stored setup)).1 =
      .ok ⟨setup.ring.hdr, word setup.ring .capacity setup.before, h.valid.2.1⟩ := by
  have hword : ∀ f, f ≠ .headerSize →
      shmHeader.get setup.ring.hdr f (stored setup) = word setup.ring f setup.before :=
    fun f hf => shmHeader.get_put_ne _ hf _ _
  have hmagic := (hword .magic (by decide)).trans h.magic
  have hversion := (hword .version (by decide)).trans h.version
  have hsize : shmHeader.get setup.ring.hdr .headerSize (stored setup) = shmHeader.size :=
    shmHeader.get_put _ _ _ _
  have hcapacity := hword .capacity (by decide)
  have hpos := cap_pos setup.ring
  have htotal : ¬ setup.total ≤ shmHeader.size := by
    have := setup.fits
    omega
  have hload : ∀ f, (shmHeader.load setup.ring.hdr f).run access (stored setup) =
      (shmHeader.get setup.ring.hdr f (stored setup), stored setup) := fun _ => rfl
  simp only [ShmAudioBuffer.attach, htotal, if_false, run_bind, hload, hmagic, hversion, hsize,
    hcapacity, ne_eq, not_true_eq_false]
  rw [dif_pos h.valid]
  rfl

end StaleRun

/-- The attaches of every interleaving agree with the host exactly when the earlier
contents are not a valid header of another capacity. -/
theorem handshake_iff (setup : Setup) :
    (∀ event t, Agrees setup ((Run.mk setup event).state t)) ↔ ¬ Stale setup := by
  constructor
  · intro h hstale
    obtain ⟨hmem, hguest⟩ := staleRun_begun setup
    obtain ⟨n, hn⟩ := alone access (startAttach setup []) [] [] (stored setup)
    rw [← hguest, ← hmem, ← staleRun_alone, hmem, startAttach, run_bind, run_ret,
      attach_stale setup hstale] at hn
    have hagrees := h (staleRun setup).event (n + 2)
      ⟨setup.ring.hdr, word setup.ring .capacity setup.before, hstale.valid.2.1⟩
    refine hstale.other (hagrees ?_)
    have hresults : ((staleRun setup).state (n + 2)).guest = .rest _ := (Prod.mk.inj hn).1
    rw [show Run.mk setup (staleRun setup).event = staleRun setup from rfl, hresults]
    exact List.mem_singleton_self _
  · intro hstale event t
    exact (attaching_run hstale t).agrees

/-- A header of four bytes left in the region, and a host that publishes two. -/
def shrunk : Setup where
  ring := ⟨0, 2, isPowerOfTwo_two⟩
  total := 256
  fits := by decide
  before := ((ShmAudioBuffer.init 0 256 4).run access fun _ => 0).2

theorem handshake_shrunk : ¬ Agrees shrunk ((staleRun shrunk).state 6) := by
  intro h
  have hagrees := h ⟨0, 4, 2, by decide, rfl⟩ (by decide +kernel)
  exact absurd hagrees (by decide)

end AttachHandshake
