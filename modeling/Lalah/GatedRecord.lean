import Lalah.ByteMemory

/-! Records of several words behind a gate: the gate is zero, the publisher stores the data
words and opens the gate last; a reader loads the gate first. So at every instant the gate
is zero or the record is complete, and once complete it stays so. -/
namespace GatedRecord

open InteractionProgram RelyGuarantee ByteMemory

variable {F : Type} {L : Layout F}

/-- The words in the order of their stores, the gate behind them. -/
structure Record (L : Layout F) where
  base : ℕ
  words : List (F × ℕ)
  gate : F
  opens : ℕ
  nodup : ((words ++ [(gate, opens)]).map Prod.fst).Nodup
  fit : ∀ f v, (f, v) ∈ words ++ [(gate, opens)] → v < 256 ^ L.width f
  nonzero : opens ≠ 0

namespace Record

variable (r : Record L)

def all : List (F × ℕ) := r.words ++ [(r.gate, r.opens)]

def Closed (m : Memory) : Prop := L.get r.base r.gate m = 0

def Complete (m : Memory) : Prop := ∀ f v, (f, v) ∈ r.all → L.get r.base f m = v

def Gated (m : Memory) : Prop := r.Closed m ∨ r.Complete m

/-- What the publisher, and anybody who leaves the record alone, does to the memory. -/
def Advances (m m' : Memory) : Prop :=
  (r.Gated m → r.Gated m') ∧ (r.Complete m → r.Complete m')

def Filled (done : List (F × ℕ)) (m : Memory) : Prop :=
  r.Closed m ∧ ∀ f v, (f, v) ∈ done → L.get r.base f m = v

variable {r} {m m' m'' : Memory}

theorem gate_mem : (r.gate, r.opens) ∈ r.all := by simp [all]

theorem Complete.not_closed (h : r.Complete m) : ¬ r.Closed m := by
  intro hzero
  exact r.nonzero ((h r.gate r.opens gate_mem).symm.trans hzero)

theorem advances_refl (m : Memory) : r.Advances m m := ⟨id, id⟩

theorem Advances.trans (h : r.Advances m m') (k : r.Advances m' m'') : r.Advances m m'' :=
  ⟨k.1 ∘ h.1, k.2 ∘ h.2⟩

theorem advances_of_words (h : ∀ f, L.get r.base f m' = L.get r.base f m) : r.Advances m m' := by
  have hcomplete : r.Complete m → r.Complete m' := fun hc f v hmem => (h f).trans (hc f v hmem)
  refine ⟨fun hg => ?_, hcomplete⟩
  rcases hg with hclosed | hc
  · exact Or.inl ((h r.gate).trans hclosed)
  · exact Or.inr (hcomplete hc)

theorem get_store {f : F} {v : ℕ} (hmem : (f, v) ∈ r.all) (m : Memory) :
    L.get r.base f (L.put r.base f v m) = v := by
  rw [L.get_put, Nat.mod_eq_of_lt (r.fit f v hmem)]

theorem filled_step {done rest : List (F × ℕ)} {f : F} {v : ℕ}
    (hwords : r.words = done ++ (f, v) :: rest) (h : r.Filled done m) :
    r.Filled (done ++ [(f, v)]) (L.put r.base f v m) := by
  have hnodup := r.nodup
  rw [hwords, List.map_append, List.nodup_append, List.map_append, List.nodup_append] at hnodup
  obtain ⟨⟨_, _, hbefore⟩, _, hgate⟩ := hnodup
  have hne : r.gate ≠ f := fun e => hgate f (by simp) r.gate (by simp) e.symm
  refine ⟨(L.get_put_ne _ hne _ _).trans h.1, fun g w hmem => ?_⟩
  rcases List.mem_append.mp hmem with hold | hlast
  · have hother : g ≠ f := fun e => hbefore g (List.mem_map_of_mem hold) f (by simp) e
    rw [L.get_put_ne _ hother]
    exact h.2 g w hold
  · obtain ⟨rfl, rfl⟩ := Prod.mk.inj (List.mem_singleton.mp hlast)
    exact get_store (by simp [all, hwords]) m

theorem complete_gate (h : r.Filled r.words m) : r.Complete (L.put r.base r.gate r.opens m) := by
  have hnodup := r.nodup
  rw [List.map_append, List.nodup_append] at hnodup
  intro f v hmem
  rcases List.mem_append.mp hmem with hword | hlast
  · have hne : f ≠ r.gate := fun e => hnodup.2.2 f (List.mem_map_of_mem hword) r.gate (by simp) e
    rw [L.get_put_ne _ hne]
    exact h.2 f v hword
  · obtain ⟨rfl, rfl⟩ := Prod.mk.inj (List.mem_singleton.mp hlast)
    exact get_store gate_mem m

section Publisher

variable {C α : Type} {T : Terms Access Memory C} {c : C} {a : α}
  {Q : α → List Access → Memory → Prop} {I : Memory → Prop}

/-- The publisher, among others that store nothing, and with an invariant of its own that
stores to the record keep. -/
theorem safe_publish {made : List Access}
    (hrely : ∀ m m', T.rely m m' → m' = m) (hduring : ∀ made m, T.during c made m)
    (hstep : ∀ m f v, I m → r.Advances m (L.put r.base f v m) →
      T.guar m (L.put r.base f v m) ∧ I (L.put r.base f v m))
    (hend : ∀ made m, I m → r.Complete m → Q a made m) (hclosed : r.Closed m) (hI : I m) :
    Safe access T c Q (L.storeAll r.base a r.all) made m := by
  have hrest : ∀ (rest done : List (F × ℕ)) made m, r.words = done ++ rest → r.Filled done m →
      I m → Safe access T c Q (L.storeAll r.base a (rest ++ [(r.gate, r.opens)])) made m := by
    intro rest
    induction rest with
    | nil =>
      intro done made m hwords hfilled hI
      rw [List.append_nil] at hwords
      apply L.safe_store
      intro m' hs
      obtain rfl := hrely m m' hs
      have hcomplete := complete_gate (hwords ▸ hfilled)
      obtain ⟨hguar, hI'⟩ := hstep m' r.gate r.opens hI
        ⟨fun _ => Or.inr hcomplete, fun _ => hcomplete⟩
      exact ⟨hduring _ _, fun _ => ⟨hguar, hend _ _ hI' hcomplete⟩⟩
    | cons w rest ih =>
      intro done made m hwords hfilled hI
      apply L.safe_store
      intro m' hs
      obtain rfl := hrely m m' hs
      have hnext := filled_step hwords hfilled
      obtain ⟨hguar, hI'⟩ := hstep m' w.1 w.2 hI
        ⟨fun _ => Or.inl hnext.1, fun hc => absurd hfilled.1 hc.not_closed⟩
      refine ⟨hduring _ _, fun _ => ⟨hguar, ih (done ++ [w]) _ _ ?_ hnext hI'⟩⟩
      rw [hwords, List.append_assoc]
      rfl
  exact hrest r.words [] made m rfl ⟨hclosed, fun _ _ hmem => absurd hmem List.not_mem_nil⟩ hI

/-- The publisher, among others that store elsewhere. -/
theorem safe_publish_among {made : List Access}
    (hrely : ∀ m m', T.rely m m' → ∀ f v, (f, v) ∈ r.all → L.get r.base f m' = L.get r.base f m)
    (hduring : ∀ made m, r.Gated m → T.during c made m)
    (hguar : ∀ m f v, r.Advances m (L.put r.base f v m) → T.guar m (L.put r.base f v m))
    (hend : ∀ made m, r.Complete m → Q a made m) (hclosed : r.Closed m) :
    Safe access T c Q (L.storeAll r.base a r.all) made m := by
  have hfilled : ∀ done m m', T.rely m m' → (∀ w ∈ done, w ∈ r.all) → r.Filled done m →
      r.Filled done m' := by
    intro done m m' hs hsub h
    refine ⟨(hrely m m' hs _ _ gate_mem).trans h.1, fun f v hmem => ?_⟩
    exact (hrely m m' hs f v (hsub _ hmem)).trans (h.2 f v hmem)
  have hrest : ∀ (rest done : List (F × ℕ)) made m, r.words = done ++ rest → r.Filled done m →
      Safe access T c Q (L.storeAll r.base a (rest ++ [(r.gate, r.opens)])) made m := by
    intro rest
    induction rest with
    | nil =>
      intro done made m hwords h
      apply L.safe_store
      intro m' hs
      have h' := hfilled done m m' hs (fun w hw => by simp_all [all]) h
      rw [List.append_nil] at hwords
      have hcomplete := complete_gate (hwords ▸ h')
      exact ⟨hduring _ _ (Or.inl h'.1), fun _ =>
        ⟨hguar m' r.gate r.opens ⟨fun _ => Or.inr hcomplete, fun _ => hcomplete⟩,
          hend _ _ hcomplete⟩⟩
    | cons w rest ih =>
      intro done made m hwords h
      apply L.safe_store
      intro m' hs
      have h' := hfilled done m m' hs (fun w hw => by simp_all [all]) h
      have hnext := filled_step hwords h'
      have hguar' := hguar m' w.1 w.2
        ⟨fun _ => Or.inl hnext.1, fun hc => absurd h'.1 hc.not_closed⟩
      have hmore : r.words = (done ++ [w]) ++ rest := by simp [hwords]
      exact ⟨hduring _ _ (Or.inl h'.1), fun _ => ⟨hguar', ih (done ++ [w]) _ _ hmore hnext⟩⟩
  exact hrest r.words [] made m rfl ⟨hclosed, fun _ _ hmem => absurd hmem List.not_mem_nil⟩

end Publisher

section Reader

variable {C α : Type} {T : Terms Access Memory C} {c : C} {Q : α → List Access → Memory → Prop}
  {I : Memory → Prop} {k : ℕ → MemProg α} {made : List Access}

theorem safe_complete {f : F} {v : ℕ} (hrely : ∀ m m', T.rely m m' → r.Advances m m')
    (hfree : ∀ made m, I m → T.during c made m ∧ T.guar m m)
    (hstable : ∀ m m', I m → r.Advances m m' → I m') (hmem : (f, v) ∈ r.all) (hI : I m)
    (hc : r.Complete m)
    (hk : ∀ made m', I m' → r.Complete m' → Safe access T c Q (k v) made m') :
    Safe access T c Q (L.load r.base f >>= k) made m := by
  apply L.safe_load
  intro m' hs
  have hadvance := hrely m m' hs
  have hI' := hstable m m' hI hadvance
  have hc' := hadvance.2 hc
  refine ⟨(hfree _ _ hI').1, fun _ => ⟨(hfree made m' hI').2, ?_⟩⟩
  rw [hc' f v hmem]
  exact hk _ m' hI' hc'

/-- The gate is found closed, or open with the record complete behind it. -/
theorem safe_gate (hrely : ∀ m m', T.rely m m' → r.Advances m m')
    (hfree : ∀ made m, I m → T.during c made m ∧ T.guar m m)
    (hstable : ∀ m m', I m → r.Advances m m' → I m') (hI : I m) (hgated : r.Gated m)
    (hclosed : ∀ made m', I m' → r.Closed m' → Safe access T c Q (k 0) made m')
    (hopen : ∀ made m', I m' → r.Complete m' → Safe access T c Q (k r.opens) made m') :
    Safe access T c Q (L.load r.base r.gate >>= k) made m := by
  apply L.safe_load
  intro m' hs
  have hadvance := hrely m m' hs
  have hI' := hstable m m' hI hadvance
  refine ⟨(hfree _ _ hI').1, fun _ => ⟨(hfree made m' hI').2, ?_⟩⟩
  rcases hadvance.1 hgated with hzero | hc
  · rw [show L.get r.base r.gate m' = 0 from hzero]
    exact hclosed _ m' hI' hzero
  · rw [hc r.gate r.opens gate_mem]
    exact hopen _ m' hI' hc

end Reader

section Polls

variable {ρ : Type} {x : ρ} {log : List (Option ρ)}

variable (r x) in
/-- Polls that returned nothing while the gate was closed, then polls that returned `x`. -/
def Polls (log : List (Option ρ)) (m : Memory) : Prop :=
  r.Gated m ∧ ∃ a b, log = List.replicate a none ++ List.replicate b (some x) ∧
    (0 < b → r.Complete m)

theorem polls_nil (h : r.Gated m) : r.Polls x [] m :=
  ⟨h, 0, 0, rfl, fun hb => absurd hb (by decide)⟩

theorem polls_stable (h : r.Polls x log m) (hs : r.Advances m m') : r.Polls x log m' := by
  obtain ⟨hgated, a, b, hlog, hb⟩ := h
  exact ⟨hs.1 hgated, a, b, hlog, hs.2 ∘ hb⟩

theorem polls_closed (h : r.Polls x log m) (hclosed : r.Closed m) :
    r.Polls x (log ++ [none]) m := by
  obtain ⟨hgated, a, b, rfl, hb⟩ := h
  have hnone : b = 0 := by
    by_contra hpos
    exact (hb (by omega)).not_closed hclosed
  subst hnone
  refine ⟨hgated, a + 1, 0, ?_, fun hpos => absurd hpos (by decide)⟩
  simp [List.replicate_succ']

theorem polls_open (h : r.Polls x log m) (hc : r.Complete m) : r.Polls x (log ++ [some x]) m := by
  obtain ⟨hgated, a, b, rfl, _⟩ := h
  refine ⟨hgated, a, b + 1, ?_, fun _ => hc⟩
  rw [List.append_assoc, ← List.replicate_succ']

end Polls

end Record

end GatedRecord
