import Lalah.InteractionProgram

/-! Rely-guarantee reasoning about one party. `Terms` says what the others may do to the
state, what the party's own accesses do to it, and what holds inside and between its
programs; `Safe` is the obligation of one program, and `Holds` the invariant of the party
that every step of a run keeps. Accesses made where `allow` fails carry no obligation. -/
namespace RelyGuarantee

open InteractionProgram

variable {Op : Type} {Reply : Op → Type} {α β C σ : Type}

structure Terms (Op σ C : Type) where
  rely : σ → σ → Prop
  allow : C → List Op → σ → Prop
  guar : σ → σ → Prop
  during : C → List Op → σ → Prop
  between : C → σ → Prop
  follows : C → C → Prop
  rely_refl : ∀ s, rely s s
  rely_trans : ∀ s s' s'', rely s s' → rely s' s'' → rely s s''
  between_stable : ∀ c s s', between c s → rely s s' → between c s'

variable (sem : (op : Op) → σ → Reply op × σ) (T : Terms Op σ C) (c : C)

/-- At each of its accesses, whatever the others did before it, the program is inside
`during`, keeps to `guar`, and it ends in `Q`. -/
def Safe (Q : α → List Op → σ → Prop) : Prog Op Reply α → List Op → σ → Prop
  | .ret a, made, s => Q a made s
  | .act op k, made, s => ∀ s', T.rely s s' → T.during c made s' ∧
      (T.allow c made s' → T.guar s' (sem op s').2 ∧
        Safe Q (k (sem op s').1) (op :: made) (sem op s').2)

variable {sem T c}

theorem safe_bind {Q : β → List Op → σ → Prop} {p : Prog Op Reply α}
    {f : α → Prog Op Reply β} {made : List Op} {s : σ}
    (h : Safe sem T c (fun a made' s' => Safe sem T c Q (f a) made' s') p made s) :
    Safe sem T c Q (p >>= f) made s := by
  induction p generalizing made s with
  | ret a => exact h
  | act op k ih =>
    intro s' hs
    obtain ⟨hd, ha⟩ := h s' hs
    exact ⟨hd, fun hallow => ⟨(ha hallow).1, ih _ (ha hallow).2⟩⟩

theorem safe_mono {Q Q' : α → List Op → σ → Prop} {p : Prog Op Reply α} {made : List Op}
    {s : σ} (hq : ∀ a made s, Q a made s → Q' a made s) (h : Safe sem T c Q p made s) :
    Safe sem T c Q' p made s := by
  induction p generalizing made s with
  | ret a => exact hq _ _ _ h
  | act op k ih =>
    intro s' hs
    obtain ⟨hd, ha⟩ := h s' hs
    exact ⟨hd, fun hallow => ⟨(ha hallow).1, ih _ (ha hallow).2⟩⟩

/-- An invariant that the others keep, and that every access of the program keeps, with what the
program's shape says of its result. -/
theorem safe_ensures {ok : (op : Op) → Reply op → Prop} {P : Op → Prop}
    {I : List Op → σ → Prop} {F : α → Prop} {p : Prog Op Reply α} {made : List Op} {s : σ}
    (hok : ∀ op s, ok op (sem op s).1)
    (hstep : ∀ made s s', I made s → T.rely s s' → T.during c made s' ∧
      ∀ op, P op → T.guar s' (sem op s').2 ∧ I (op :: made) (sem op s').2)
    (hp : p.Ensures ok P F) (h : I made s) :
    Safe sem T c (fun a made s => F a ∧ I made s) p made s := by
  induction p generalizing made s with
  | ret a => exact ⟨hp, h⟩
  | act op k ih =>
    intro s' hs
    obtain ⟨hduring, hop⟩ := hstep made s s' h hs
    obtain ⟨hguar, hkept⟩ := hop op hp.1
    exact ⟨hduring, fun _ => ⟨hguar, ih _ (hp.2 _ (hok op s')) hkept⟩⟩

theorem safe_every {ok : (op : Op) → Reply op → Prop} {P : Op → Prop}
    {I : List Op → σ → Prop} {p : Prog Op Reply α} {made : List Op} {s : σ}
    (hok : ∀ op s, ok op (sem op s).1)
    (hstep : ∀ made s s', I made s → T.rely s s' → T.during c made s' ∧
      ∀ op, P op → T.guar s' (sem op s').2 ∧ I (op :: made) (sem op s').2)
    (hp : p.Every ok P) (h : I made s) : Safe sem T c (fun _ => I) p made s :=
  safe_mono (fun _ _ _ h => h.2) (safe_ensures hok hstep (every_iff_ensures.mp hp) h)

/-- While the others leave the state alone, the program does what it does alone. -/
theorem safe_alone {Q : α → List Op → σ → Prop} {p : Prog Op Reply α} {made : List Op} {s : σ}
    (hrely : ∀ s s', T.rely s s' → s' = s) (h : Safe sem T c Q p made s) :
    Safe sem T c (fun a made s' => (a, s') = p.run sem s ∧ Q a made s') p made s := by
  induction p generalizing made s with
  | ret a => exact ⟨rfl, h⟩
  | act op k ih =>
    intro s' hs
    obtain rfl := hrely s s' hs
    obtain ⟨hduring, hrest⟩ := h s' hs
    exact ⟨hduring, fun hallow => ⟨(hrest hallow).1, ih _ (hrest hallow).2⟩⟩

variable (T c) in
/-- An invariant that the others keep, for which nothing but itself is asked of a party that
changes nothing. -/
structure Lasting (I : σ → Prop) : Prop where
  stable : ∀ s s', I s → T.rely s s' → I s'
  during : ∀ made s, I s → T.during c made s
  quiet : ∀ s, T.guar s s

theorem safe_look {I : σ → Prop} {Q : α → List Op → σ → Prop} {op : Op}
    {k : Reply op → Prog Op Reply α} {made : List Op} {s : σ} (hI : Lasting T c I)
    (hop : ∀ s, (sem op s).2 = s) (h : I s)
    (hk : ∀ made s', T.rely s s' → I s' → Safe sem T c Q (k (sem op s').1) made s') :
    Safe sem T c Q (perform op >>= k) made s := by
  intro s' hs
  have h' := hI.stable s s' h hs
  refine ⟨hI.during _ _ h', fun _ => ?_⟩
  rw [hop]
  exact ⟨hI.quiet s', hk _ s' hs h'⟩

theorem safe_looks {ok : (op : Op) → Reply op → Prop} {I : σ → Prop} {p : Prog Op Reply α}
    {made : List Op} {s : σ} (hI : Lasting T c I) (hok : ∀ op s, ok op (sem op s).1)
    (hp : p.Every ok fun op => ∀ s, (sem op s).2 = s) (h : I s) :
    Safe sem T c (fun _ _ => I) p made s := by
  refine safe_every (I := fun _ => I) hok (fun made s s' h hs => ?_) hp h
  have h' := hI.stable s s' h hs
  refine ⟨hI.during made s' h', fun op hop => ?_⟩
  rw [hop]
  exact ⟨hI.quiet s', h'⟩

/-- A program that is safe among others is correct alone. -/
theorem safe_run {Q : α → List Op → σ → Prop} {p : Prog Op Reply α} {made : List Op} {s : σ}
    (hallow : ∀ made s, T.allow c made s) (h : Safe sem T c Q p made s) :
    ∃ made', Q (p.run sem s).1 made' (p.run sem s).2 := by
  induction p generalizing made s with
  | ret a => exact ⟨made, h⟩
  | act op k ih => exact ih _ ((h s (T.rely_refl s)).2 (hallow _ _)).2

theorem safe_act_env {Q : α → List Op → σ → Prop} {op : Op} {k : Reply op → Prog Op Reply α}
    {made : List Op} {s s' : σ} (h : Safe sem T c Q (.act op k) made s)
    (hs : T.rely s s') : Safe sem T c Q (.act op k) made s' :=
  fun s'' hs' => h s'' (T.rely_trans _ _ _ hs hs')

variable (T) in
def Ends (c c' : C) (_ : List Op) (s : σ) : Prop := T.between c' s ∧ T.follows c c'

variable (sem T) in
def Holds (p : Party Op Reply C) (s : σ) : Prop :=
  match p.prog with
  | .ret c => p = .rest c ∧ T.between c s
  | .act op k => Safe sem T p.ctl (Ends T p.ctl) (.act op k) p.made s

theorem holds_rest {c : C} {s : σ} (h : T.between c s) :
    Holds sem T (Party.rest c : Party Op Reply C) s := ⟨rfl, h⟩

theorem holds_settle {c : C} {p : Prog Op Reply C} {made : List Op} {s : σ}
    (h : Safe sem T c (Ends T c) p made s) : Holds sem T (settle c made p) s := by
  cases p with
  | ret a => exact holds_rest h.1
  | act op k => exact h

theorem holds_env {p : Party Op Reply C} {s s' : σ} (h : Holds sem T p s)
    (hs : T.rely s s') : Holds sem T p s' := by
  unfold Holds at h ⊢
  split
  next hp => rw [hp] at h; exact ⟨h.1, T.between_stable _ _ _ h.2 hs⟩
  next hp => rw [hp] at h; exact safe_act_env h hs

theorem holds_invoke {p : Party Op Reply C} {s : σ} {call : C → Prog Op Reply C}
    (h : Holds sem T p s)
    (hcall : ∀ c, T.between c s → Safe sem T c (Ends T c) (call c) [] s) :
    Holds sem T (p.invoke call) s ∧
      ((p.invoke call).ctl = p.ctl ∨ T.follows p.ctl (p.invoke call).ctl) := by
  rcases busy_or_rest p with hb | ⟨c, hp⟩
  · rw [invoke_busy hb]
    exact ⟨h, Or.inl rfl⟩
  · have hr : p = .rest c ∧ T.between c s := by simpa [Holds, hp] using h
    obtain rfl : p.ctl = c := by rw [hr.1]; rfl
    have hs := hcall _ hr.2
    rw [invoke_rest hp]
    refine ⟨holds_settle hs, ?_⟩
    cases hprog : call p.ctl with
    | act op k => exact Or.inl rfl
    | ret c' =>
      rw [hprog] at hs
      exact Or.inr hs.2

/-- One access of the party: the invariant survives, the guarantee was kept, and the
control is as before or one allowed change further. -/
theorem holds_access {p : Party Op Reply C} {s : σ} (h : Holds sem T p s)
    (hbusy : p.Busy) (hallow : T.allow p.ctl p.made s) :
    Holds sem T (p.access sem s).1 (p.access sem s).2 ∧
      T.guar s (p.access sem s).2 ∧
      ((p.access sem s).1.ctl = p.ctl ∨ T.follows p.ctl (p.access sem s).1.ctl) := by
  obtain ⟨op, k, hp⟩ := hbusy
  have hs : Safe sem T p.ctl (Ends T p.ctl) (.act op k) p.made s := by
    simpa [Holds, hp] using h
  obtain ⟨hg, hk⟩ := (hs s (T.rely_refl s)).2 hallow
  rw [access_act hp]
  refine ⟨holds_settle hk, hg, ?_⟩
  dsimp only
  cases hr : k (sem op s).1 with
  | ret a => rw [hr] at hk; exact Or.inr hk.2
  | act op' k' => exact Or.inl rfl

theorem holds_during {p : Party Op Reply C} {s : σ} (h : Holds sem T p s)
    (hbusy : p.Busy) : T.during p.ctl p.made s := by
  obtain ⟨op, k, hp⟩ := hbusy
  have hs : Safe sem T p.ctl (Ends T p.ctl) (.act op k) p.made s := by
    simpa [Holds, hp] using h
  exact (hs s (T.rely_refl s)).1

theorem holds_between {p : Party Op Reply C} {s : σ} (h : Holds sem T p s)
    (hrest : ¬ p.Busy) : p = .rest p.ctl ∧ T.between p.ctl s := by
  cases hp : p.prog with
  | act op k => exact absurd ⟨op, k, hp⟩ hrest
  | ret c =>
    have hr : p = .rest c ∧ T.between c s := by simpa [Holds, hp] using h
    have hc : p.ctl = c := by rw [hr.1]; rfl
    exact ⟨hc ▸ hr.1, hc ▸ hr.2⟩

theorem holds_ret {p : Party Op Reply C} {c : C} {s : σ} (h : Holds sem T p s)
    (hc : p.prog = .ret c) : p = .rest c ∧ T.between c s := by
  simpa [Holds, hc] using h

section Both

variable {U : Terms Op σ C} {Q R : α → List Op → σ → Prop} {p : Prog Op Reply α} {made : List Op}
  {s : σ}

variable (T U) in
def Terms.both : Terms Op σ C where
  rely s s' := T.rely s s' ∧ U.rely s s'
  allow c made s := T.allow c made s ∧ U.allow c made s
  guar s s' := T.guar s s' ∧ U.guar s s'
  during c made s := T.during c made s ∧ U.during c made s
  between c s := T.between c s ∧ U.between c s
  follows c c' := T.follows c c' ∧ U.follows c c'
  rely_refl s := ⟨T.rely_refl s, U.rely_refl s⟩
  rely_trans s s' s'' h h' := ⟨T.rely_trans s s' s'' h.1 h'.1, U.rely_trans s s' s'' h.2 h'.2⟩
  between_stable c s s' h h' := ⟨T.between_stable c s s' h.1 h'.1, U.between_stable c s s' h.2 h'.2⟩

theorem safe_both (h : Safe sem T c Q p made s) (k : Safe sem U c R p made s) :
    Safe sem (T.both U) c (fun a made s => Q a made s ∧ R a made s) p made s := by
  induction p generalizing made s with
  | ret a => exact ⟨h, k⟩
  | act op next ih =>
    intro s' hs
    obtain ⟨hduring, hnext⟩ := h s' hs.1
    obtain ⟨kduring, knext⟩ := k s' hs.2
    constructor
    · exact ⟨hduring, kduring⟩
    · intro hallow
      obtain ⟨hguar, hrest⟩ := hnext hallow.1
      obtain ⟨kguar, krest⟩ := knext hallow.2
      exact ⟨⟨hguar, kguar⟩, ih _ hrest krest⟩

end Both

end RelyGuarantee
