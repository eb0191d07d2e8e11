import Mathlib.Tactic.Common
import Mathlib.Data.List.Infix
import Mathlib.Data.Nat.Find
import Mathlib.Data.Nat.Init
import Mathlib.Logic.Function.Iterate
import Mathlib.Order.Monotone.Basic

/-! Programs as trees of indivisible accesses to a shared state, over any set of
accesses with their replies. A program runs alone (`Prog.run`), or one access at a time
while others move the state, against the history of that state (`Reach`). A party has a
control value and one program at a time; the program ends in the next control value. -/
namespace InteractionProgram

/-- Finished with a value, or one access and the program for each of its replies. -/
inductive Prog (Op : Type) (Reply : Op → Type) (α : Type) where
  | ret (a : α)
  | act (op : Op) (k : Reply op → Prog Op Reply α)

variable {Op : Type} {Reply : Op → Type} {α β C σ : Type}

def Prog.bind : Prog Op Reply α → (α → Prog Op Reply β) → Prog Op Reply β
  | .ret a, f => f a
  | .act op k, f => .act op fun r => (k r).bind f

instance : Monad (Prog Op Reply) where
  pure := .ret
  bind := .bind

@[simp] theorem pure_eq (a : α) : (pure a : Prog Op Reply α) = .ret a := rfl

@[simp] theorem ret_bind (a : α) (f : α → Prog Op Reply β) :
    (Prog.ret a : Prog Op Reply α) >>= f = f a := rfl

@[simp] theorem act_bind (op : Op) (k : Reply op → Prog Op Reply α)
    (f : α → Prog Op Reply β) : Prog.act op k >>= f = .act op fun r => k r >>= f := rfl

theorem prog_bind_ret (p : Prog Op Reply α) : p >>= Prog.ret = p := by
  induction p with
  | ret a => rfl
  | act op k ih => simp [ih]

theorem prog_bind_assoc {γ : Type} (p : Prog Op Reply α) (f : α → Prog Op Reply β)
    (g : β → Prog Op Reply γ) : p >>= f >>= g = p >>= fun a => f a >>= g := by
  induction p with
  | ret a => rfl
  | act op k ih => simp [ih]

instance : LawfulMonad (Prog Op Reply) :=
  LawfulMonad.mk' _ prog_bind_ret (fun _ _ => rfl) prog_bind_assoc

def Prog.result : Prog Op Reply α → Option α
  | .ret a => some a
  | .act _ _ => none

theorem result_eq_some {p : Prog Op Reply α} {a : α} : p.result = some a ↔ p = .ret a := by
  cases p <;> simp [Prog.result]

def Prog.pending : Prog Op Reply α → Option Op
  | .ret _ => none
  | .act op _ => some op

theorem pending_eq_some {p : Prog Op Reply α} {op : Op} :
    p.pending = some op ↔ ∃ k, p = .act op k := by
  cases p with
  | ret a => simp [Prog.pending]
  | act op' k =>
    constructor
    · intro h
      obtain rfl := Option.some.inj h
      exact ⟨k, rfl⟩
    · rintro ⟨k', hk⟩
      cases hk
      rfl

def perform (op : Op) : Prog Op Reply (Reply op) := .act op .ret

@[simp] theorem perform_bind (op : Op) (f : Reply op → Prog Op Reply β) :
    perform op >>= f = .act op f := rfl

def Prog.lift {Op' : Type} {Reply' : Op' → Type} (f : Op → Op')
    (g : ∀ op, Reply' (f op) → Reply op) : Prog Op Reply α → Prog Op' Reply' α
  | .ret a => .ret a
  | .act op k => .act (f op) fun r => (k (g op r)).lift f g

theorem lift_bind {Op' : Type} {Reply' : Op' → Type} {f : Op → Op'}
    {g : ∀ op, Reply' (f op) → Reply op} (p : Prog Op Reply α) (k : α → Prog Op Reply β) :
    (p >>= k).lift f g = p.lift f g >>= fun a => (k a).lift f g := by
  induction p with
  | ret a => rfl
  | act op k' ih => exact congrArg (Prog.act (f op)) (funext fun r => ih (g op r))

section Alone

variable (sem : (op : Op) → σ → Reply op × σ)

/-- The program run to its end with nobody else moving the state. -/
def Prog.run : Prog Op Reply α → σ → α × σ
  | .ret a, s => (a, s)
  | .act op k, s => (k (sem op s).1).run (sem op s).2

@[simp] theorem run_ret (a : α) (s : σ) :
    (Prog.ret a : Prog Op Reply α).run sem s = (a, s) := rfl

@[simp] theorem run_act (op : Op) (k : Reply op → Prog Op Reply α) (s : σ) :
    (Prog.act op k).run sem s = (k (sem op s).1).run sem (sem op s).2 := rfl

@[simp] theorem run_bind (p : Prog Op Reply α) (f : α → Prog Op Reply β) (s : σ) :
    (p >>= f).run sem s = (f (p.run sem s).1).run sem (p.run sem s).2 := by
  induction p generalizing s with
  | ret a => rfl
  | act op k ih => exact ih _ _

theorem run_eq_of_fst {p : Prog Op Reply α} {s : σ} {a : α} (h : (p.run sem s).1 = a) :
    p.run sem s = (a, (p.run sem s).2) := Prod.ext h rfl

end Alone

section Interleaved

variable (sem : (op : Op) → σ → Reply op × σ) (mem : ℕ → σ)

/-- From instant `t` to instant `u` of the history the program has come down to a
residual; at every other instant of that interval somebody else moved. -/
inductive Reach : ℕ → Prog Op Reply α → ℕ → Prog Op Reply α → Prop where
  | refl (t p) : Reach t p t p
  | wait {t op k u q} : Reach (t + 1) (.act op k) u q → Reach t (.act op k) u q
  | act {t op k u q} : mem (t + 1) = (sem op (mem t)).2 →
      Reach (t + 1) (k (sem op (mem t)).1) u q → Reach t (.act op k) u q

variable {sem mem}

theorem Reach.le {t u : ℕ} {p q : Prog Op Reply α} (h : Reach sem mem t p u q) : t ≤ u := by
  induction h with
  | refl => exact Nat.le_refl _
  | wait _ ih => omega
  | act _ _ ih => omega

theorem Reach.trans {t u v : ℕ} {p q r : Prog Op Reply α}
    (h : Reach sem mem t p u q) (k : Reach sem mem u q v r) : Reach sem mem t p v r := by
  induction h with
  | refl => exact k
  | wait _ ih => exact .wait (ih k)
  | act e _ ih => exact .act e (ih k)

/-- A finished program stays where it is: the end of a call is the instant of its last access. -/
theorem Reach.ret_inv {t u : ℕ} {a b : α}
    (h : Reach sem mem t (.ret a : Prog Op Reply α) u (.ret b)) : u = t ∧ b = a := by
  cases h
  exact ⟨rfl, rfl⟩

/-- A finished call made its first access at some instant of the interval. -/
theorem Reach.act_inv {t u : ℕ} {op : Op} {k : Reply op → Prog Op Reply α} {a : α}
    (h : Reach sem mem t (.act op k) u (.ret a)) :
    ∃ v, t ≤ v ∧ mem (v + 1) = (sem op (mem v)).2 ∧
      Reach sem mem (v + 1) (k (sem op (mem v)).1) u (.ret a) := by
  generalize hp : Prog.act op k = p at h
  generalize hq : (Prog.ret a : Prog Op Reply α) = q at h
  induction h with
  | refl => cases hq; cases hp
  | wait _ ih =>
    obtain ⟨v, hv, hm, hr⟩ := ih hp hq
    exact ⟨v, by omega, hm, hr⟩
  | @act t _ _ _ _ e h =>
    cases hp; cases hq
    exact ⟨t, Nat.le_refl t, e, h⟩

/-- A finished sequence finished its first part, then its second. -/
theorem Reach.bind_inv {p : Prog Op Reply α} {f : α → Prog Op Reply β} {t u : ℕ} {b : β}
    (h : Reach sem mem t (p >>= f) u (.ret b)) :
    ∃ v a, Reach sem mem t p v (.ret a) ∧ Reach sem mem v (f a) u (.ret b) := by
  induction p generalizing t with
  | ret a => exact ⟨t, a, .refl _ _, h⟩
  | act op k ih =>
    obtain ⟨w, hw, hm, hr⟩ := h.act_inv
    obtain ⟨v, a, hp, hf⟩ := ih _ hr
    refine ⟨v, a, ?_, hf⟩
    have hstart : Reach sem mem w (.act op k) v (.ret a) := .act hm hp
    clear hp hr h hm
    induction w, hw using Nat.le_induction with
    | base => exact hstart
    | succ w _ ihw => exact ihw (.wait hstart)

end Interleaved

section Shape

variable (ok : (op : Op) → Reply op → Prop) (P : Op → Prop)

/-- Every access the program can come to, over all replies that are `ok`, satisfies `P`. -/
def Prog.Every : Prog Op Reply α → Prop
  | .ret _ => True
  | .act op k => P op ∧ ∀ r, ok op r → (k r).Every

variable {ok P}

theorem every_bind {p : Prog Op Reply α} {f : α → Prog Op Reply β}
    (hp : p.Every ok P) (hf : ∀ a, (f a).Every ok P) : (p >>= f).Every ok P := by
  induction p with
  | ret a => exact hf a
  | act op k ih => exact ⟨hp.1, fun r hr => ih r (hp.2 r hr)⟩

theorem every_lift {Op' : Type} {Reply' : Op' → Type} {ok' : (op : Op') → Reply' op → Prop}
    {P' : Op' → Prop} {f : Op → Op'} {g : ∀ op, Reply' (f op) → Reply op} {p : Prog Op Reply α}
    (hp : p.Every ok P) (hop : ∀ op, P op → P' (f op))
    (hok : ∀ op r, ok' (f op) r → ok op (g op r)) : (p.lift f g).Every ok' P' := by
  induction p with
  | ret a => trivial
  | act op k ih => exact ⟨hop op hp.1, fun r hr => ih _ (hp.2 _ (hok op r hr))⟩

theorem every_left {p : Prog Op Reply α} {f : α → Prog Op Reply β}
    (h : (p >>= f).Every ok P) : p.Every ok P := by
  induction p with
  | ret a => trivial
  | act op k ih => exact ⟨h.1, fun r hr => ih r (h.2 r hr)⟩

theorem every_right {sem : (op : Op) → σ → Reply op × σ} (hok : ∀ op s, ok op (sem op s).1)
    {p : Prog Op Reply α} {f : α → Prog Op Reply β} (h : (p >>= f).Every ok P) (s : σ) :
    (f (p.run sem s).1).Every ok P := by
  induction p generalizing s with
  | ret a => exact h
  | act op k ih => exact ih _ (h.2 _ (hok op s)) _

theorem every_mono {P' : Op → Prop} {p : Prog Op Reply α} (hp : p.Every ok P)
    (h : ∀ op, P op → P' op) : p.Every ok P' := by
  induction p with
  | ret a => trivial
  | act op k ih => exact ⟨h op hp.1, fun r hr => ih r (hp.2 r hr)⟩

variable (ok P) in
/-- `Every`, and each value the program can end in satisfies `Q`. -/
def Prog.Ensures (Q : α → Prop) : Prog Op Reply α → Prop
  | .ret a => Q a
  | .act op k => P op ∧ ∀ r, ok op r → (k r).Ensures Q

theorem every_iff_ensures {p : Prog Op Reply α} :
    p.Every ok P ↔ p.Ensures ok P fun _ => True := by
  induction p with
  | ret a => exact Iff.rfl
  | act op k ih => exact and_congr Iff.rfl (forall_congr' fun r => imp_congr Iff.rfl (ih r))

theorem ensures_bind {Q : α → Prop} {R : β → Prop} {p : Prog Op Reply α}
    {f : α → Prog Op Reply β} (hp : p.Ensures ok P Q) (hf : ∀ a, Q a → (f a).Ensures ok P R) :
    (p >>= f).Ensures ok P R := by
  induction p with
  | ret a => exact hf a hp
  | act op k ih => exact ⟨hp.1, fun r hr => ih r (hp.2 r hr)⟩

theorem ensures_left {R : β → Prop} {p : Prog Op Reply α} {f : α → Prog Op Reply β}
    (h : (p >>= f).Ensures ok P R) : p.Ensures ok P fun _ => True := by
  induction p with
  | ret a => trivial
  | act op k ih => exact ⟨h.1, fun r hr => ih r (h.2 r hr)⟩

/-- What each access does to the state, the whole program does. -/
theorem every_run {sem : (op : Op) → σ → Reply op × σ} {R : σ → σ → Prop}
    (hrefl : ∀ s, R s s) (htrans : ∀ {s s' s''}, R s s' → R s' s'' → R s s'')
    (hok : ∀ op s, ok op (sem op s).1) (hstep : ∀ op s, P op → R s (sem op s).2)
    {p : Prog Op Reply α} (hp : p.Every ok P) (s : σ) : R s (p.run sem s).2 := by
  induction p generalizing s with
  | ret a => exact hrefl s
  | act op k ih => exact htrans (hstep op s hp.1) (ih _ (hp.2 _ (hok op s)) _)

end Shape

/-- `made` holds the accesses of the program in progress, the latest first. -/
structure Party (Op : Type) (Reply : Op → Type) (C : Type) where
  ctl : C
  made : List Op
  prog : Prog Op Reply C

def Party.rest (c : C) : Party Op Reply C := ⟨c, [], .ret c⟩

/-- A program that has come to its end hands its value over as the next control. -/
def settle (c : C) (made : List Op) : Prog Op Reply C → Party Op Reply C
  | .ret c' => .rest c'
  | .act op k => ⟨c, made, .act op k⟩

/-- Start the next program; a party that is inside one goes on with that. -/
def Party.invoke (p : Party Op Reply C) (call : C → Prog Op Reply C) : Party Op Reply C :=
  match p.prog with
  | .ret c => settle c [] (call c)
  | .act _ _ => p

def Party.access (sem : (op : Op) → σ → Reply op × σ) (p : Party Op Reply C) (s : σ) :
    Party Op Reply C × σ :=
  match p.prog with
  | .ret _ => (p, s)
  | .act op k => (settle p.ctl (op :: p.made) (k (sem op s).1), (sem op s).2)

/-- Go on with the program in progress, or start the one that the control calls for. -/
def Party.advance (sem : (op : Op) → σ → Reply op × σ) (call : C → Prog Op Reply C)
    (p : Party Op Reply C) (s : σ) : Party Op Reply C × σ :=
  match p.prog with
  | .ret _ => (p.invoke call, s)
  | .act _ _ => p.access sem s

def Party.Busy (p : Party Op Reply C) : Prop := ∃ op k, p.prog = .act op k

@[simp] theorem settle_prog (c : C) (made : List Op) (p : Prog Op Reply C) :
    (settle c made p).prog = p := by
  cases p <;> rfl

section Moves

variable {p : Party Op Reply C} {c : C} {call : C → Prog Op Reply C}
  {sem : (op : Op) → σ → Reply op × σ} {op : Op} {k : Reply op → Prog Op Reply C}

theorem not_busy (h : p.prog = .ret c) : ¬ p.Busy := by
  rintro ⟨op, k, hp⟩
  simp [h] at hp

theorem busy_or_rest (p : Party Op Reply C) : p.Busy ∨ ∃ c, p.prog = .ret c := by
  cases h : p.prog with
  | ret c => exact Or.inr ⟨c, rfl⟩
  | act op k => exact Or.inl ⟨op, k, h⟩

theorem invoke_rest (h : p.prog = .ret c) : p.invoke call = settle c [] (call c) := by
  simp [Party.invoke, h]

theorem invoke_busy (h : p.Busy) : p.invoke call = p := by
  obtain ⟨op, k, hp⟩ := h
  simp [Party.invoke, hp]

theorem access_rest (h : p.prog = .ret c) (s : σ) : p.access sem s = (p, s) := by
  simp [Party.access, h]

theorem access_act (h : p.prog = .act op k) (s : σ) : p.access sem s =
    (settle p.ctl (op :: p.made) (k (sem op s).1), (sem op s).2) := by
  simp [Party.access, h]

theorem advance_rest (h : p.prog = .ret c) (s : σ) :
    p.advance sem call s = (p.invoke call, s) := by
  simp [Party.advance, h]

theorem advance_busy (h : p.Busy) (s : σ) :
    p.advance sem call s = p.access sem s := by
  obtain ⟨op, k, hp⟩ := h
  simp [Party.advance, hp]

theorem settle_ctl {made : List Op} {q : Prog Op Reply C} (h : (settle c made q).Busy) :
    (settle c made q).ctl = c := by
  cases q with
  | ret a => exact absurd h (not_busy rfl)
  | act op k => rfl

theorem advance_ctl {s : σ} (hrest : ∀ c, p.prog = .ret c → p.ctl = c)
    (h : (p.advance sem call s).1.Busy) : (p.advance sem call s).1.ctl = p.ctl := by
  rcases busy_or_rest p with ⟨op, k, hk⟩ | ⟨c, hc⟩
  · rw [advance_busy ⟨op, k, hk⟩, access_act hk] at h ⊢
    exact settle_ctl h
  · rw [advance_rest hc, invoke_rest hc] at h ⊢
    exact (settle_ctl h).trans (hrest c hc).symm

theorem advance_single {Q : C → Prop} {s : σ}
    (hsingle : ∀ c, Q c → ∃ (op : Op) (f : Reply op → C), call c = .act op fun r => .ret (f r))
    (hp : p.Busy → Q p.ctl → p.prog = call p.ctl) (h : (p.advance sem call s).1.Busy)
    (hq : Q (p.advance sem call s).1.ctl) :
    (p.advance sem call s).1.prog = call (p.advance sem call s).1.ctl := by
  rcases busy_or_rest p with hb | ⟨c, hc⟩
  · obtain ⟨op, k, hk⟩ := id hb
    rw [advance_busy hb, access_act hk] at h hq
    dsimp only at h hq
    have hctl := settle_ctl h
    rw [hctl] at hq
    obtain ⟨op', f, hcall⟩ := hsingle _ hq
    have hprog := hp hb hq
    rw [hk, hcall] at hprog
    cases hprog
    exact absurd h (not_busy rfl)
  · rw [advance_rest hc, invoke_rest hc] at h ⊢
    rw [settle_ctl h, settle_prog]

variable {mem : ℕ → σ} {q : Prog Op Reply C} {t u : ℕ}

theorem Reach.pause (h : Reach sem mem t q u p.prog) (hbusy : p.Busy) :
    Reach sem mem t q (u + 1) p.prog := by
  obtain ⟨op, k, hp⟩ := hbusy
  rw [hp] at h ⊢
  exact h.trans (.wait (.refl _ _))

theorem Reach.access (h : Reach sem mem t q u p.prog) (hbusy : p.Busy)
    (hm : mem (u + 1) = (p.access sem (mem u)).2) :
    Reach sem mem t q (u + 1) (p.access sem (mem u)).1.prog := by
  obtain ⟨op, k, hp⟩ := hbusy
  rw [access_act hp] at hm ⊢
  rw [hp] at h
  rw [settle_prog]
  exact h.trans (.act hm (.refl _ _))

/-- The history of one party: at its own instants it makes its next access, at all others
it stays where it is. -/
def Moves (sem : (op : Op) → σ → Reply op × σ) (mem : ℕ → σ) (mine : ℕ → Prop)
    (p : ℕ → Party Op Reply C) (t : ℕ) : Prop :=
  (mine t → p (t + 1) = ((p t).access sem (mem t)).1 ∧
    mem (t + 1) = ((p t).access sem (mem t)).2) ∧
  (¬ mine t → p (t + 1) = p t)

theorem reach_moves {mine : ℕ → Prop} {p : ℕ → Party Op Reply C} {a b : ℕ} (hab : a ≤ b)
    (hmoves : ∀ t, a ≤ t → t < b → (p t).Busy ∧ Moves sem mem mine p t) :
    Reach sem mem a (p a).prog b (p b).prog := by
  induction b, hab using Nat.le_induction with
  | base => exact .refl _ _
  | succ b hab ih =>
    have hreach := ih fun t hat htb => hmoves t hat (by omega)
    obtain ⟨hbusy, hmine, hwait⟩ := hmoves b hab (by omega)
    by_cases hb : mine b
    · obtain ⟨hp, hm⟩ := hmine hb
      rw [hp]
      exact hreach.access hbusy hm
    · rw [hwait hb]
      exact hreach.pause hbusy

theorem moves_stay {mine : ℕ → Prop} {p : ℕ → Party Op Reply C} {a b : ℕ} (hab : a ≤ b)
    (hwait : ∀ t, a ≤ t → t < b → ¬ mine t ∧ Moves sem mem mine p t) : p b = p a := by
  induction b, hab using Nat.le_induction with
  | base => rfl
  | succ b hab ih =>
    obtain ⟨hb, _, hstay⟩ := hwait b hab (by omega)
    exact (hstay hb).trans (ih fun t hat htb => hwait t hat (by omega))

/-- A call that is over made its first access at the first of the party's own instants. -/
theorem first_access {mine : ℕ → Prop} {p : ℕ → Party Op Reply C} {a b : ℕ} (hab : a ≤ b)
    (hmoves : ∀ t, a ≤ t → t < b → (p t).Busy ∧ Moves sem mem mine p t)
    (hstart : (p a).prog = .act op k) (hend : ¬ (p b).Busy) :
    ∃ v, a ≤ v ∧ v < b ∧ mine v ∧ (∀ t, a ≤ t → t < v → ¬ mine t) ∧
      Reach sem mem (v + 1) (k (sem op (mem v)).1) b (p b).prog := by
  classical
  have hsome : ∃ v, a ≤ v ∧ v < b ∧ mine v := by
    by_contra hnone
    have hstay : p b = p a := moves_stay hab fun t hat htb =>
      ⟨fun ht => hnone ⟨t, hat, htb, ht⟩, (hmoves t hat htb).2⟩
    exact hend (hstay ▸ ⟨op, k, hstart⟩)
  obtain ⟨hav, hvb, hv⟩ := Nat.find_spec hsome
  have hfirst : ∀ t, a ≤ t → t < Nat.find hsome → ¬ mine t :=
    fun t hat htv ht => Nat.find_min hsome htv ⟨hat, by omega, ht⟩
  refine ⟨Nat.find hsome, hav, hvb, hv, hfirst, ?_⟩
  have hstay : p (Nat.find hsome) = p a := moves_stay hav fun t hat htv =>
    ⟨hfirst t hat htv, (hmoves t hat (by omega)).2⟩
  have hrest : Reach sem mem (Nat.find hsome + 1) (p (Nat.find hsome + 1)).prog b (p b).prog :=
    reach_moves hvb fun t hvt htb => hmoves t (by omega) htb
  obtain ⟨hp, _⟩ := (hmoves _ hav hvb).2.1 hv
  rwa [hp, hstay, access_act hstart, settle_prog] at hrest

variable (sem) in
/-- A party whose accesses are the only ones comes to the end of its program. -/
theorem alone (q : Prog Op Reply C) (c : C) (made : List Op) (s : σ) :
    ∃ n, (fun x : Party Op Reply C × σ => x.1.access sem x.2)^[n] (settle c made q, s) =
      (.rest (q.run sem s).1, (q.run sem s).2) := by
  induction q generalizing made s with
  | ret a => exact ⟨0, rfl⟩
  | act op k ih =>
    obtain ⟨n, hn⟩ := ih (sem op s).1 (op :: made) (sem op s).2
    exact ⟨n + 1, hn⟩

end Moves

section Shape

variable {ok : (op : Op) → Reply op → Prop} {P : Op → Prop} {p : Party Op Reply C}
  {sem : (op : Op) → σ → Reply op × σ} {call : C → Prog Op Reply C}

theorem every_invoke (hp : p.prog.Every ok P) (hcall : ∀ c, (call c).Every ok P) :
    (p.invoke call).prog.Every ok P := by
  rcases busy_or_rest p with hb | ⟨c, hc⟩
  · rwa [invoke_busy hb]
  · rw [invoke_rest hc, settle_prog]
    exact hcall c

theorem every_access (hok : ∀ op s, ok op (sem op s).1) (hp : p.prog.Every ok P) (s : σ) :
    (p.access sem s).1.prog.Every ok P := by
  rcases busy_or_rest p with ⟨op, k, hk⟩ | ⟨c, hc⟩
  · rw [hk] at hp
    rw [access_act hk, settle_prog]
    exact hp.2 _ (hok op s)
  · rwa [access_rest hc]

theorem access_state (hp : p.prog.Every ok P) (s : σ) :
    (p.access sem s).2 = s ∨ ∃ op, P op ∧ (p.access sem s).2 = (sem op s).2 := by
  rcases busy_or_rest p with ⟨op, k, hk⟩ | ⟨c, hc⟩
  · rw [hk] at hp
    rw [access_act hk]
    exact Or.inr ⟨op, hp.1, rfl⟩
  · exact Or.inl (by rw [access_rest hc])

theorem every_advance (hok : ∀ op s, ok op (sem op s).1) (hp : p.prog.Every ok P)
    (hcall : ∀ c, (call c).Every ok P) (s : σ) : (p.advance sem call s).1.prog.Every ok P := by
  rcases busy_or_rest p with hb | ⟨c, hc⟩
  · rw [advance_busy hb]
    exact every_access hok hp s
  · rw [advance_rest hc]
    exact every_invoke hp hcall

theorem every_settle {P : C → Op → Prop} {c : C} {made : List Op} {q : Prog Op Reply C}
    (h : q.Every ok (P c)) : (settle c made q).prog.Every ok (P (settle c made q).ctl) := by
  cases q with
  | ret a => trivial
  | act op k => exact h

theorem every_advance_ctl {P : C → Op → Prop} (hok : ∀ op s, ok op (sem op s).1)
    (hp : p.prog.Every ok (P p.ctl)) (hcall : ∀ c, (call c).Every ok (P c)) (s : σ) :
    (p.advance sem call s).1.prog.Every ok (P (p.advance sem call s).1.ctl) := by
  rcases busy_or_rest p with ⟨op, k, hk⟩ | ⟨c, hc⟩
  · rw [hk] at hp
    rw [advance_busy ⟨op, k, hk⟩, access_act hk]
    exact every_settle (hp.2 _ (hok op s))
  · rw [advance_rest hc, invoke_rest hc]
    exact every_settle (hcall c)

theorem advance_state (hp : p.prog.Every ok P) (s : σ) :
    (p.advance sem call s).2 = s ∨ ∃ op, P op ∧ (p.advance sem call s).2 = (sem op s).2 := by
  rcases busy_or_rest p with hb | ⟨c, hc⟩
  · rw [advance_busy hb]
    exact access_state hp s
  · exact Or.inl (by rw [advance_rest hc])

end Shape

theorem prefix_of_steps {f : ℕ → List α} (h : ∀ t, f t <+: f (t + 1)) {t u : ℕ} (htu : t ≤ u) :
    f t <+: f u := Nat.rel_of_forall_rel_succ_of_le (· <+: ·) h htu

end InteractionProgram
