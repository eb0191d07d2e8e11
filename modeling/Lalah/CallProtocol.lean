import Lalah.InteractionProgram

/-! Protocols of calls. A protocol says in which state a call is permitted and where each of
its replies leads; a program obeys it if no reply brings it to a call that is not permitted.
Programs that give up at the first error are run in `ExceptT`. -/
namespace CallProtocol

open InteractionProgram

variable {Op : Type} {Reply : Op → Type} {S α β C ε : Type}

structure Protocol (Op : Type) (Reply : Op → Type) (S : Type) where
  permits : Op → S → Prop
  after : (op : Op) → Reply op → S → S

variable (P : Protocol Op Reply S)

/-- Whatever the replies, every call of the program is permitted, and it ends in `Q`. -/
def Obeys (Q : α → S → Prop) : Prog Op Reply α → S → Prop
  | .ret a, s => Q a s
  | .act op k, s => P.permits op s ∧ ∀ reply, Obeys Q (k reply) (P.after op reply s)

variable {P} {Q : α → S → Prop} {R : β → S → Prop} {p : Prog Op Reply α} {s : S}

theorem obeys_mono {Q' : α → S → Prop} (hq : ∀ a s, Q a s → Q' a s) (h : Obeys P Q p s) :
    Obeys P Q' p s := by
  induction p generalizing s with
  | ret a => exact hq a s h
  | act op k ih => exact ⟨h.1, fun reply => ih reply (h.2 reply)⟩

theorem obeys_bind {f : α → Prog Op Reply β} (h : Obeys P (fun a s => Obeys P R (f a) s) p s) :
    Obeys P R (p >>= f) s := by
  induction p generalizing s with
  | ret a => exact h
  | act op k ih => exact ⟨h.1, fun reply => ih reply (h.2 reply)⟩

theorem obeys_call {op : Op} {k : Reply op → Prog Op Reply β} (hop : P.permits op s)
    (hk : ∀ reply, Obeys P R (k reply) (P.after op reply s)) :
    Obeys P R (perform op >>= k) s := ⟨hop, hk⟩

section Fallible

variable {x : ExceptT ε (Prog Op Reply) α} {f : α → ExceptT ε (Prog Op Reply) β}
  {E : Except ε β → S → Prop}

/-- Behind an error nothing more is called. -/
theorem obeys_try (h : Obeys P (fun r s => match r with
      | .ok a => Obeys P E (f a).run s
      | .error e => E (.error e) s) x.run s) : Obeys P E (x >>= f).run s := by
  apply obeys_bind (p := x.run)
  apply obeys_mono _ h
  intro r s hr
  cases r with
  | ok a => exact hr
  | error e => exact hr

/-- A call that may fail; `as` reads its reply. -/
theorem obeys_fallible (op : Op) (as : Reply op → Except ε α) {Q : Except ε α → S → Prop}
    (hop : P.permits op s)
    (herror : ∀ reply err, as reply = .error err → Q (.error err) (P.after op reply s))
    (hok : ∀ reply a, as reply = .ok a → Q (.ok a) (P.after op reply s)) :
    Obeys P Q (perform op >>= fun reply => .ret (as reply)) s := by
  apply obeys_call hop
  intro reply
  change Q (as reply) (P.after op reply s)
  cases h : as reply with
  | error err => exact herror reply err h
  | ok a => exact hok reply a h

theorem obeys_infallible {p : Prog Op Reply α}
    (h : Obeys P (fun a s => Obeys P E (f a).run s) p s) :
    Obeys P E (ExceptT.lift p >>= f).run s := by
  apply obeys_try
  apply obeys_bind
  exact obeys_mono (fun a s ha => ha) h

end Fallible

section Embedded

variable {Op' : Type} {Reply' : Op' → Type} {S' : Type} {P' : Protocol Op' Reply' S'}
  {f : Op → Op'} {g : ∀ op, Reply' (f op) → Reply op}

/-- A program of a part, seen as one of the whole: what it does to the part, with the rest as
it was. -/
theorem obeys_lift (part : S' → S) (put : S → S' → S') {s' : S'}
    (hpermits : ∀ op t, P.permits op t → P'.permits (f op) (put t s'))
    (hafter : ∀ op reply t, P'.after (f op) reply (put t s') = put (P.after op (g op reply) t) s')
    (hput : put (part s') s' = s') (h : Obeys P Q p (part s')) :
    Obeys P' (fun a t' => ∃ t, t' = put t s' ∧ Q a t) (p.lift f g) s' := by
  have hall : ∀ {p : Prog Op Reply α} {t : S}, Obeys P Q p t →
      Obeys P' (fun a t' => ∃ t, t' = put t s' ∧ Q a t) (p.lift f g) (put t s') := by
    intro p
    induction p with
    | ret a => exact fun {t} h => ⟨t, rfl, h⟩
    | act op k ih =>
      intro t h
      refine ⟨hpermits op t h.1, fun reply => ?_⟩
      rw [hafter]
      exact ih _ (h.2 _)
  have hstart := hall h
  rwa [hput] at hstart

theorem obeys_lift_ensures {allowed : Op → Prop} {result : α → Prop} {s' : S'}
    (hpermits : ∀ op, allowed op → P'.permits (f op) s')
    (hafter : ∀ op reply, P'.after (f op) reply s' = s')
    (h : p.Ensures (fun _ _ => True) allowed result) :
    Obeys P' (fun a t => t = s' ∧ result a) (p.lift f g) s' := by
  induction p with
  | ret a => exact ⟨rfl, h⟩
  | act op k ih =>
    refine ⟨hpermits op h.1, fun reply => ?_⟩
    rw [hafter]
    exact ih _ (h.2 _ trivial)

end Embedded

section Party

variable {party : Party Op Reply C} {Between : C → S → Prop}

/-- What is left of the program in progress obeys, and where it ends the next one starts. -/
def Abides (P : Protocol Op Reply S) (Between : C → S → Prop) (party : Party Op Reply C)
    (s : S) : Prop := Obeys P Between party.prog s

theorem abides_invoke {call : C → Prog Op Reply C} (h : Abides P Between party s)
    (hcall : ∀ c s, Between c s → Obeys P Between (call c) s) :
    Abides P Between (party.invoke call) s := by
  rcases busy_or_rest party with hb | ⟨c, hc⟩
  · rw [invoke_busy hb]
    exact h
  · rw [Abides, hc] at h
    rw [invoke_rest hc, Abides, settle_prog]
    exact hcall c s h

theorem abides_act {op : Op} {k : Reply op → Prog Op Reply C} (h : Abides P Between party s)
    (hp : party.prog = .act op k) : P.permits op s ∧ ∀ reply c made,
      Abides P Between (settle c made (k reply)) (P.after op reply s) := by
  rw [Abides, hp] at h
  refine ⟨h.1, fun reply c made => ?_⟩
  rw [Abides, settle_prog]
  exact h.2 reply

end Party

section Caller

/-- A thread, beside what its calls have come to. -/
structure Caller (Op : Type) (Reply : Op → Type) (C S : Type) where
  thread : Party Op Reply C
  state : S

def Caller.next (after : (op : Op) → Reply op → S → S) (call : C → Prog Op Reply C)
    (reply : (op : Op) → Reply op) (s : Caller Op Reply C S) : Caller Op Reply C S :=
  match s.thread.prog with
  | .ret _ => { s with thread := s.thread.invoke call }
  | .act op k => ⟨settle s.thread.ctl (op :: s.thread.made) (k (reply op)), after op (reply op) s.state⟩

variable {s : Caller Op Reply C S} {call : C → Prog Op Reply C} {Between : C → S → Prop}

theorem abides_next (h : Abides P Between s.thread s.state)
    (hcall : ∀ c s, Between c s → Obeys P Between (call c) s) (reply : (op : Op) → Reply op) :
    Abides P Between (s.next P.after call reply).thread (s.next P.after call reply).state := by
  rcases busy_or_rest s.thread with ⟨op, k, hop⟩ | ⟨c, hc⟩
  · simp only [Caller.next, hop]
    exact (abides_act h hop).2 _ _ _
  · simp only [Caller.next, hc]
    exact abides_invoke h hcall

theorem kept_next {I : S → Prop} (h : Abides P Between s.thread s.state)
    (hstep : ∀ op reply s, P.permits op s → I s → I (P.after op reply s)) (hs : I s.state)
    (reply : (op : Op) → Reply op) : I (s.next P.after call reply).state := by
  rcases busy_or_rest s.thread with ⟨op, k, hop⟩ | ⟨c, hc⟩
  · simp only [Caller.next, hop]
    exact hstep op _ _ (abides_act h hop).1 hs
  · simp only [Caller.next, hc]
    exact hs

theorem permits_pending (h : Abides P Between s.thread s.state) {op : Op}
    (hop : s.thread.prog.pending = some op) : P.permits op s.state := by
  obtain ⟨k, hk⟩ := pending_eq_some.mp hop
  exact (abides_act h hk).1

theorem between_rest (h : Abides P Between s.thread s.state) {c : C}
    (hc : s.thread.prog = .ret c) : Between c s.state := by
  rwa [Abides, hc] at h

end Caller

section Progress

variable {s : ℕ → Caller Op Reply C S} {after : (op : Op) → Reply op → S → S}
  {call : C → Prog Op Reply C} {reply : ℕ → (op : Op) → Reply op}

theorem prog_invoke (hnext : ∀ t, s (t + 1) = (s t).next after call (reply t)) {t : ℕ} {c : C}
    (hc : (s t).thread.prog = .ret c) :
    (s (t + 1)).thread.prog = call c ∧ (s (t + 1)).state = (s t).state := by
  rw [hnext, Caller.next]
  simp only [hc, invoke_rest hc, settle_prog, and_self]

variable {ok : (op : Op) → Reply op → Prop} {target : Op → Prop}

/-- A thread that comes to the same end with every program has called nothing. -/
theorem quiet_run (hnext : ∀ t, s (t + 1) = (s t).next after call (reply t)) {c c' : C}
    (hstart : (s 0).thread.prog = .ret c) (hcall : call c = .ret c') (hstay : call c' = .ret c')
    (t : ℕ) : (s t).state = (s 0).state ∧
      ((s t).thread.prog = .ret c ∨ (s t).thread.prog = .ret c') := by
  induction t with
  | zero => exact ⟨rfl, Or.inl hstart⟩
  | succ t ih =>
    obtain ⟨hstate, hprog⟩ := ih
    rcases hprog with hprog | hprog
    · obtain ⟨hnew, hold⟩ := prog_invoke hnext hprog
      exact ⟨hold.trans hstate, Or.inr (hnew.trans hcall)⟩
    · obtain ⟨hnew, hold⟩ := prog_invoke hnext hprog
      exact ⟨hold.trans hstate, Or.inr (hnew.trans hstay)⟩

end Progress

end CallProtocol
