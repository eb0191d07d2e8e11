import Lalah.InteractionProgram
import Mathlib.Algebra.Group.Nat.Defs

/-! Programs that also say what each partial operation of the machine needs: a difference
that must not underflow, a sum that must fit 64 bits, a slice that must lie in its array.
`erase` forgets what is said and leaves the plain program. -/
namespace CheckedProgram

open InteractionProgram

inductive Check where
  | sub (a b : ℕ)
  | add (a b : ℕ)
  | slice (lo hi len : ℕ)
  deriving DecidableEq, Repr

def Check.Ok : Check → Prop
  | .sub a b => b ≤ a
  | .add a b => a + b < 2 ^ 64
  | .slice lo hi len => lo ≤ hi ∧ hi ≤ len

instance (c : Check) : Decidable c.Ok :=
  match c with
  | .sub _ _ => inferInstanceAs (Decidable (_ ≤ _))
  | .add _ _ => inferInstanceAs (Decidable (_ < _))
  | .slice _ _ _ => inferInstanceAs (Decidable (_ ∧ _))

inductive Checked (Op : Type) where
  | act (op : Op)
  | check (c : Check)

@[reducible] def Checked.Reply {Op : Type} (Reply : Op → Type) : Checked Op → Type
  | .act op => Reply op
  | .check _ => Unit

abbrev CheckedProg (Op : Type) (Reply : Op → Type) (α : Type) :=
  Prog (Checked Op) (Checked.Reply Reply) α

variable {Op : Type} {Reply : Op → Type} {α β : Type}

def require (c : Check) : CheckedProg Op Reply Unit := .act (.check c) .ret

def plain : Prog Op Reply α → CheckedProg Op Reply α := Prog.lift .act fun _ r => r

def erase : CheckedProg Op Reply α → Prog Op Reply α
  | .ret a => .ret a
  | .act (.act op) k => .act op fun r => erase (k r)
  | .act (.check _) k => erase (k ())

@[simp] theorem erase_ret (a : α) : erase (.ret a : CheckedProg Op Reply α) = .ret a := rfl

@[simp] theorem erase_bind (p : CheckedProg Op Reply α) (f : α → CheckedProg Op Reply β) :
    erase (p >>= f) = erase p >>= fun a => erase (f a) := by
  induction p with
  | ret a => rfl
  | act op k ih =>
    cases op with
    | act op => exact congrArg (Prog.act op) (funext fun r => ih r)
    | check c => exact ih ()

@[simp] theorem erase_plain (p : Prog Op Reply α) : erase (plain p) = p := by
  induction p with
  | ret a => rfl
  | act op k ih => exact congrArg (Prog.act op) (funext ih)

@[simp] theorem erase_require (c : Check) :
    erase (require c : CheckedProg Op Reply Unit) = .ret () := rfl

section Sound

variable (ok : (op : Op) → Reply op → Prop) (P : Op → Prop)

def Checked.Replies : (c : Checked Op) → Checked.Reply Reply c → Prop
  | .act op, r => ok op r
  | .check _, _ => True

def Checked.Holds : Checked Op → Prop
  | .act op => P op
  | .check c => c.Ok

variable (Q : α → Prop)

/-- Over all replies that are `ok`: every access satisfies `P`, every check holds, and the
program ends in `Q`. -/
abbrev Sound (p : CheckedProg Op Reply α) : Prop :=
  p.Ensures (Checked.Replies ok) (Checked.Holds P) Q

variable {ok P Q}

theorem sound_plain {p : Prog Op Reply α} : Sound ok P Q (plain p) ↔ p.Ensures ok P Q := by
  induction p with
  | ret a => exact Iff.rfl
  | act op k ih =>
    exact and_congr Iff.rfl (forall_congr' fun r => imp_congr Iff.rfl (ih r))

theorem sound_require {c : Check} {f : Unit → CheckedProg Op Reply α} :
    Sound ok P Q (require c >>= f) ↔ c.Ok ∧ Sound ok P Q (f ()) :=
  and_congr Iff.rfl ⟨fun h => h () trivial, fun h _ _ => h⟩

theorem sound_perform {op : Op} {k : Reply op → CheckedProg Op Reply α} (h : P op)
    (hk : ∀ r, ok op r → Sound ok P Q (k r)) : Sound ok P Q (plain (perform op) >>= k) := ⟨h, hk⟩

theorem sound_right {σ : Type} {sem : (op : Op) → σ → Reply op × σ}
    (hok : ∀ op s, ok op (sem op s).1) {R : β → Prop} {p : Prog Op Reply α}
    {f : α → CheckedProg Op Reply β} (h : Sound ok P R (plain p >>= f)) (s : σ) :
    Sound ok P R (f (p.run sem s).1) := by
  induction p generalizing s with
  | ret a => exact h
  | act op k ih => exact ih _ (h.2 _ (hok op s)) _

end Sound

end CheckedProgram
