import Mathlib.Data.List.Basic
import Mathlib.Order.Basic

/-! The loop that reads the arguments of a command line, flags alone and flags with a value
behind them. What it accepts are the renderings of lists of settings, each of them of one. -/
namespace ArgumentLoop

variable {A E S F : Type}

inductive Arm (A E : Type) where
  | flag (set : A → A)
  | valued (take : String → A → Except E A)
  | refused (e : E)

section Loop

variable (arm : String → Arm A E) (missing : E)

/-- A value is the argument behind its flag, whatever it looks like. -/
def parse : List String → A → Except E A
  | [], a => .ok a
  | arg :: rest, a =>
    match arm arg with
    | .flag set => parse rest (set a)
    | .refused e => .error e
    | .valued take =>
      match rest with
      | [] => .error missing
      | value :: rest =>
        match take value a with
        | .error e => .error e
        | .ok a => parse rest a

inductive Turn : List String → (A → A) → Prop where
  | flag {arg : String} {set : A → A} (h : arm arg = .flag set) : Turn [arg] set
  | valued {arg value : String} {take : String → A → Except E A} {f : A → A}
      (h : arm arg = .valued take) (htake : ∀ a, take value a = .ok (f a)) : Turn [arg, value] f

inductive Stuck : List String → A → E → Prop where
  | refused {arg : String} {rest : List String} {a : A} {e : E} (h : arm arg = .refused e) :
      Stuck (arg :: rest) a e
  | missing {arg : String} {a : A} {take : String → A → Except E A} (h : arm arg = .valued take) :
      Stuck [arg] a missing
  | value {arg value : String} {rest : List String} {a : A} {e : E}
      {take : String → A → Except E A} (h : arm arg = .valued take)
      (htake : take value a = .error e) : Stuck (arg :: value :: rest) a e

/-- The settings that a command line is made of. -/
structure Settings (S : Type) where
  words : S → List String
  apply : S → A → A
  injective : Function.Injective words
  turn : ∀ s, Turn arm (words s) (apply s)
  flag : ∀ arg set, arm arg = .flag set → ∃ s, words s = [arg]
  valued : ∀ arg take value a a', arm arg = .valued take → take value a = .ok a' →
    ∃ s, words s = [arg, value]

end Loop

variable {arm : String → Arm A E} {missing : E}

theorem parse_turn {words rest : List String} {f : A → A} (h : Turn arm words f) (a : A) :
    parse arm missing (words ++ rest) a = parse arm missing rest (f a) := by
  cases h with
  | flag h => simp [parse, h]
  | valued h htake => simp [parse, h, htake]

theorem parse_stuck {rest : List String} {a : A} {e : E} (h : Stuck arm missing rest a e) :
    parse arm missing rest a = .error e := by
  cases h with
  | refused h => simp [parse, h]
  | missing h => simp [parse, h]
  | value h htake => simp [parse, h, htake]

theorem turn_words {words words' rest rest' : List String} {f f' : A → A}
    (h : Turn arm words f) (h' : Turn arm words' f') (heq : words ++ rest = words' ++ rest') :
    words = words' := by
  cases h <;> cases h' <;> simp_all

namespace Settings

variable (g : Settings arm S)

def line (settings : List S) : List String := settings.flatMap g.words

def outcome (settings : List S) (a : A) : A := settings.foldl (fun a s => g.apply s a) a

@[simp] theorem line_nil : g.line [] = [] := rfl
@[simp] theorem line_cons (s : S) (settings : List S) :
    g.line (s :: settings) = g.words s ++ g.line settings := rfl
@[simp] theorem outcome_nil (a : A) : g.outcome [] a = a := rfl
@[simp] theorem outcome_cons (s : S) (settings : List S) (a : A) :
    g.outcome (s :: settings) a = g.outcome settings (g.apply s a) := rfl

theorem parse_line (missing : E) (settings : List S) (rest : List String) (a : A) :
    parse arm missing (g.line settings ++ rest) a =
      parse arm missing rest (g.outcome settings a) := by
  induction settings generalizing a with
  | nil => rfl
  | cons s settings ih =>
    calc parse arm missing (g.line (s :: settings) ++ rest) a
        = parse arm missing (g.words s ++ (g.line settings ++ rest)) a := by simp
      _ = parse arm missing (g.line settings ++ rest) (g.apply s a) := parse_turn (g.turn s) a
      _ = parse arm missing rest (g.outcome (s :: settings) a) := ih (g.apply s a)

theorem line_cases (missing : E) (argv : List String) (a : A) : argv = [] ∨
    (∃ s rest, argv = g.words s ++ rest) ∨ ∃ e, Stuck arm missing argv a e := by
  cases argv with
  | nil => exact Or.inl rfl
  | cons arg rest =>
    apply Or.inr
    cases h : arm arg with
    | flag set =>
      obtain ⟨s, hs⟩ := g.flag arg set h
      exact Or.inl ⟨s, rest, by simp [hs]⟩
    | refused e => exact Or.inr ⟨e, .refused h⟩
    | valued take =>
      cases rest with
      | nil => exact Or.inr ⟨missing, .missing h⟩
      | cons value rest =>
        cases htake : take value a with
        | error e => exact Or.inr ⟨e, .value h htake⟩
        | ok a' =>
          obtain ⟨s, hs⟩ := g.valued arg take value a a' h htake
          exact Or.inl ⟨s, rest, by simp [hs]⟩

theorem words_ne_nil (s : S) : g.words s ≠ [] := by
  intro h
  have hturn := g.turn s
  rw [h] at hturn
  cases hturn

/-- Every line splits into settings and what stops the loop, if anything does. -/
theorem line_splits (missing : E) (argv : List String) (a : A) : ∃ settings rest,
    argv = g.line settings ++ rest ∧
      (rest = [] ∨ ∃ e, Stuck arm missing rest (g.outcome settings a) e) := by
  induction h : argv.length using Nat.strongRecOn generalizing argv a with
  | _ n ih =>
    rcases g.line_cases missing argv a with rfl | ⟨s, rest, rfl⟩ | ⟨e, hstuck⟩
    · exact ⟨[], [], rfl, Or.inl rfl⟩
    · have hpos : 0 < (g.words s).length := List.length_pos_iff.mpr (g.words_ne_nil s)
      have hlt : rest.length < n := by simp only [List.length_append] at h; omega
      obtain ⟨settings, rest', hrest, hend⟩ := ih rest.length hlt rest (g.apply s a) rfl
      exact ⟨s :: settings, rest', by simp [hrest], hend⟩
    · exact ⟨[], argv, rfl, Or.inr ⟨e, hstuck⟩⟩

theorem line_injective : Function.Injective g.line := by
  intro settings
  induction settings with
  | nil =>
    intro settings' h
    cases settings' with
    | nil => rfl
    | cons s settings' =>
      have hnil : g.words s = [] := (List.append_eq_nil_iff.mp (Eq.symm h)).1
      exact absurd hnil (g.words_ne_nil s)
  | cons s settings ih =>
    intro settings' h
    cases settings' with
    | nil =>
      have hnil : g.words s = [] := (List.append_eq_nil_iff.mp h).1
      exact absurd hnil (g.words_ne_nil s)
    | cons s' settings' =>
      simp only [line_cons] at h
      have hwords := turn_words (g.turn s) (g.turn s') h
      obtain rfl := g.injective hwords
      rw [ih (List.append_cancel_left h)]

theorem parse_ok_iff {argv : List String} {a a' : A} : parse arm missing argv a = .ok a' ↔
    ∃ settings, argv = g.line settings ∧ a' = g.outcome settings a := by
  constructor
  · intro h
    obtain ⟨settings, rest, rfl, rfl | ⟨e, hstuck⟩⟩ := g.line_splits missing argv a
    · rw [parse_line] at h
      cases h
      exact ⟨settings, by simp, rfl⟩
    · rw [parse_line, parse_stuck hstuck] at h
      cases h
  · rintro ⟨settings, rfl, rfl⟩
    have h := g.parse_line missing settings [] a
    rwa [List.append_nil] at h

theorem parse_error_iff {argv : List String} {a : A} {e : E} :
    parse arm missing argv a = .error e ↔ ∃ settings rest, argv = g.line settings ++ rest ∧
      Stuck arm missing rest (g.outcome settings a) e := by
  constructor
  · intro h
    obtain ⟨settings, rest, rfl, rfl | ⟨e', hstuck⟩⟩ := g.line_splits missing argv a
    · rw [parse_line] at h
      cases h
    · refine ⟨settings, rest, rfl, ?_⟩
      rw [parse_line, parse_stuck hstuck] at h
      cases h
      exact hstuck
  · rintro ⟨settings, rest, rfl, hstuck⟩
    rw [parse_line, parse_stuck hstuck]

section Fields

variable {g}

theorem outcome_last (get : A → F) (put : S → Option F)
    (h : ∀ s a, get (g.apply s a) = (put s).getD (get a)) (settings : List S) (a : A) :
    get (g.outcome settings a) = (settings.filterMap put).getLastD (get a) := by
  induction settings generalizing a with
  | nil => rfl
  | cons s settings ih =>
    rw [outcome_cons, ih, h]
    cases hput : put s with
    | none => rw [List.filterMap_cons_none hput, Option.getD_none]
    | some v => rw [List.filterMap_cons_some hput, Option.getD_some, List.getLastD_cons]

theorem outcome_getLast (get : A → Option F) (put : S → Option F)
    (h : ∀ s a, get (g.apply s a) = (put s).or (get a)) (settings : List S) {a : A}
    (ha : get a = none) : get (g.outcome settings a) = (settings.filterMap put).getLast? := by
  have hput (s : S) (a : A) : get (g.apply s a) = ((put s).map some).getD (get a) := by
    rw [h]
    cases put s <;> rfl
  have hmap : settings.filterMap (fun s => (put s).map some) = (settings.filterMap put).map some := by
    rw [List.map_filterMap]
  rw [outcome_last get _ hput, hmap, ha]
  cases hl : (settings.filterMap put).getLast? <;>
    simp only [List.getLastD_eq_getLast?, List.getLast?_map, hl] <;> rfl

theorem outcome_any (get : A → Bool) (mark : S → Bool)
    (h : ∀ s a, get (g.apply s a) = (mark s || get a)) (settings : List S) {a : A}
    (ha : get a = false) : get (g.outcome settings a) = settings.any mark := by
  have hany (a : A) : get (g.outcome settings a) = (settings.any mark || get a) := by
    induction settings generalizing a with
    | nil => rfl
    | cons s settings ih =>
      rw [outcome_cons, ih, h, List.any_cons]
      cases mark s <;> simp
  rw [hany, ha, Bool.or_false]

end Fields

end Settings

end ArgumentLoop
