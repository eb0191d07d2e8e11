import Mathlib.Algebra.Group.Nat.Defs

/-! Numerals of unsigned machine integers: how a text is read, digit after digit with every step
checked, and what texts are read at all. -/
namespace UnsignedNumeral

/-- The loop over the digits; a number that leaves the width is refused where it does. -/
def digits (w : ℕ) : List Char → ℕ → Option ℕ
  | [], n => some n
  | c :: cs, n =>
    if c.isDigit then
      if 10 * n + (c.toNat - '0'.toNat) < 2 ^ w then digits w cs (10 * n + (c.toNat - '0'.toNat))
      else none
    else none

def unsigned : List Char → List Char
  | '+' :: cs => cs
  | cs => cs

/-- A plus sign may stand in front of the digits, of which there is one at least. -/
def parse (w : ℕ) (s : String) : Option ℕ :=
  if unsigned s.toList = [] then none else digits w (unsigned s.toList) 0

def Spells (s : String) (n : ℕ) : Prop :=
  ∃ cs : List Char, cs ≠ [] ∧ (∀ c ∈ cs, c.isDigit = true) ∧
    (s.toList = cs ∨ s.toList = '+' :: cs) ∧ n = Nat.ofDigitChars 10 cs 0

structure Numeral (w : ℕ) where
  text : String
  value : ℕ
  spells : Spells text value
  bound : value < 2 ^ w

variable {w n m : ℕ} {cs : List Char} {s : String}

theorem le_ofDigitChars (cs : List Char) (n : ℕ) : n ≤ Nat.ofDigitChars 10 cs n := by
  induction cs generalizing n with
  | nil => simp
  | cons c cs ih =>
    rw [Nat.ofDigitChars_cons]
    have h := ih (10 * n + (c.toNat - '0'.toNat))
    omega

/-- What was read only grows, so that the last number tells whether any step overflowed. -/
theorem digits_iff (hn : n < 2 ^ w) : digits w cs n = some m ↔
    (∀ c ∈ cs, c.isDigit = true) ∧ m = Nat.ofDigitChars 10 cs n ∧ m < 2 ^ w := by
  induction cs generalizing n with
  | nil =>
    simp only [digits, Option.some.injEq, Nat.ofDigitChars_nil]
    constructor
    · rintro rfl
      exact ⟨by simp, rfl, hn⟩
    · exact fun h => h.2.1.symm
  | cons c cs ih =>
    simp only [digits, List.forall_mem_cons, Nat.ofDigitChars_cons]
    have hle := le_ofDigitChars cs (10 * n + (c.toNat - '0'.toNat))
    split
    next hc =>
      split
      next hlt => rw [ih hlt]; simp only [hc, true_and]
      next hover =>
        constructor
        · intro h
          cases h
        · rintro ⟨-, rfl, hm⟩
          exact absurd (Nat.lt_of_le_of_lt hle hm) hover
    next hc =>
      constructor
      · intro h
        cases h
      · exact fun h => absurd h.1.1 hc

theorem digits_zero_iff : digits w cs 0 = some m ↔
    (∀ c ∈ cs, c.isDigit = true) ∧ m = Nat.ofDigitChars 10 cs 0 ∧ m < 2 ^ w :=
  digits_iff (Nat.two_pow_pos w)

theorem unsigned_cases (cs : List Char) : cs = unsigned cs ∨ cs = '+' :: unsigned cs := by
  unfold unsigned
  split
  · exact Or.inr rfl
  · exact Or.inl rfl

theorem unsigned_digits (hdigit : ∀ c ∈ cs, c.isDigit = true) : unsigned cs = cs := by
  unfold unsigned
  split
  next cs =>
    have hplus : '+'.isDigit = true := hdigit '+' List.mem_cons_self
    cases hplus
  · rfl

/-- A text is read exactly when it is a numeral of a number that fits. -/
theorem parse_iff : parse w s = some n ↔ Spells s n ∧ n < 2 ^ w := by
  constructor
  · intro h
    by_cases hnil : unsigned s.toList = []
    · simp [parse, hnil] at h
    · rw [parse, if_neg hnil] at h
      obtain ⟨hdigit, hn, hlt⟩ := digits_zero_iff.mp h
      exact ⟨⟨unsigned s.toList, hnil, hdigit, unsigned_cases _, hn⟩, hlt⟩
  · rintro ⟨⟨cs, hne, hdigit, hs, hn⟩, hlt⟩
    have hcs : unsigned s.toList = cs := by
      rcases hs with hs | hs
      · rw [hs, unsigned_digits hdigit]
      · rw [hs]
        rfl
    rw [parse, hcs, if_neg hne]
    exact digits_zero_iff.mpr ⟨hdigit, hn, hlt⟩

theorem parse_repr (h : n < 2 ^ w) : parse w (toString n) = some n := by
  have hlist : (toString n).toList = Nat.toDigits 10 n := by
    simp
  refine parse_iff.mpr ⟨⟨Nat.toDigits 10 n, ?_, ?_, Or.inl hlist, ?_⟩, h⟩
  · exact Nat.toDigits_ne_nil
  · exact fun c hc => Nat.isDigit_of_mem_toDigits (by decide) (by decide) hc
  · exact Nat.ofDigitChars_ten_toDigits.symm

theorem parse_numeral (x : Numeral w) : parse w x.text = some x.value :=
  parse_iff.mpr ⟨x.spells, x.bound⟩

theorem numeral_ext {x y : Numeral w} (h : x.text = y.text) : x = y := by
  have hvalue : some x.value = some y.value := by
    rw [← parse_numeral x, ← parse_numeral y, h]
  cases x
  cases y
  cases hvalue
  cases h
  rfl

end UnsignedNumeral
