import Mathlib.Data.Nat.Init
import Mathlib.Data.Nat.ModEq
import Mathlib.Logic.Function.Basic
import Mathlib.Data.List.Basic

/-! Cyclic buffers over any item type: item `i` of an unbounded stream lives in cell
`i % cap`, so `cap` cells can hold the newest `cap` items. `Retains cap r` says that the
newest `r` are still there; the cell that the next item overwrites holds the oldest one. -/
namespace StreamWindow

variable {α : Type*} {cap r : ℕ} {f g : ℕ → α} {S : List α} {b : α}

def Retains (cap r : ℕ) (f : ℕ → α) (S : List α) : Prop :=
  ∀ i (h : i < S.length), S.length ≤ i + r → f (i % cap) = S[i]

theorem retains_nil : Retains cap r f [] := fun _ h => absurd h (by simp)

theorem Retains.mono {r' : ℕ} (h : Retains cap r f S) (hr : r' ≤ r) : Retains cap r' f S :=
  fun i hi hl => h i hi (by omega)

theorem Retains.congr (h : Retains cap r f S) (hfg : ∀ i, i < cap → f i = g i)
    (hcap : 0 < cap) : Retains cap r g S :=
  fun i hi hl => by rw [← hfg _ (Nat.mod_lt i hcap)]; exact h i hi hl

theorem cell_ne {i j : ℕ} (hij : i < j) (hlap : j < i + cap) : i % cap ≠ j % cap := by
  intro h
  have hd : cap ∣ j - i := (Nat.modEq_iff_dvd' hij.le).mp h
  have := Nat.le_of_dvd (by omega) hd
  omega

theorem cell_succ {i : ℕ} (h : i % cap + 1 < cap) : (i + 1) % cap = i % cap + 1 := by
  rw [Nat.add_mod, Nat.mod_eq_of_lt (show 1 < cap by omega), Nat.mod_eq_of_lt h]

theorem cell_wrap {i n : ℕ} (h : i % cap + n = cap) : (i + n) % cap = 0 := by
  rw [← Nat.mod_add_mod, h, Nat.mod_self]

/-- The cell of the next item may change freely once only `cap - 1` items are claimed. -/
theorem Retains.overwrite (h : Retains cap r f S) (hr : r < cap)
    (hg : ∀ i, i < cap → i ≠ S.length % cap → g i = f i) : Retains cap r g S := by
  intro i hi hl
  rw [hg _ (Nat.mod_lt i (by omega)) (cell_ne hi (by omega))]
  exact h i hi hl

theorem Retains.snoc (h : Retains cap r f S) (hb : f (S.length % cap) = b) :
    Retains cap (r + 1) f (S ++ [b]) := by
  intro i hi hl
  simp only [List.length_append, List.length_singleton] at hi hl
  by_cases hlast : i < S.length
  · rw [List.getElem_append_left hlast]
    exact h i hlast (by omega)
  · have hi : i = S.length := by omega
    subst hi
    simpa using hb

theorem Retains.write (h : Retains cap cap f S) (hcap : 0 < cap)
    (hg : ∀ i, i < cap → i ≠ S.length % cap → g i = f i) (hb : g (S.length % cap) = b) :
    Retains cap cap g (S ++ [b]) := by
  have hs := ((h.mono (Nat.sub_le cap 1)).overwrite (by omega) hg).snoc hb
  exact hs.mono (by omega)

/-- A range of positions inside the window reads back as that slice of the stream. -/
theorem Retains.slice {p n : ℕ} (h : Retains cap r f S) (hlo : S.length ≤ p + r)
    (hhi : p + n ≤ S.length) :
    (List.range n).map (fun i => f ((p + i) % cap)) = (S.drop p).take n := by
  apply List.ext_getElem
  · simp; omega
  · intro i hi _
    simp only [List.length_map, List.length_range] at hi
    simpa using h (p + i) (by omega) (by omega)

end StreamWindow
