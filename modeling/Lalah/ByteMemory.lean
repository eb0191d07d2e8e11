import Lalah.RelyGuarantee
import Mathlib.Tactic.Ring
import Mathlib.Data.Nat.Init

/-! Byte-addressed memory with little-endian words of any width, the accesses to it, and
record layouts: named fields at fixed, disjoint places from a base address. -/
namespace ByteMemory

open InteractionProgram RelyGuarantee

abbrev Memory := ℕ → UInt8

/-- The `w` bytes from `a`, the first one least significant. -/
def loadWord (m : Memory) : ℕ → ℕ → ℕ
  | 0, _ => 0
  | w + 1, a => (m a).toNat + 256 * loadWord m w (a + 1)

/-- Overwrites the `w` bytes from `a` with the low bytes of `v`. -/
def storeWord (m : Memory) (w a v : ℕ) : Memory :=
  fun x => if a ≤ x ∧ x < a + w then UInt8.ofNat (v / 256 ^ (x - a)) else m x

theorem storeWord_outside {m : Memory} {w a v x : ℕ} (h : x < a ∨ a + w ≤ x) :
    storeWord m w a v x = m x := if_neg (by omega)

theorem storeWord_inside {m : Memory} {w a v i : ℕ} (h : i < w) :
    storeWord m w a v (a + i) = UInt8.ofNat (v / 256 ^ i) := by
  simp [storeWord, h]

theorem loadWord_congr {m m' : Memory} {w a : ℕ} (h : ∀ i, i < w → m (a + i) = m' (a + i)) :
    loadWord m w a = loadWord m' w a := by
  induction w generalizing a with
  | zero => rfl
  | succ w ih =>
    have h0 : m a = m' a := h 0 (by omega)
    have hs : loadWord m w (a + 1) = loadWord m' w (a + 1) := ih fun i hi => by
      simpa [Nat.add_assoc, Nat.add_comm 1 i] using h (i + 1) (by omega)
    simp [loadWord, h0, hs]

theorem loadWord_lt (m : Memory) (w a : ℕ) : loadWord m w a < 256 ^ w := by
  induction w generalizing a with
  | zero => simp [loadWord]
  | succ w ih =>
    have hb := (m a).toNat_lt
    have hw := ih (a + 1)
    rw [loadWord, pow_succ]
    omega

theorem loadWord_storeWord_outside {m : Memory} {w a w' a' v : ℕ}
    (h : a + w ≤ a' ∨ a' + w' ≤ a) :
    loadWord (storeWord m w' a' v) w a = loadWord m w a :=
  loadWord_congr fun i hi => storeWord_outside (by omega)

theorem loadWord_of_bytes {m : Memory} {w a v : ℕ}
    (h : ∀ i, i < w → m (a + i) = UInt8.ofNat (v / 256 ^ i)) :
    loadWord m w a = v % 256 ^ w := by
  induction w generalizing a v with
  | zero => simp [loadWord, Nat.mod_one]
  | succ w ih =>
    have h0 : (m a).toNat = v % 256 := by simpa using congrArg UInt8.toNat (h 0 (by omega))
    have hs : loadWord m w (a + 1) = v / 256 % 256 ^ w := ih fun i hi => by
      have := h (i + 1) (by omega)
      rwa [pow_succ', ← Nat.div_div_eq_div_mul, ← Nat.add_assoc, Nat.add_right_comm] at this
    rw [loadWord, h0, hs, pow_succ', Nat.mod_mul]

theorem loadWord_storeWord (m : Memory) (w a v : ℕ) :
    loadWord (storeWord m w a v) w a = v % 256 ^ w :=
  loadWord_of_bytes fun _ hi => storeWord_inside hi

theorem loadWord_one (m : Memory) (a : ℕ) : UInt8.ofNat (loadWord m 1 a) = m a := by
  simp [loadWord]

theorem storeWord_one (m : Memory) (a : ℕ) (b : UInt8) :
    storeWord m 1 a b.toNat a = b := by
  have := storeWord_inside (m := m) (a := a) (v := b.toNat) (i := 0) Nat.one_pos
  simpa using this

def wordOf : List UInt8 → ℕ
  | [] => 0
  | b :: bytes => b.toNat + 256 * wordOf bytes

def bytesOf : ℕ → ℕ → List UInt8
  | 0, _ => []
  | w + 1, v => .ofNat v :: bytesOf w (v / 256)

theorem wordOf_byte {bytes : List UInt8} {i : ℕ} (h : i < bytes.length) :
    UInt8.ofNat (wordOf bytes / 256 ^ i) = bytes[i] := by
  induction bytes generalizing i with
  | nil => cases h
  | cons b bytes ih =>
    have hb := b.toNat_lt
    cases i with
    | zero =>
      apply UInt8.toNat_inj.mp
      simp only [wordOf, pow_zero, Nat.div_one, UInt8.toNat_ofNat', List.getElem_cons_zero]
      omega
    | succ i =>
      have hdiv : (b.toNat + 256 * wordOf bytes) / 256 = wordOf bytes := by omega
      rw [wordOf, pow_succ', ← Nat.div_div_eq_div_mul, hdiv]
      exact ih (by simpa using h)

theorem storeWord_wordOf (m : Memory) (a : ℕ) {bytes : List UInt8} {i : ℕ}
    (h : i < bytes.length) :
    storeWord m bytes.length a (wordOf bytes) (a + i) = bytes[i] := by
  rw [storeWord_inside h, wordOf_byte h]

theorem bytesOf_loadWord (m : Memory) (w a : ℕ) :
    bytesOf w (loadWord m w a) = (List.range w).map fun i => m (a + i) := by
  induction w generalizing a with
  | zero => rfl
  | succ w ih =>
    have hb := (m a).toNat_lt
    have hdiv : ((m a).toNat + 256 * loadWord m w (a + 1)) / 256 = loadWord m w (a + 1) := by
      omega
    have hfirst : UInt8.ofNat ((m a).toNat + 256 * loadWord m w (a + 1)) = m a := by
      apply UInt8.toNat_inj.mp
      rw [UInt8.toNat_ofNat']
      omega
    rw [loadWord, bytesOf, hdiv, hfirst, ih, List.range_succ_eq_map, List.map_cons, List.map_map]
    simp [Function.comp_def, Nat.add_assoc, Nat.add_comm 1]

-- Deciding a branch on a loaded word must not evaluate the word.
attribute [irreducible] loadWord

inductive Access where
  | load (w a : ℕ)
  | store (w a v : ℕ)
  deriving DecidableEq, Repr

@[reducible] def Access.Reply : Access → Type
  | .load _ _ => ℕ
  | .store _ _ _ => Unit

/-- What one indivisible access does to the memory. -/
def access : (op : Access) → Memory → op.Reply × Memory
  | .load w a, m => (loadWord m w a, m)
  | .store w a v, m => ((), storeWord m w a v)

/-- The replies that a load of some memory can give. -/
def Fits : (op : Access) → op.Reply → Prop
  | .load w _, v => v < 256 ^ w
  | .store _ _ _, _ => True

theorem access_fits (op : Access) (m : Memory) : Fits op (access op m).1 := by
  cases op with
  | load w a => exact loadWord_lt m w a
  | store w a v => trivial

abbrev MemProg := Prog Access Access.Reply

def load (w a : ℕ) : MemProg ℕ := perform (Access.load w a)

def store (w a v : ℕ) : MemProg Unit := perform (Access.store w a v)

/-- Fields of a record in memory, each wholly inside it and none overlapping another. -/
structure Layout (F : Type) where
  offset : F → ℕ
  width : F → ℕ
  size : ℕ
  inside : ∀ f, offset f + width f ≤ size
  disjoint : ∀ f g, f ≠ g → offset f + width f ≤ offset g ∨ offset g + width g ≤ offset f

variable {F : Type} (L : Layout F)

def Layout.get (base : ℕ) (f : F) (m : Memory) : ℕ := loadWord m (L.width f) (base + L.offset f)

def Layout.put (base : ℕ) (f : F) (v : ℕ) (m : Memory) : Memory :=
  storeWord m (L.width f) (base + L.offset f) v

def Layout.load (base : ℕ) (f : F) : MemProg ℕ :=
  perform (Access.load (L.width f) (base + L.offset f))

def Layout.store (base : ℕ) (f : F) (v : ℕ) : MemProg Unit :=
  perform (Access.store (L.width f) (base + L.offset f) v)

theorem Layout.get_lt (base : ℕ) (f : F) (m : Memory) : L.get base f m < 256 ^ L.width f :=
  loadWord_lt _ _ _

theorem Layout.get_put (base : ℕ) (f : F) (v : ℕ) (m : Memory) :
    L.get base f (L.put base f v m) = v % 256 ^ L.width f := loadWord_storeWord _ _ _ _

theorem Layout.put_put (base : ℕ) (f : F) (u v : ℕ) (m : Memory) :
    L.put base f v (L.put base f u m) = L.put base f v m := by
  funext a
  by_cases ha : base + L.offset f ≤ a ∧ a < base + L.offset f + L.width f
  · simp only [Layout.put, storeWord, if_pos ha]
  · simp only [Layout.put, storeWord, if_neg ha]

theorem Layout.get_put_ne (base : ℕ) {f g : F} (h : f ≠ g) (v : ℕ) (m : Memory) :
    L.get base f (L.put base g v m) = L.get base f m :=
  loadWord_storeWord_outside (by have := L.disjoint f g h; omega)

theorem Layout.get_put_apart {G : Type} {L' : Layout G} {base base' : ℕ}
    (h : base + L.size ≤ base' ∨ base' + L'.size ≤ base) (f : F) (g : G) (v : ℕ) (m : Memory) :
    L.get base f (L'.put base' g v m) = L.get base f m :=
  loadWord_storeWord_outside (by have := L.inside f; have := L'.inside g; omega)

theorem Layout.get_store_after (base : ℕ) (f : F) {w a v : ℕ} (m : Memory)
    (h : base + L.size ≤ a) : L.get base f (storeWord m w a v) = L.get base f m :=
  loadWord_storeWord_outside (by have := L.inside f; omega)

theorem Layout.put_outside (base : ℕ) (f : F) (v : ℕ) (m : Memory) {x : ℕ}
    (h : x < base ∨ base + L.size ≤ x) : L.put base f v m x = m x :=
  storeWord_outside (by have := L.inside f; omega)

theorem Layout.reach_load {α : Type} {mem : ℕ → Memory} {base t u : ℕ} {f : F}
    {k : ℕ → MemProg α} {a : α} (h : Reach access mem t (L.load base f >>= k) u (.ret a)) :
    ∃ v, t ≤ v ∧ Reach access mem (v + 1) (k (L.get base f (mem v))) u (.ret a) := by
  obtain ⟨v, hv, _, hr⟩ := Reach.act_inv h
  exact ⟨v, hv, hr⟩

def Layout.storeAll {α : Type} (base : ℕ) (a : α) : List (F × ℕ) → MemProg α
  | [] => .ret a
  | (f, v) :: ws => L.store base f v >>= fun _ => Layout.storeAll base a ws

def Layout.putAll (base : ℕ) (ws : List (F × ℕ)) (m : Memory) : Memory :=
  ws.foldl (fun m w => L.put base w.1 w.2 m) m

@[simp] theorem Layout.putAll_append (base : ℕ) (ws ws' : List (F × ℕ)) (m : Memory) :
    L.putAll base (ws ++ ws') m = L.putAll base ws' (L.putAll base ws m) :=
  List.foldl_append

theorem Layout.run_storeAll {α : Type} (base : ℕ) (a : α) (ws : List (F × ℕ)) (m : Memory) :
    (L.storeAll base a ws).run access m = (a, L.putAll base ws m) := by
  induction ws generalizing m with
  | nil => rfl
  | cons w ws ih => exact ih _

theorem Layout.get_putAll_of_not_mem (base : ℕ) {f : F} {ws : List (F × ℕ)} (m : Memory)
    (h : f ∉ ws.map Prod.fst) : L.get base f (L.putAll base ws m) = L.get base f m := by
  induction ws generalizing m with
  | nil => rfl
  | cons w ws ih =>
    rw [List.map_cons, List.mem_cons, not_or] at h
    exact (ih _ h.2).trans (L.get_put_ne base h.1 _ _)

theorem Layout.get_putAll_of_mem (base : ℕ) {f : F} {v : ℕ} {ws : List (F × ℕ)} (m : Memory)
    (hnodup : (ws.map Prod.fst).Nodup) (h : (f, v) ∈ ws) :
    L.get base f (L.putAll base ws m) = v % 256 ^ L.width f := by
  induction ws generalizing m with
  | nil => cases h
  | cons w ws ih =>
    rw [List.map_cons, List.nodup_cons] at hnodup
    rcases List.mem_cons.mp h with rfl | h
    · exact (L.get_putAll_of_not_mem base _ hnodup.1).trans (L.get_put _ _ _ _)
    · exact ih _ hnodup.2 h

def SameOutside (A : ℕ → Prop) (m m' : Memory) : Prop := ∀ a, ¬ A a → m' a = m a

theorem sameOutside_refl (A : ℕ → Prop) (m : Memory) : SameOutside A m m := fun _ _ => rfl

theorem sameOutside_none {m m' : Memory} (h : SameOutside (fun _ => False) m m') : m' = m :=
  funext fun a => h a id

theorem SameOutside.trans {A : ℕ → Prop} {m m' m'' : Memory}
    (h : SameOutside A m m') (k : SameOutside A m' m'') : SameOutside A m m'' :=
  fun a ha => (k a ha).trans (h a ha)

theorem SameOutside.mono {A B : ℕ → Prop} {m m' : Memory} (h : SameOutside A m m')
    (hAB : ∀ a, A a → B a) : SameOutside B m m' := fun a ha => h a fun hA => ha (hAB a hA)

theorem every_load {α : Type} {P : Access → Prop} {w a : ℕ} {k : ℕ → MemProg α}
    (h : P (.load w a)) (hk : ∀ v, v < 256 ^ w → (k v).Every Fits P) :
    (perform (Access.load w a) >>= k).Every Fits P := ⟨h, hk⟩

def StoresIn (A : ℕ → Prop) : Access → Prop
  | .load _ _ => True
  | .store w a _ => ∀ x, a ≤ x → x < a + w → A x

theorem StoresIn.sameOutside {A : ℕ → Prop} {op : Access} (h : StoresIn A op) (m : Memory) :
    SameOutside A m (access op m).2 := by
  cases op with
  | load w a => exact sameOutside_refl A m
  | store w a v =>
    intro x hx
    apply storeWord_outside
    by_contra hn
    exact hx (h x (by omega) (by omega))

theorem StoresIn.mono {A B : ℕ → Prop} {op : Access} (h : StoresIn A op)
    (hAB : ∀ a, A a → B a) : StoresIn B op := by
  cases op with
  | load w a => trivial
  | store w a v => exact fun x hlo hhi => hAB x (h x hlo hhi)

abbrev StoresOnly {α : Type} (A : ℕ → Prop) (p : MemProg α) : Prop :=
  p.Every (fun _ _ => True) (StoresIn A)

theorem storesOnly_load {α : Type} {A : ℕ → Prop} {w a : ℕ} {k : ℕ → MemProg α}
    (h : ∀ v, StoresOnly A (k v)) : StoresOnly A (perform (Access.load w a) >>= k) :=
  ⟨trivial, fun v _ => h v⟩

theorem storesOnly_store {α : Type} {A : ℕ → Prop} {w a v : ℕ} {k : Unit → MemProg α}
    (ha : ∀ x, a ≤ x → x < a + w → A x) (h : StoresOnly A (k ())) :
    StoresOnly A (perform (Access.store w a v) >>= k) := ⟨ha, fun _ _ => h⟩

theorem StoresOnly.mono {α : Type} {A B : ℕ → Prop} {p : MemProg α} (h : StoresOnly A p)
    (hAB : ∀ a, A a → B a) : StoresOnly B p := every_mono h fun _ hop => hop.mono hAB

theorem StoresOnly.run {α : Type} {A : ℕ → Prop} {p : MemProg α} (h : StoresOnly A p)
    (m : Memory) : SameOutside A m (p.run access m).2 :=
  every_run (sameOutside_refl A) SameOutside.trans (fun _ _ => trivial)
    (fun _ m hop => hop.sameOutside m) h m

theorem StoresOnly.run_loads {α : Type} {p : MemProg α} (h : StoresOnly (fun _ => False) p)
    (m : Memory) : (p.run access m).2 = m := sameOutside_none (h.run m)

theorem StoresOnly.looks {α : Type} {p : MemProg α} (h : StoresOnly (fun _ => False) p) :
    p.Every (fun _ _ => True) fun op => ∀ m, (access op m).2 = m :=
  every_mono h fun _ hop m => sameOutside_none (hop.sameOutside m)

theorem StoresOnly.advance {C : Type} {A : ℕ → Prop} {p : Party Access Access.Reply C}
    {call : C → MemProg C} (h : StoresOnly A p.prog) (m : Memory) :
    SameOutside A m (p.advance access call m).2 := by
  have hstate : (p.advance access call m).2 = m ∨
      ∃ op, StoresIn A op ∧ (p.advance access call m).2 = (access op m).2 := advance_state h m
  rcases hstate with hsame | ⟨op, hop, hdone⟩
  · rw [hsame]
    exact sameOutside_refl A m
  · rw [hdone]
    exact hop.sameOutside m

def Layout.Cells (base : ℕ) (fs : List F) (a : ℕ) : Prop :=
  ∃ f ∈ fs, base + L.offset f ≤ a ∧ a < base + L.offset f + L.width f

theorem Layout.cells_inside {base : ℕ} {fs : List F} {a : ℕ} (h : L.Cells base fs a) :
    base ≤ a ∧ a < base + L.size := by
  obtain ⟨f, _, hlo, hhi⟩ := h
  have := L.inside f
  omega

theorem Layout.cells_mono {base : ℕ} {fs gs : List F} (h : ∀ f ∈ fs, f ∈ gs) {a : ℕ}
    (ha : L.Cells base fs a) : L.Cells base gs a := by
  obtain ⟨f, hf, hrange⟩ := ha
  exact ⟨f, h f hf, hrange⟩

theorem Layout.storesOnly_store {α : Type} {base : ℕ} {fs : List F} {f : F} {v : ℕ}
    {k : Unit → MemProg α} (hf : f ∈ fs) (h : StoresOnly (L.Cells base fs) (k ())) :
    StoresOnly (L.Cells base fs) (L.store base f v >>= k) :=
  ByteMemory.storesOnly_store (fun _ hlo hhi => ⟨f, hf, hlo, hhi⟩) h

theorem Layout.get_sameOutside {base : ℕ} {fs : List F} {f : F} {m m' : Memory}
    (hf : f ∉ fs) (h : SameOutside (L.Cells base fs) m m') :
    L.get base f m' = L.get base f m := by
  apply loadWord_congr
  intro i hi
  apply h
  rintro ⟨g, hg, hlo, hhi⟩
  have hne : f ≠ g := fun e => hf (e ▸ hg)
  have := L.disjoint f g hne
  omega

theorem Layout.put_sameOutside {base : ℕ} {fs : List F} {f : F} (hf : f ∈ fs) (v : ℕ)
    (m : Memory) : SameOutside (L.Cells base fs) m (L.put base f v m) := by
  intro a ha
  apply storeWord_outside
  by_contra hn
  exact ha ⟨f, hf, by omega, by omega⟩

section Rules

variable {C : Type} {T : Terms Access Memory C} {c : C} {α : Type}
  {Q : α → List Access → Memory → Prop} {made : List Access} {m : Memory} {base : ℕ} {f : F}

theorem Layout.safe_load {k : ℕ → MemProg α}
    (h : ∀ m', T.rely m m' → T.during c made m' ∧ (T.allow c made m' →
      T.guar m' m' ∧ Safe access T c Q (k (L.get base f m'))
        (.load (L.width f) (base + L.offset f) :: made) m')) :
    Safe access T c Q (L.load base f >>= k) made m := h

theorem Layout.safe_store {v : ℕ} {k : Unit → MemProg α}
    (h : ∀ m', T.rely m m' → T.during c made m' ∧ (T.allow c made m' →
      T.guar m' (L.put base f v m') ∧ Safe access T c Q (k ())
        (.store (L.width f) (base + L.offset f) v :: made) (L.put base f v m'))) :
    Safe access T c Q (L.store base f v >>= k) made m := h

end Rules

end ByteMemory
