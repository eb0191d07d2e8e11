import Mathlib.Data.List.Chain
import Mathlib.Data.List.Induction
import Mathlib.Data.List.Pairwise
import Mathlib.Tactic.Common
import Mathlib.Data.Nat.Init

/-! A bounded-latency queue over any item type: everything written so far, how much of it
has been delivered or skipped, and the group size in which it is read. A push keeps the
newest `cap` items of its slice. A read that finds more than its budget unread skips to the
newest whole groups within the budget. -/
namespace LatencyQueue

variable {α : Type}

structure Queue (α : Type) where
  written : List α
  consumed : ℕ
  group : ℕ
  consumed_le : consumed ≤ written.length
  group_pos : 0 < group

def newest (cap : ℕ) (src : List α) : List α := src.drop (src.length - cap)

@[simp] theorem newest_length (cap : ℕ) (src : List α) :
    (newest cap src).length = min src.length cap := by
  simp only [newest, List.length_drop]
  omega

def empty : Queue α := ⟨[], 0, 1, Nat.le_refl _, Nat.one_pos⟩

namespace Queue

variable (q : Queue α) (length latency : ℕ)

def push (cap : ℕ) (src : List α) : Queue α :=
  { q with
    written := q.written ++ newest cap src
    consumed_le := by
      have := q.consumed_le
      rw [List.length_append]
      omega }

/-- A group size of zero counts as one. -/
def regroup (group : ℕ) : Queue α :=
  { q with group := max group 1, group_pos := by omega }

def backlog : ℕ := q.written.length - q.consumed

def budget : ℕ := latency / q.group * q.group

/-- Where a read starts: behind nothing, unless the backlog exceeds the budget. -/
def start : ℕ :=
  if q.backlog > q.budget latency then q.written.length - q.budget latency else q.consumed

/-- How much a read of `length` delivers: whole groups of what is left. -/
def count : ℕ :=
  min (length / q.group) ((q.written.length - q.start latency) / q.group) * q.group

def delivered : List α := (q.written.drop (q.start latency)).take (q.count length latency)

theorem start_le : q.start latency ≤ q.written.length := by
  have := q.consumed_le
  unfold start
  split <;> omega

theorem start_add_count_le : q.start latency + q.count length latency ≤ q.written.length := by
  have hs := q.start_le latency
  have hm := Nat.div_mul_le_self (q.written.length - q.start latency) q.group
  have hc : q.count length latency ≤
      (q.written.length - q.start latency) / q.group * q.group :=
    Nat.mul_le_mul_right _ (min_le_right _ _)
  omega

def read : Queue α :=
  { q with
    consumed := q.start latency + q.count length latency
    consumed_le := q.start_add_count_le length latency }

theorem delivered_length : (q.delivered length latency).length = q.count length latency := by
  have := q.start_add_count_le length latency
  rw [delivered, List.length_take, List.length_drop]
  omega

theorem group_dvd_count : q.group ∣ q.count length latency := Nat.dvd_mul_left _ _

theorem group_dvd_budget : q.group ∣ q.budget latency := Nat.dvd_mul_left _ _

theorem start_eq_of_backlog_le (h : q.backlog ≤ q.budget latency) :
    q.start latency = q.consumed := if_neg (by omega)

theorem consumed_le_start : q.consumed ≤ q.start latency := by
  unfold start
  split
  · unfold backlog at *
    omega
  · exact Nat.le_refl _

theorem lag_eq : q.written.length - q.start latency = min q.backlog (q.budget latency) := by
  have := q.consumed_le
  unfold start
  split <;> unfold backlog at * <;> omega

theorem group_dvd_lag (h : q.group ∣ q.backlog) :
    q.group ∣ q.written.length - q.start latency := by
  rw [q.lag_eq]
  rcases le_total q.backlog (q.budget latency) with hle | hle
  · rwa [Nat.min_eq_left hle]
  · rw [Nat.min_eq_right hle]
    exact q.group_dvd_budget latency

/-- What a read leaves unread is within the budget. -/
theorem backlog_read_le : (q.read length latency).backlog ≤ q.budget latency := by
  have hlag := q.lag_eq latency
  change q.written.length - (q.start latency + q.count length latency) ≤ _
  omega

end Queue

inductive Op (α : Type) where
  | push (src : List α)
  | regroup (group : ℕ)
  | read (length latency : ℕ)
  deriving DecidableEq, Repr

def step (cap : ℕ) (q : Queue α) : Op α → Queue α
  | .push src => q.push cap src
  | .regroup group => q.regroup group
  | .read length latency => q.read length latency

def after (cap : ℕ) (ops : List (Op α)) : Queue α := ops.foldl (step cap) empty

@[simp] theorem after_snoc (cap : ℕ) (ops : List (Op α)) (op : Op α) :
    after cap (ops ++ [op]) = step cap (after cap ops) op := by
  simp [after]

structure Delivery (α : Type) where
  queue : Queue α
  length : ℕ
  latency : ℕ

def Delivery.start (d : Delivery α) : ℕ := d.queue.start d.latency

def Delivery.items (d : Delivery α) : List α := d.queue.delivered d.length d.latency

def deliveries (cap : ℕ) : Queue α → List (Op α) → List (Delivery α)
  | _, [] => []
  | q, .push src :: ops => deliveries cap (q.push cap src) ops
  | q, .regroup group :: ops => deliveries cap (q.regroup group) ops
  | q, .read length latency :: ops =>
    ⟨q, length, latency⟩ :: deliveries cap (q.read length latency) ops

theorem deliveries_snoc (cap : ℕ) (q : Queue α) (ops : List (Op α)) (op : Op α) :
    deliveries cap q (ops ++ [op]) =
      deliveries cap q ops ++ deliveries cap (ops.foldl (step cap) q) [op] := by
  induction ops generalizing q with
  | nil => rfl
  | cons o ops ih => cases o <;> simp [deliveries, step, ih]

theorem deliveries_after (cap : ℕ) (ops : List (Op α)) (op : Op α) :
    deliveries cap empty (ops ++ [op]) =
      deliveries cap empty ops ++ deliveries cap (after cap ops) [op] := deliveries_snoc _ _ _ _

theorem consumed_step (cap : ℕ) (q : Queue α) (op : Op α) :
    q.consumed ≤ (step cap q op).consumed := by
  cases op with
  | push src => exact Nat.le_refl _
  | regroup group => exact Nat.le_refl _
  | read length latency =>
    have := q.consumed_le_start latency
    change q.consumed ≤ q.start latency + q.count length latency
    omega

theorem deliveries_start {cap : ℕ} {q : Queue α} {ops : List (Op α)} :
    ∀ d ∈ deliveries cap q ops, q.consumed ≤ d.start := by
  induction ops generalizing q with
  | nil => intro d hd; cases hd
  | cons op ops ih =>
    intro d hd
    have hstep := consumed_step cap q op
    cases op with
    | push src => exact hstep.trans (ih d hd)
    | regroup group => exact hstep.trans (ih d hd)
    | read length latency =>
      rcases List.mem_cons.mp hd with rfl | hd
      · exact q.consumed_le_start latency
      · exact hstep.trans (ih d hd)

/-- Over a whole run no item is delivered twice or out of order. -/
theorem deliveries_ordered (cap : ℕ) (q : Queue α) (ops : List (Op α)) :
    (deliveries cap q ops).Pairwise fun a b => a.start + a.items.length ≤ b.start := by
  induction ops generalizing q with
  | nil => exact .nil
  | cons op ops ih =>
    cases op with
    | push src => exact ih _
    | regroup group => exact ih _
    | read length latency =>
      refine .cons (fun b hb => ?_) (ih _)
      have hstart := deliveries_start b hb
      change q.start latency + (q.delivered length latency).length ≤ b.start
      rw [q.delivered_length]
      exact hstart

theorem deliveries_head {cap : ℕ} {q : Queue α} {ops : List (Op α)} {d : Delivery α}
    (h : (deliveries cap q ops).head? = some d) : d.queue.consumed = q.consumed := by
  induction ops generalizing q with
  | nil => cases h
  | cons op ops ih =>
    cases op with
    | push src => exact ih (q := q.push cap src) h
    | regroup group => exact ih (q := q.regroup group) h
    | read length latency =>
      obtain rfl : (⟨q, length, latency⟩ : Delivery α) = d := Option.some.inj h
      rfl

/-- A read whose backlog is within its budget goes on where the last one ended. -/
theorem deliveries_gapless (cap : ℕ) (q : Queue α) (ops : List (Op α)) :
    (deliveries cap q ops).IsChain fun a b =>
      b.queue.backlog ≤ b.queue.budget b.latency → b.start = a.start + a.items.length := by
  induction ops generalizing q with
  | nil => exact .nil
  | cons op ops ih =>
    cases op with
    | push src => exact ih _
    | regroup group => exact ih _
    | read length latency =>
      refine List.isChain_cons.mpr ⟨fun b hb hfits => ?_, ih _⟩
      have hfrom := deliveries_head hb
      change _ = q.start latency + (q.delivered length latency).length
      rw [q.delivered_length]
      exact (b.queue.start_eq_of_backlog_le b.latency hfits).trans hfrom

section Frames

variable {cap f : ℕ} {sent src : List α} {q : Queue α} {fs : List (List α)}

def frames (f : ℕ) (src : List α) : List (List α) :=
  (List.range (src.length / f)).map fun i => (src.drop (i * f)).take f

theorem frames_length (x : List α) (h : x ∈ frames f src) : x.length = f := by
  obtain ⟨i, hi, rfl⟩ := List.mem_map.mp h
  have hlt : i < src.length / f := List.mem_range.mp hi
  have hfit : (i + 1) * f ≤ src.length :=
    (Nat.mul_le_mul_right f hlt).trans (Nat.div_mul_le_self _ _)
  rw [Nat.succ_mul] at hfit
  rw [List.length_take, List.length_drop]
  omega

theorem frames_flatten_take (src : List α) (f n : ℕ) :
    ((List.range n).map fun i => (src.drop (i * f)).take f).flatten = src.take (n * f) := by
  induction n with
  | zero => simp
  | succ n ih =>
    rw [List.range_succ, List.map_append, List.flatten_append, ih, Nat.succ_mul, List.take_add]
    simp

theorem frames_flatten (h : f ∣ src.length) : (frames f src).flatten = src := by
  rw [frames, frames_flatten_take, Nat.div_mul_cancel h, List.take_length]

theorem flatten_take (h : ∀ x ∈ fs, x.length = f) (c : ℕ) :
    fs.flatten.take (c * f) = (fs.take c).flatten := by
  induction c generalizing fs with
  | zero => simp
  | succ c ih =>
    cases fs with
    | nil => simp
    | cons x fs =>
      have hx : x.length = f := h x List.mem_cons_self
      rw [List.flatten_cons, Nat.succ_mul, Nat.add_comm, List.take_add, ← hx, List.take_left,
        List.drop_left, hx, List.take_succ_cons, List.flatten_cons]
      rw [ih fun y hy => h y (List.mem_cons_of_mem _ hy)]

theorem flatten_drop (h : ∀ x ∈ fs, x.length = f) (a : ℕ) :
    fs.flatten.drop (a * f) = (fs.drop a).flatten := by
  have hgroups : (fs.take a).flatten ++ (fs.drop a).flatten = fs.flatten := by
    rw [← List.flatten_append, List.take_append_drop]
  have hrange := List.take_append_drop (a * f) fs.flatten
  rw [flatten_take h] at hrange
  exact List.append_cancel_left (hrange.trans hgroups.symm)

theorem flatten_length (h : ∀ x ∈ fs, x.length = f) : fs.flatten.length = fs.length * f := by
  induction fs with
  | nil => simp
  | cons x fs ih =>
    rw [List.flatten_cons, List.length_append, h x List.mem_cons_self,
      ih fun y hy => h y (List.mem_cons_of_mem _ hy), List.length_cons, Nat.succ_mul,
      Nat.add_comm]

theorem flatten_slice (h : ∀ x ∈ fs, x.length = f) (hf : 0 < f) {a c : ℕ}
    (hrange : a * f + c * f ≤ fs.flatten.length) : a + c ≤ fs.length ∧
      (fs.flatten.drop (a * f)).take (c * f) = ((fs.drop a).take c).flatten := by
  rw [flatten_length h, ← Nat.add_mul] at hrange
  refine ⟨Nat.le_of_mul_le_mul_right hrange hf, ?_⟩
  rw [flatten_drop h, flatten_take fun x hx => h x (List.mem_of_mem_drop hx)]

variable {slices : List (List α)}

theorem frames_all (x : List α) (h : x ∈ slices.flatMap (frames f)) : x.length = f := by
  obtain ⟨src, _, hx⟩ := List.mem_flatMap.mp h
  exact frames_length x hx

theorem frames_all_flatten (h : ∀ src ∈ slices, f ∣ src.length) :
    (slices.flatMap (frames f)).flatten = slices.flatten := by
  induction slices with
  | nil => rfl
  | cons src slices ih =>
    rw [List.flatMap_cons, List.flatten_append, List.flatten_cons,
      frames_flatten (h src List.mem_cons_self), ih fun x hx => h x (List.mem_cons_of_mem _ hx)]

end Frames

section Alignment

variable {cap f latency : ℕ} {sent src : List α} {q : Queue α}

/-- All slices sent are whole groups. An oversized slice may have been cut inside a group,
but then the backlog fills the window, so the next read skips to the grid again. -/
structure Aligned (cap f : ℕ) (sent : List α) (q : Queue α) : Prop where
  group : q.group = f
  whole : f ∣ sent.length
  fits : q.written.length ≤ sent.length
  recent : ∀ r, r ≤ cap → r ≤ q.written.length →
    q.written.drop (q.written.length - r) = sent.drop (sent.length - r)
  grid : f ∣ q.backlog ∨ cap ≤ q.backlog

theorem recent_push (h : Aligned cap f sent q) (src : List α) {r : ℕ} (hr : r ≤ cap)
    (hfit : r ≤ (q.push cap src).written.length) :
    (q.push cap src).written.drop ((q.push cap src).written.length - r) =
      (sent ++ src).drop ((sent ++ src).length - r) := by
  change (q.written ++ newest cap src).drop ((q.written ++ newest cap src).length - r) = _
  change r ≤ (q.written ++ newest cap src).length at hfit
  rw [List.length_append, newest_length] at hfit
  simp only [List.length_append, newest_length, List.drop_append]
  by_cases hinside : r ≤ min src.length cap
  · -- the window ends inside the slice
    have hw : q.written.drop (q.written.length + min src.length cap - r) = [] :=
      List.drop_eq_nil_of_le (by omega)
    have hs : sent.drop (sent.length + src.length - r) = [] :=
      List.drop_eq_nil_of_le (by omega)
    rw [hw, hs, newest, List.drop_drop]
    congr 2
    omega
  · -- the slice was kept whole, and the window reaches back behind it
    have hold := h.recent (r - src.length) (by omega) (by omega)
    have hkept : newest cap src = src := by
      rw [newest, Nat.sub_eq_zero_of_le (by omega), List.drop_zero]
    have hw : q.written.length + min src.length cap - r = q.written.length - (r - src.length) := by
      omega
    have hs : sent.length + src.length - r = sent.length - (r - src.length) := by omega
    rw [hw, hs, hold, hkept]
    have hfits := h.fits
    congr 2
    omega

theorem aligned_push (h : Aligned cap f sent q) (hsrc : f ∣ src.length) :
    Aligned cap f (sent ++ src) (q.push cap src) := by
  have hle := q.consumed_le
  have hback : (q.push cap src).backlog = q.backlog + min src.length cap := by
    change (q.written ++ newest cap src).length - q.consumed = _
    rw [List.length_append, newest_length, Queue.backlog]
    omega
  refine ⟨h.group, ?_, ?_, fun r => recent_push h src, ?_⟩
  · rw [List.length_append]
    exact Nat.dvd_add h.whole hsrc
  · have hfits := h.fits
    change (q.written ++ newest cap src).length ≤ _
    rw [List.length_append, List.length_append, newest_length]
    omega
  · rw [hback]
    by_cases hlong : cap ≤ src.length
    · exact Or.inr (by omega)
    · rcases h.grid with hgrid | hfull
      · rw [Nat.min_eq_left (by omega)]
        exact Or.inl (Nat.dvd_add hgrid hsrc)
      · exact Or.inr (by omega)

/-- Within the window a read starts a whole number of groups behind the end. -/
theorem lag_whole (h : Aligned cap f sent q) (hlatency : latency ≤ cap) :
    f ∣ q.written.length - q.start latency ∧ q.written.length - q.start latency ≤ cap := by
  have hbudget : q.budget latency ≤ latency := Nat.div_mul_le_self _ _
  have hwhole : f ∣ q.budget latency := h.group ▸ q.group_dvd_budget latency
  rw [q.lag_eq latency]
  by_cases hover : q.budget latency ≤ q.backlog
  · rw [Nat.min_eq_right hover]
    exact ⟨hwhole, by omega⟩
  · rw [Nat.min_eq_left (by omega)]
    rcases h.grid with hgrid | hfull
    · exact ⟨hgrid, by omega⟩
    · omega

theorem aligned_read (h : Aligned cap f sent q) (hlatency : latency ≤ cap) (length : ℕ) :
    Aligned cap f sent (q.read length latency) := by
  refine ⟨h.group, h.whole, h.fits, h.recent, Or.inl ?_⟩
  have hcount : f ∣ q.count length latency := h.group ▸ q.group_dvd_count length latency
  change f ∣ q.written.length - (q.start latency + q.count length latency)
  rw [Nat.sub_add_eq]
  exact Nat.dvd_sub (lag_whole h hlatency).1 hcount

/-- What a read delivers is a run of whole groups of what was sent. -/
theorem aligned_delivered (h : Aligned cap f sent q)
    (hwhole : f ∣ q.written.length - q.start latency)
    (hwindow : q.written.length - q.start latency ≤ cap) (length : ℕ) :
    ∃ a c, q.count length latency = c * f ∧ a * f + c * f ≤ sent.length ∧
      q.delivered length latency = (sent.drop (a * f)).take (c * f) := by
  have hstart := q.start_le latency
  have hend := q.start_add_count_le length latency
  have hfits := h.fits
  obtain ⟨a, ha⟩ := Nat.dvd_sub h.whole hwhole
  obtain ⟨c, hc⟩ : f ∣ q.count length latency := h.group ▸ q.group_dvd_count length latency
  rw [Nat.mul_comm] at ha hc
  have hrecent := h.recent _ hwindow (by omega)
  rw [show q.written.length - (q.written.length - q.start latency) = q.start latency by omega,
    ha] at hrecent
  refine ⟨a, c, hc, by omega, ?_⟩
  rw [Queue.delivered, hrecent, hc]

end Alignment

section Grid

variable {length latency : ℕ} {q : Queue α}

theorem budget_lt_iff {n : ℕ} (h : q.group ∣ n) : q.budget latency < n ↔ latency < n := by
  obtain ⟨c, rfl⟩ := h
  rw [Queue.budget, Nat.mul_comm q.group c, Nat.mul_lt_mul_right q.group_pos,
    Nat.div_lt_iff_lt_mul q.group_pos]

/-- A read skips items exactly when the backlog is above its latency. -/
theorem skips_iff (h : q.group ∣ q.backlog) :
    q.consumed < q.start latency ↔ latency < q.backlog := by
  rw [← budget_lt_iff h]
  have hle := q.consumed_le
  unfold Queue.start
  split
  next hover =>
    unfold Queue.backlog at hover ⊢
    omega
  next hunder => omega

theorem count_whole (hgrid : q.group ∣ q.backlog) (hlength : q.group ∣ length)
    (hle : length ≤ latency) : q.count length latency = min length q.backlog := by
  have hbudget : length ≤ q.budget latency := by
    by_contra hlt
    exact absurd ((budget_lt_iff hlength).mp (Nat.lt_of_not_le hlt)) (Nat.not_lt.mpr hle)
  have hwhole : q.group ∣ min q.backlog (q.budget latency) := by
    rcases le_total q.backlog (q.budget latency) with h | h
    · rwa [Nat.min_eq_left h]
    · rw [Nat.min_eq_right h]
      exact q.group_dvd_budget latency
  rw [Queue.count, q.lag_eq]
  obtain ⟨a, ha⟩ := hlength
  obtain ⟨b, hb⟩ := hwhole
  rw [hb, ha, Nat.mul_div_cancel_left a q.group_pos, Nat.mul_div_cancel_left b q.group_pos,
    ← Nat.mul_min_mul_right, Nat.mul_comm a, Nat.mul_comm b, ← ha, ← hb]
  omega

end Grid

section Packets

variable {cap length latency : ℕ} {q q' : Queue α}

theorem newest_eq_self {src : List α} (h : src.length ≤ cap) : newest cap src = src := by
  rw [newest, Nat.sub_eq_zero_of_le h, List.drop_zero]

theorem newest_append_newest (x y : List α) :
    newest cap (x ++ newest cap y) = newest cap (x ++ y) := by
  by_cases hy : y.length ≤ cap
  · rw [newest_eq_self hy]
  · have hx : x.length ≤ (x ++ y).length - cap := by
      rw [List.length_append]
      omega
    have hkept : (newest cap y).length = cap := by
      rw [newest_length]
      omega
    have hall : x.length = (x ++ newest cap y).length - cap := by
      rw [List.length_append, hkept]
      omega
    rw [newest, ← hall, List.drop_left, newest, newest, List.drop_append,
      List.drop_eq_nil_of_le hx, List.nil_append, List.length_append]
    congr 1
    omega

theorem newest_newest_append (x y : List α) :
    newest cap (newest cap x ++ y) = newest cap (x ++ y) := by
  simp only [newest, List.drop_append, List.length_append, List.length_drop, List.drop_drop]
  congr 2 <;> omega

theorem newest_newest {n : ℕ} (h : n ≤ cap) (x : List α) :
    newest n (newest cap x) = newest n x := by
  simp only [newest, List.drop_drop, List.length_drop]
  congr 1
  omega

/-- Slices kept one by one leave the same newest items as the slices themselves. -/
theorem newest_flatMap (slices : List (List α)) :
    newest cap (slices.flatMap (newest cap)) = newest cap slices.flatten := by
  induction slices using List.reverseRecOn with
  | nil => rfl
  | append_singleton slices src ih =>
    rw [List.flatMap_append, List.flatMap_singleton, List.flatten_append, List.flatten_singleton,
      newest_append_newest, ← newest_newest_append, ih, newest_newest_append]

/-- Two queues that no read within the window can tell apart: the same newest items, and the
same backlog unless both backlogs fill the window. -/
structure Alike (cap : ℕ) (q q' : Queue α) : Prop where
  group : q.group = q'.group
  items : newest cap q.written = newest cap q'.written
  backlog : q.backlog = q'.backlog ∨ cap ≤ q.backlog ∧ cap ≤ q'.backlog

theorem backlog_push (q : Queue α) (src : List α) :
    (q.push cap src).backlog = q.backlog + min src.length cap := by
  have hle := q.consumed_le
  change (q.written ++ newest cap src).length - q.consumed = _
  rw [List.length_append, newest_length, Queue.backlog]
  omega

theorem newest_push (q : Queue α) (src : List α) :
    newest cap (q.push cap src).written = newest cap (newest cap q.written ++ src) := by
  change newest cap (q.written ++ newest cap src) = _
  rw [newest_append_newest, newest_newest_append]

theorem alike_push (h : Alike cap q q') (src : List α) :
    Alike cap (q.push cap src) (q'.push cap src) := by
  refine ⟨h.group, ?_, ?_⟩
  · rw [newest_push, newest_push, h.items]
  · rw [backlog_push, backlog_push]
    have hbacklog := h.backlog
    omega

theorem alike_packets (q : Queue α) (a b : List α) :
    Alike cap (q.push cap (a ++ b)) ((q.push cap a).push cap b) := by
  refine ⟨rfl, ?_, ?_⟩
  · rw [newest_push, newest_push, newest_push, newest_newest_append _ b, List.append_assoc]
  · rw [backlog_push, backlog_push, backlog_push, List.length_append]
    omega

theorem alike_regroup (h : Alike cap q q') (group : ℕ) :
    Alike cap (q.regroup group) (q'.regroup group) := ⟨rfl, h.items, h.backlog⟩

theorem Queue.budget_le (q : Queue α) (latency : ℕ) : q.budget latency ≤ latency :=
  Nat.div_mul_le_self _ _

theorem alike_lag (h : Alike cap q q') (hlatency : latency ≤ cap) :
    q.written.length - q.start latency = q'.written.length - q'.start latency := by
  have hbudget : q.budget latency = q'.budget latency := by
    unfold Queue.budget
    rw [h.group]
  have hle := q.budget_le latency
  have hbacklog := h.backlog
  rw [q.lag_eq, q'.lag_eq, ← hbudget]
  omega

theorem alike_count (h : Alike cap q q') (hlatency : latency ≤ cap) (length : ℕ) :
    q.count length latency = q'.count length latency := by
  unfold Queue.count
  rw [alike_lag h hlatency, h.group]

theorem delivered_newest (q : Queue α) (hlag : q.written.length - q.start latency ≤ cap) :
    q.delivered length latency = ((newest cap q.written).drop
      (min q.written.length cap - (q.written.length - q.start latency))).take
        (q.count length latency) := by
  have hstart := q.start_le latency
  rw [Queue.delivered, newest, List.drop_drop]
  congr 2
  omega

theorem alike_delivered (h : Alike cap q q') (hlatency : latency ≤ cap) (length : ℕ) :
    q.delivered length latency = q'.delivered length latency := by
  have hlag := alike_lag h hlatency
  have hwindow : q.written.length - q.start latency ≤ cap := by
    have hle := q.budget_le latency
    rw [q.lag_eq]
    omega
  have hheld : min q.written.length cap = min q'.written.length cap := by
    rw [← newest_length, ← newest_length, h.items]
  rw [delivered_newest q hwindow, delivered_newest q' (hlag ▸ hwindow), h.items, hlag, hheld,
    alike_count h hlatency]

theorem alike_read (h : Alike cap q q') (hlatency : latency ≤ cap) (length : ℕ) :
    Alike cap (q.read length latency) (q'.read length latency) := by
  refine ⟨h.group, h.items, Or.inl ?_⟩
  have hlag := alike_lag h hlatency
  have hcount := alike_count h hlatency length
  change q.written.length - (q.start latency + q.count length latency) =
    q'.written.length - (q'.start latency + q'.count length latency)
  omega

/-- Reads within the window deliver the same from both, now and ever after. -/
theorem alike_deliveries {ops : List (Op α)} (h : Alike cap q q')
    (hlatency : ∀ length latency, .read length latency ∈ ops → latency ≤ cap) :
    (deliveries cap q ops).map (fun d => (d.length, d.items)) =
      (deliveries cap q' ops).map fun d => (d.length, d.items) := by
  induction ops generalizing q q' with
  | nil => rfl
  | cons op ops ih =>
    have hrest : ∀ length latency, .read length latency ∈ ops → latency ≤ cap :=
      fun length latency hop => hlatency length latency (List.mem_cons_of_mem _ hop)
    cases op with
    | push src => exact ih (alike_push h src) hrest
    | regroup group => exact ih (alike_regroup h group) hrest
    | read length latency =>
      have hfirst := hlatency length latency List.mem_cons_self
      have hitems := alike_delivered h hfirst length
      rw [deliveries, deliveries, List.map_cons, List.map_cons,
        ih (alike_read h hfirst length) hrest]
      congr 2

end Packets

end LatencyQueue
