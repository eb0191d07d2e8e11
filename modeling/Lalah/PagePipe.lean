import Mathlib.Data.List.Basic
import Mathlib.Tactic.Ring

/-! A pipe as an array of page slots. A slot is free again only when all its bytes were
read, and a write may or may not top up the last slot; so the free bytes of the pipe need not
hold a write that is no longer than they are. -/
namespace PagePipe

def page : ℕ := 4096

/-- A write of at most so many bytes is not split. -/
def pipeBuf : ℕ := 4096

/-- `filled` bytes were written from the start of the page on, the last `unread` are queued. -/
structure Slot where
  filled : ℕ
  unread : ℕ
  unread_le : unread ≤ filled
  filled_le : filled ≤ page
  deriving DecidableEq, Repr

def Slot.read (k : ℕ) (s : Slot) : Slot where
  filled := s.filled
  unread := s.unread - k
  unread_le := (Nat.sub_le _ _).trans s.unread_le
  filled_le := s.filled_le

def Slot.topUp (k : ℕ) (s : Slot) : Slot where
  filled := s.filled + min k (page - s.filled)
  unread := s.unread + min k (page - s.filled)
  unread_le := Nat.add_le_add_right s.unread_le _
  filled_le := by
    have := s.filled_le
    omega

def Slot.fresh (n : ℕ) (h : n ≤ page) : Slot := ⟨n, n, Nat.le_refl n, h⟩

/-- What one write offered, and how many bytes of it the pipe took. -/
structure Taken where
  offered : List UInt8
  count : ℕ
  count_le : count ≤ offered.length
  deriving DecidableEq, Repr

def Taken.bytes (w : Taken) : List UInt8 := w.offered.take w.count

def Taken.Full (w : Taken) : Prop := w.count = w.offered.length

instance (w : Taken) : Decidable w.Full := inferInstanceAs (Decidable (_ = _))

def Taken.Whole (w : Taken) : Prop := w.count = 0 ∨ w.Full

def put (writes : List Taken) : List UInt8 := (writes.map Taken.bytes).flatten

def full (writes : List Taken) : List (List UInt8) :=
  (writes.filter fun w => w.Full).map Taken.offered

theorem bytes_full {w : Taken} (h : w.Full) : w.bytes = w.offered := by
  rw [Taken.bytes, h, List.take_length]

theorem put_cons (w : Taken) (ws : List Taken) : put (w :: ws) = w.bytes ++ put ws := rfl

theorem full_cons {w : Taken} (h : w.Full) (ws : List Taken) :
    full (w :: ws) = w.offered :: full ws := by
  simp [full, h]

theorem full_cons_part {w : Taken} (h : ¬ w.Full) (ws : List Taken) :
    full (w :: ws) = full ws := by
  simp [full, h]

theorem full_snoc (writes : List Taken) (w : Taken) :
    full (writes ++ [w]) = if w.Full then full writes ++ [w.offered] else full writes := by
  by_cases hw : w.Full
  · simp [full, hw]
  · simp [full, hw]

theorem full_length_le (writes : List Taken) :
    (full writes).flatten.length ≤ (put writes).length := by
  induction writes with
  | nil => exact Nat.le_refl _
  | cons w ws ih =>
    rw [put_cons, List.length_append]
    by_cases hw : w.Full
    · rw [full_cons hw, List.flatten_cons, List.length_append, bytes_full hw]
      omega
    · rw [full_cons_part hw]
      omega

/-- The stream consists of whole writes just when no write was taken in part. -/
theorem put_eq_full_iff (writes : List Taken) :
    put writes = (full writes).flatten ↔ ∀ w ∈ writes, w.Whole := by
  induction writes with
  | nil => exact iff_of_true rfl fun w hw => absurd hw List.not_mem_nil
  | cons w ws ih =>
    rw [put_cons, List.forall_mem_cons]
    by_cases hw : w.Full
    · rw [full_cons hw, List.flatten_cons, bytes_full hw, List.append_cancel_left_eq, ih]
      exact (and_iff_right (Or.inr hw)).symm
    rw [full_cons_part hw]
    by_cases hzero : w.count = 0
    · rw [Taken.bytes, hzero, List.take_zero, List.nil_append, ih]
      exact (and_iff_right (Or.inl hzero)).symm
    · -- a part of a write makes the stream longer than the full writes are
      have hlonger := full_length_le ws
      have hbytes : w.bytes.length = w.count := List.length_take_of_le w.count_le
      constructor
      · intro heq
        have hlength := congrArg List.length heq
        rw [List.length_append, hbytes] at hlength
        omega
      · intro hall
        exact hall.1.elim (absurd · hzero) (absurd · hw)

/-- The oldest slot comes first; `writes` is the history of the pipe. -/
structure Pipe where
  slots : List Slot
  slotCount : ℕ
  within : slots.length ≤ slotCount
  readers : Bool
  writes : List Taken

def Pipe.size (p : Pipe) : ℕ := p.slotCount * page

def Pipe.queued (p : Pipe) : ℕ := (p.slots.map (·.unread)).sum

def Pipe.free (p : Pipe) : ℕ := p.slotCount - p.slots.length

def Pipe.room (p : Pipe) : ℕ := p.slots.getLast?.elim 0 fun s => page - s.filled

/-- The part of a write of `n` bytes that tops up the last slot, where up to `room` bytes can:
a short write is not split, and a long one needs a free slot. -/
def Pipe.topUp (p : Pipe) (room n : ℕ) : ℕ :=
  if min room p.room < n ∧ (n ≤ pipeBuf ∨ p.free = 0) then 0 else min (min room p.room) n

def Pipe.fresh (p : Pipe) (room n : ℕ) : ℕ := min (n - p.topUp room n) (p.free * page)

def Pipe.taken (p : Pipe) (room n : ℕ) : ℕ := p.topUp room n + p.fresh room n

def pages (n : ℕ) : List Slot :=
  List.replicate (n / page) (Slot.fresh page (Nat.le_refl page)) ++
    if n % page = 0 then [] else [Slot.fresh (n % page) (Nat.mod_lt n (by decide)).le]

def topped (k : ℕ) : List Slot → List Slot
  | [] => []
  | [s] => [s.topUp k]
  | s :: s' :: rest => s :: topped k (s' :: rest)

def drained (k : ℕ) : List Slot → List Slot
  | [] => []
  | s :: rest => if k < s.unread then s.read k :: rest else drained (k - s.unread) rest

theorem topped_length (k : ℕ) (slots : List Slot) : (topped k slots).length = slots.length := by
  fun_induction topped k slots with
  | case1 => rfl
  | case2 s => rfl
  | case3 s s' rest ih => exact congrArg (· + 1) ih

theorem drained_length_le (k : ℕ) (slots : List Slot) :
    (drained k slots).length ≤ slots.length := by
  fun_induction drained k slots with
  | case1 => exact Nat.le_refl _
  | case2 k s rest h => exact Nat.le_refl _
  | case3 k s rest h ih => exact ih.trans (Nat.le_succ _)

theorem pages_length_le {n k : ℕ} (h : n ≤ k * page) : (pages n).length ≤ k := by
  have hpage : 0 < page := by decide
  have hdiv := Nat.div_add_mod n page
  rw [pages, List.length_append, List.length_replicate]
  by_cases hmod : n % page = 0
  · rw [if_pos hmod]
    exact Nat.div_le_of_le_mul (Nat.mul_comm k page ▸ h)
  · rw [if_neg hmod]
    refine (Nat.div_lt_iff_lt_mul hpage).mpr (lt_of_le_of_ne h fun heq => hmod ?_)
    rw [heq, Nat.mul_mod_left]

def Pipe.drain (k : ℕ) (p : Pipe) : Pipe :=
  { p with slots := drained k p.slots, within := (drained_length_le k p.slots).trans p.within }

/-- Another buffer size; the used slots must go into it. -/
def Pipe.resize (count : ℕ) (p : Pipe) : Pipe :=
  if h : p.slots.length ≤ count then { p with slotCount := count, within := h } else p

theorem Pipe.taken_le (p : Pipe) (room n : ℕ) : p.taken room n ≤ n := by
  have htop : p.topUp room n ≤ n := by
    rw [Pipe.topUp]
    split
    · exact Nat.zero_le n
    · exact Nat.min_le_right _ _
  have hfresh : p.fresh room n ≤ n - p.topUp room n := Nat.min_le_left _ _
  rw [Pipe.taken]
  omega

def Pipe.takes (p : Pipe) (room : ℕ) (bytes : List UInt8) : Taken :=
  ⟨bytes, p.taken room bytes.length, p.taken_le room bytes.length⟩

theorem Pipe.resize_writes (count : ℕ) (p : Pipe) : (p.resize count).writes = p.writes := by
  unfold Pipe.resize
  split <;> rfl

def Pipe.write (room : ℕ) (bytes : List UInt8) (p : Pipe) : Pipe where
  slots := topped (p.topUp room bytes.length) p.slots ++ pages (p.fresh room bytes.length)
  slotCount := p.slotCount
  within := by
    have hfresh : (pages (p.fresh room bytes.length)).length ≤ p.free :=
      pages_length_le (Nat.min_le_right _ _)
    have hwithin := p.within
    rw [List.length_append, topped_length]
    unfold Pipe.free at hfresh
    omega
  readers := p.readers
  writes := p.writes ++ [p.takes room bytes]

/-- The write is short, or refused, or there is room for all of it. -/
def Pipe.Fits (p : Pipe) (room n : ℕ) : Prop :=
  n ≤ pipeBuf ∨ p.free = 0 ∨ n ≤ min room p.room + p.free * page

instance (p : Pipe) (room n : ℕ) : Decidable (p.Fits room n) :=
  inferInstanceAs (Decidable (_ ∨ _ ∨ _))

theorem Pipe.room_le (p : Pipe) : p.room ≤ page := by
  rw [Pipe.room]
  cases p.slots.getLast? with
  | none => exact Nat.zero_le _
  | some s => exact Nat.sub_le _ _

theorem Pipe.topUp_short {p : Pipe} {room n : ℕ} (h : n ≤ pipeBuf) :
    p.topUp room n = 0 ∨ p.topUp room n = n := by
  rw [Pipe.topUp]
  split
  · exact Or.inl rfl
  · right
    omega

theorem Pipe.topUp_long {p : Pipe} {room n : ℕ} (h : pipeBuf < n) (hfree : p.free ≠ 0) :
    p.topUp room n = min room p.room := by
  have hroom := p.room_le
  have hbuf : pipeBuf = page := rfl
  rw [Pipe.topUp, if_neg (by omega)]
  omega

theorem Pipe.taken_short {p : Pipe} {room n : ℕ} (h : n ≤ pipeBuf) :
    p.taken room n = 0 ∨ p.taken room n = n := by
  have hbuf : pipeBuf = page := rfl
  have hfree : p.free * page = 0 ∨ page ≤ p.free * page := by
    rcases Nat.eq_zero_or_pos p.free with hnone | hsome
    · exact Or.inl (by rw [hnone, Nat.zero_mul])
    · exact Or.inr (Nat.le_mul_of_pos_left page hsome)
  unfold Pipe.taken Pipe.fresh
  rcases @Pipe.topUp_short p room n h with htop | htop
  · rw [htop]
    omega
  · rw [htop]
    omega

theorem Pipe.taken_refused {p : Pipe} {room n : ℕ} (h : pipeBuf < n) (hfree : p.free = 0) :
    p.taken room n = 0 := by
  have hroom := p.room_le
  have hbuf : pipeBuf = page := rfl
  have htop : p.topUp room n = 0 := by
    rw [Pipe.topUp, if_pos]
    exact ⟨by omega, Or.inr hfree⟩
  rw [Pipe.taken, Pipe.fresh, htop, hfree, Nat.zero_mul, Nat.min_zero]

theorem Pipe.taken_long {p : Pipe} {room n : ℕ} (h : pipeBuf < n) (hfree : p.free ≠ 0) :
    p.taken room n = min n (min room p.room + p.free * page) := by
  have hroom := p.room_le
  have hbuf : pipeBuf = page := rfl
  rw [Pipe.taken, Pipe.fresh, Pipe.topUp_long h hfree]
  omega

/-- A write is taken whole or not at all just when it fits. -/
theorem Pipe.taken_whole_iff (p : Pipe) (room n : ℕ) :
    p.taken room n = 0 ∨ p.taken room n = n ↔ p.Fits room n := by
  by_cases hshort : n ≤ pipeBuf
  · exact iff_of_true (Pipe.taken_short hshort) (Or.inl hshort)
  by_cases hfree : p.free = 0
  · exact iff_of_true (Or.inl (Pipe.taken_refused (not_le.mp hshort) hfree))
      (Or.inr (Or.inl hfree))
  · have hpage : page ≤ p.free * page := Nat.le_mul_of_pos_left page (Nat.pos_of_ne_zero hfree)
    have hpositive : 0 < page := by decide
    rw [Pipe.taken_long (not_le.mp hshort) hfree]
    unfold Pipe.Fits
    constructor
    · intro hwhole
      exact Or.inr (Or.inr (by omega))
    · intro hfits
      right
      omega

section Paged

variable {p : Pipe} {slots : List Slot} {n room : ℕ}

/-- Nothing but whole pages was written, and only the oldest was read from. -/
def Paged : List Slot → Prop
  | [] => True
  | s :: rest => s.filled = page ∧ 0 < s.unread ∧
      ∀ s' ∈ rest, s'.filled = page ∧ s'.unread = page

theorem paged_full (h : ∀ s ∈ slots, s.filled = page ∧ s.unread = page) : Paged slots := by
  cases slots with
  | nil => trivial
  | cons s rest =>
    obtain ⟨hs, hrest⟩ := List.forall_mem_cons.mp h
    exact ⟨hs.1, hs.2 ▸ (by decide : 0 < page), hrest⟩

theorem paged_drained (k : ℕ) (h : Paged slots) : Paged (drained k slots) := by
  fun_induction drained k slots with
  | case1 => trivial
  | case2 k s rest hk => exact ⟨h.1, Nat.sub_pos_of_lt hk, h.2.2⟩
  | case3 k s rest hk ih => exact ih (paged_full h.2.2)

theorem paged_append (h : Paged slots) (k : ℕ) :
    Paged (slots ++ List.replicate k (Slot.fresh page (Nat.le_refl page))) := by
  have hnew : ∀ s ∈ List.replicate k (Slot.fresh page (Nat.le_refl page)),
      s.filled = page ∧ s.unread = page := by
    intro s hs
    rw [List.eq_of_mem_replicate hs]
    exact ⟨rfl, rfl⟩
  cases slots with
  | nil => exact paged_full hnew
  | cons s rest => exact ⟨h.1, h.2.1, List.forall_mem_append.mpr ⟨h.2.2, hnew⟩⟩

theorem filled_paged (h : Paged slots) : ∀ s ∈ slots, s.filled = page := by
  cases slots with
  | nil => simp
  | cons s rest => exact List.forall_mem_cons.mpr ⟨h.1, fun s' hs' => (h.2.2 s' hs').1⟩

theorem room_paged (h : Paged p.slots) : p.room = 0 := by
  rw [Pipe.room]
  cases hlast : p.slots.getLast? with
  | none => rfl
  | some s =>
    have hfilled := filled_paged h s (List.mem_of_getLast? hlast)
    exact Nat.sub_eq_zero_of_le hfilled.ge

theorem topped_zero (slots : List Slot) : topped 0 slots = slots := by
  induction slots with
  | nil => rfl
  | cons s rest ih =>
    cases rest with
    | nil => simp [topped, Slot.topUp]
    | cons s' rest => exact congrArg (s :: ·) ih

theorem pages_mul (k : ℕ) :
    pages (k * page) = List.replicate k (Slot.fresh page (Nat.le_refl page)) := by
  have hpage : 0 < page := by decide
  rw [pages, if_pos (Nat.mul_mod_left k page), Nat.mul_div_cancel _ hpage, List.append_nil]

theorem topUp_paged (h : Paged p.slots) : p.topUp room n = 0 := by
  rw [Pipe.topUp, room_paged h]
  split
  · rfl
  · rw [Nat.min_zero, Nat.zero_min]

theorem fresh_paged (h : Paged p.slots) (hn : page ∣ n) : ∃ k, p.fresh room n = k * page := by
  obtain ⟨k, rfl⟩ := hn
  refine ⟨min k p.free, ?_⟩
  rw [Pipe.fresh, topUp_paged h, Nat.sub_zero, Nat.mul_comm page k, ← Nat.mul_min_mul_right]

theorem paged_write {bytes : List UInt8} (h : Paged p.slots) (hn : page ∣ bytes.length) :
    Paged (p.write room bytes).slots := by
  obtain ⟨k, hfresh⟩ := @fresh_paged p bytes.length room h hn
  change Paged (topped (p.topUp room bytes.length) p.slots ++ pages (p.fresh room bytes.length))
  rw [hfresh, pages_mul, topUp_paged h, topped_zero]
  exact paged_append h k

theorem unread_full (h : ∀ s ∈ slots, s.filled = page ∧ s.unread = page) :
    (slots.map (·.unread)).sum = slots.length * page := by
  induction slots with
  | nil => rfl
  | cons s rest ih =>
    obtain ⟨hs, hrest⟩ := List.forall_mem_cons.mp h
    rw [List.map_cons, List.sum_cons, ih hrest, hs.2, List.length_cons]
    ring

/-- The used slots hold less than a page of free bytes. -/
theorem queued_paged (h : Paged p.slots) : p.slots.length * page < p.queued + page := by
  rw [Pipe.queued]
  cases hslots : p.slots with
  | nil => decide
  | cons s rest =>
    rw [hslots] at h
    rw [List.map_cons, List.sum_cons, unread_full h.2.2, List.length_cons, Nat.succ_mul]
    have := h.2.1
    omega

/-- Whole pages that go into the free bytes go into the free slots. -/
theorem free_paged (h : Paged p.slots) (hn : page ∣ n) (hfits : n + p.queued ≤ p.size) :
    n ≤ p.free * page := by
  obtain ⟨k, rfl⟩ := hn
  have hqueued := queued_paged h
  have hpage : 0 < page := by decide
  have hlt : (k + p.slots.length) * page < (p.slotCount + 1) * page := by
    rw [Pipe.size] at hfits
    rw [Nat.add_mul, Nat.succ_mul, Nat.mul_comm k]
    omega
  have hcount : k ≤ p.free := by
    have := Nat.lt_of_mul_lt_mul_right hlt
    rw [Pipe.free]
    omega
  rw [Nat.mul_comm]
  exact Nat.mul_le_mul_right page hcount

end Paged

end PagePipe
