import Lalah.AudioRing

/-! What one pass of `read_quantum` has seen. Against a history of the region each loaded
word or byte comes from some instant of the pass (`AcceptedPass`); alone, the pass is a
function of the region (`run_readPass_done`). -/
namespace AudioRead

open InteractionProgram ByteMemory StreamWindow ShmContract AudioRing

variable {ring : ShmAudioBuffer} {mem : ℕ → Memory} {t u : ℕ} {α : Type} {a : α}

theorem reach_load {f : ShmField} {k : ℕ → MemProg α}
    (h : Reach access mem t (ring.load f >>= k) u (.ret a)) :
    ∃ v, t ≤ v ∧ Reach access mem (v + 1) (k (word ring f (mem v))) u (.ret a) :=
  shmHeader.reach_load h

theorem reach_store {f : ShmField} {x : ℕ} {k : Unit → MemProg α}
    (h : Reach access mem t (ring.store f x >>= k) u (.ret a)) :
    ∃ v, t ≤ v ∧ mem (v + 1) = shmHeader.put ring.hdr f x (mem v) ∧
      Reach access mem (v + 1) (k ()) u (.ret a) := Reach.act_inv h

theorem aim_spec {l : ReadLoop} {tail head pos want : ℕ} (h : l.aim tail head = (pos, want)) :
    want ≤ l.quantum ∧ pos + want ≤ tail := by
  unfold ReadLoop.aim at h
  obtain ⟨rfl, rfl⟩ := Prod.mk.inj h
  have hfloor := Nat.div_mul_le_self (min l.quantum (tail - if tail - (if head > tail then tail
    else head) > l.maxLatency / l.frame * l.frame then tail - l.maxLatency / l.frame * l.frame
    else if head > tail then tail else head)) l.frame
  split_ifs at hfloor ⊢ <;> omega

section Stores

theorem storesOnly_load {A : ℕ → Prop} {f : ShmField} {k : ℕ → MemProg α}
    (h : ∀ v, StoresOnly A (k v)) : StoresOnly A (ring.load f >>= k) :=
  ByteMemory.storesOnly_load h

theorem storesOnly_copyOut {A : ℕ → Prop} (start wu : ℕ) :
    StoresOnly A (ring.copyOut start wu) := by
  unfold ShmAudioBuffer.copyOut
  split
  · exact storesOnly_copyFrom _ _
  · exact every_bind (storesOnly_copyFrom _ _) fun _ =>
      every_bind (storesOnly_copyFrom _ _) fun _ => trivial

theorem storesOnly_readStart (out : List UInt8) (maxLatency : ℕ) :
    StoresOnly (HeadCells ring) (ring.readStart out maxLatency) :=
  storesOnly_load fun _ => trivial

theorem storesOnly_readPass (l : ReadLoop) : StoresOnly (HeadCells ring) (ring.readPass l) := by
  apply storesOnly_load
  intro s0
  split
  · trivial
  refine storesOnly_load fun tail => storesOnly_load fun head => ?_
  rcases l.aim tail head with ⟨pos, want⟩
  apply every_bind (storesOnly_copyOut _ _)
  intro live
  refine storesOnly_load fun tail2 => storesOnly_load fun s1 => ?_
  split
  · trivial
  · exact shmHeader.storesOnly_store (by simp) trivial

end Stores

theorem reach_copyOut_length {start n : ℕ} {bytes : List UInt8}
    (h : Reach access mem t (ring.copyOut start n) u (.ret bytes)) : bytes.length = n := by
  unfold ShmAudioBuffer.copyOut at h
  split at h
  · exact (reach_copyFrom h).2.1
  · obtain ⟨v, x, hx, hr⟩ := Reach.bind_inv h
    obtain ⟨w, y, hy, hret⟩ := Reach.bind_inv hr
    obtain ⟨_, rfl⟩ := Reach.ret_inv hret
    have hlen := (reach_copyFrom hx).2.1
    have hlen' := (reach_copyFrom hy).2.1
    simp only [List.length_append]
    omega

theorem reach_copyOut {pos n : ℕ} {bytes : List UInt8} (hn : n ≤ ring.cap)
    (h : Reach access mem t (ring.copyOut (ring.mask pos) n) u (.ret bytes)) :
    t ≤ u ∧ bytes.length = n ∧ ∀ i (hi : i < bytes.length),
      ∃ v, t ≤ v ∧ v < u ∧ bytes[i] = cell ring (mem v) ((pos + i) % ring.cap) := by
  have hlt := Nat.mod_lt pos (cap_pos ring)
  rw [mask_eq] at h
  unfold ShmAudioBuffer.copyOut at h
  have hcell : ∀ i, pos % ring.cap + i < ring.cap →
      (pos + i) % ring.cap = pos % ring.cap + i := by
    intro i hi
    rw [← Nat.mod_add_mod, Nat.mod_eq_of_lt hi]
  split at h
  next hfit =>
    obtain ⟨hle, hlen, hbytes⟩ := reach_copyFrom h
    refine ⟨hle, hlen, fun i hi => ?_⟩
    obtain ⟨v, hv, hvu, hb⟩ := hbytes i hi
    refine ⟨v, hv, hvu, ?_⟩
    rw [hcell i (by omega), hb, cell, Nat.add_assoc]
  next hfit =>
    obtain ⟨v, x, hx, hr⟩ := Reach.bind_inv h
    obtain ⟨w, y, hy, hret⟩ := Reach.bind_inv hr
    obtain ⟨rfl, rfl⟩ := Reach.ret_inv hret
    obtain ⟨hle, hlen, hbytes⟩ := reach_copyFrom hx
    obtain ⟨hle', hlen', hbytes'⟩ := reach_copyFrom hy
    refine ⟨by omega, by simp only [List.length_append]; omega, fun i hi => ?_⟩
    by_cases hfirst : i < x.length
    · obtain ⟨z, hz, hzu, hb⟩ := hbytes i hfirst
      refine ⟨z, hz, by omega, ?_⟩
      rw [List.getElem_append_left hfirst, hcell i (by omega), hb, cell, Nat.add_assoc]
    · simp only [List.length_append] at hi
      obtain ⟨z, hz, hzu, hb⟩ := hbytes' (i - x.length) (by omega)
      refine ⟨z, by omega, hzu, ?_⟩
      have hwrap : (pos + i) % ring.cap = i - x.length := by
        rw [← Nat.mod_add_mod, show pos % ring.cap + i = i - x.length + ring.cap by omega,
          Nat.add_mod_right, Nat.mod_eq_of_lt (by omega)]
      rw [List.getElem_append_right (by omega), hwrap, hb, cell, Nat.add_zero]

/-- The loads of a pass that returned, at increasing instants, and its store to `head`. -/
structure AcceptedPass (ring : ShmAudioBuffer) (mem : ℕ → Memory) (l : ReadLoop)
    (t u : ℕ) (n : ℕ) (out : List UInt8) where
  atSeq : ℕ
  atTail : ℕ
  atHead : ℕ
  copied : ℕ
  atTail2 : ℕ
  atSeq2 : ℕ
  live : List UInt8
  begins : t ≤ atSeq
  tail_after : atSeq < atTail
  head_after : atTail < atHead
  tail2_after : copied ≤ atTail2
  seq2_after : atTail2 < atSeq2
  ends : atSeq2 < u
  even : word ring .seq (mem atSeq) % 2 = 0
  unchanged : word ring .seq (mem atSeq2) = word ring .seq (mem atSeq)
  head : ℕ
  aimed : l.aim (word ring .tail (mem atTail)) (word ring .head (mem atHead)) = (head, n)
  copy : Reach access mem (atHead + 1) (ring.copyOut (ring.mask head) n) copied (.ret live)
  recheck : wrappingSub (word ring .tail (mem atTail2)) head ≤ ring.cap
  stored : word ring .head (mem u) = (head + n) % 2 ^ 64
  filled : out = live ++ List.replicate (l.out.length - n) 0

theorem AcceptedPass.within {l : ReadLoop} {n : ℕ} {out : List UInt8}
    (p : AcceptedPass ring mem l t u n out) : p.atSeq < u := by
  have hcopy := p.copy.le
  have htail := p.tail_after
  have hhead := p.head_after
  have htail2 := p.tail2_after
  have hseq2 := p.seq2_after
  have hend := p.ends
  omega

/-- A pass that returns has loaded the same even `seq` before and after its copy. -/
theorem reach_readPass {l : ReadLoop} {n : ℕ} {out : List UInt8}
    (h : Reach access mem t (ring.readPass l) u (.ret (.done n out))) :
    Nonempty (AcceptedPass ring mem l t u n out) := by
  unfold ShmAudioBuffer.readPass at h
  obtain ⟨t0, h0, h⟩ := reach_load h
  by_cases hodd : word ring .seq (mem t0) % 2 = 1
  · rw [if_pos hodd] at h
    exact absurd (Reach.ret_inv h).2 (by simp)
  rw [if_neg hodd] at h
  obtain ⟨t1, h1, h⟩ := reach_load h
  obtain ⟨t2, h2, h⟩ := reach_load h
  rcases haim : l.aim (word ring .tail (mem t1)) (word ring .head (mem t2)) with ⟨head, want⟩
  rw [haim] at h
  dsimp only at h
  obtain ⟨t3, live, hcopy, h⟩ := Reach.bind_inv h
  obtain ⟨t4, h4, h⟩ := reach_load h
  obtain ⟨t5, h5, h⟩ := reach_load h
  split at h
  next => exact absurd (Reach.ret_inv h).2 (by simp)
  next hok =>
    obtain ⟨t6, h6, hput, h⟩ := reach_store h
    obtain ⟨rfl, hdone⟩ := Reach.ret_inv h
    simp only [Pass.done.injEq] at hdone
    obtain ⟨rfl, rfl⟩ := hdone
    push Not at hok
    refine ⟨⟨t0, t1, t2, t3, t4, t5, live, h0, h1, h2, h4, h5, by omega, by omega, hok.1,
      head, haim, hcopy, hok.2, ?_, rfl⟩⟩
    rw [hput, word, shmHeader.get_put]
    rfl

/-- A pass that goes round again has only written into `out`. -/
theorem reach_readPass_again {l l' : ReadLoop} (hfit : l.quantum ≤ l.out.length)
    (h : Reach access mem t (ring.readPass l) u (.ret (.again l'))) :
    l' = { l with out := l'.out } ∧ l'.out.length = l.out.length := by
  unfold ShmAudioBuffer.readPass at h
  obtain ⟨t0, h0, h⟩ := reach_load h
  split at h
  · obtain ⟨_, heq⟩ := Reach.ret_inv h
    obtain rfl : l' = l := Pass.again.inj heq
    exact ⟨rfl, rfl⟩
  obtain ⟨t1, h1, h⟩ := reach_load h
  obtain ⟨t2, h2, h⟩ := reach_load h
  rcases haim : l.aim (word ring .tail (mem t1)) (word ring .head (mem t2)) with ⟨head, want⟩
  rw [haim] at h
  dsimp only at h
  obtain ⟨t3, live, hcopy, h⟩ := Reach.bind_inv h
  obtain ⟨t4, h4, h⟩ := reach_load h
  obtain ⟨t5, h5, h⟩ := reach_load h
  split at h
  · obtain ⟨_, heq⟩ := Reach.ret_inv h
    obtain rfl := Pass.again.inj heq
    have hwant := (aim_spec haim).1
    have hlen := reach_copyOut_length hcopy
    refine ⟨rfl, ?_⟩
    simp only [List.length_append, List.length_drop]
    omega
  · obtain ⟨t6, h6, hput, h⟩ := reach_store h
    exact absurd (Reach.ret_inv h).2 (by simp)

section Alone

variable (ring) (m : Memory)

@[simp] theorem run_load (f : ShmField) :
    (ring.load f).run access m = (word ring f m, m) := rfl

@[simp] theorem run_store (f : ShmField) (v : ℕ) :
    (ring.store f v).run access m = ((), shmHeader.put ring.hdr f v m) := rfl

theorem run_copyOut_memory (start n : ℕ) : ((ring.copyOut start n).run access m).2 = m := by
  unfold ShmAudioBuffer.copyOut
  split <;> simp [run_copyFrom]

theorem run_copyOut (pos n : ℕ) (hn : n ≤ ring.cap) :
    ((ring.copyOut (ring.mask pos) n).run access m).1 =
      (List.range n).map fun i => cell ring m ((pos + i) % ring.cap) := by
  have hlt := Nat.mod_lt pos (cap_pos ring)
  have hcell : ∀ i, pos % ring.cap + i < ring.cap →
      (pos + i) % ring.cap = pos % ring.cap + i := by
    intro i hi
    rw [← Nat.mod_add_mod, Nat.mod_eq_of_lt hi]
  rw [mask_eq]
  unfold ShmAudioBuffer.copyOut
  split
  next hfit =>
    rw [run_copyFrom]
    apply List.map_congr_left
    intro i hi
    have := List.mem_range.mp hi
    rw [hcell i (by omega), cell, Nat.add_assoc]
  next hfit =>
    simp only [run_bind, run_copyFrom, pure_eq, run_ret]
    apply List.ext_getElem
    · simp only [List.length_append, List.length_map, List.length_range]; omega
    · intro i h1 h2
      simp only [List.length_map, List.length_range] at h2
      rw [List.getElem_append]
      split
      next hfirst =>
        simp only [List.length_map, List.length_range] at hfirst
        simp [hcell i (by omega), cell, Nat.add_assoc]
      next hfirst =>
        simp only [List.length_map, List.length_range, not_lt] at hfirst
        have hwrap : (pos + i) % ring.cap = i - (ring.cap - pos % ring.cap) := by
          rw [← Nat.mod_add_mod, show pos % ring.cap + i =
            i - (ring.cap - pos % ring.cap) + ring.cap by omega, Nat.add_mod_right,
            Nat.mod_eq_of_lt (by omega)]
        simp [hwrap, cell]

variable {l : ReadLoop} {m} {head want : ℕ}

theorem run_readPass_lapped (heven : word ring .seq m % 2 = 0)
    (haim : l.aim (word ring .tail m) (word ring .head m) = (head, want))
    (hlap : ring.cap < wrappingSub (word ring .tail m) head) :
    (ring.readPass l).run access m =
      (.again { l with
        out := ((ring.copyOut (ring.mask head) want).run access m).1 ++ l.out.drop want }, m) := by
  have hodd : word ring .seq m % 2 ≠ 1 := by omega
  simp only [ShmAudioBuffer.readPass, run_bind, run_load, hodd, if_false, haim,
    run_copyOut_memory, ne_eq, not_true_eq_false, false_or]
  rw [if_pos hlap]
  rfl

theorem run_readPass_done (heven : word ring .seq m % 2 = 0)
    (haim : l.aim (word ring .tail m) (word ring .head m) = (head, want))
    (hlap : wrappingSub (word ring .tail m) head ≤ ring.cap) :
    (ring.readPass l).run access m =
      (.done want (((ring.copyOut (ring.mask head) want).run access m).1 ++
        List.replicate (l.out.length - want) 0), shmHeader.put ring.hdr .head (head + want) m) := by
  have hodd : word ring .seq m % 2 ≠ 1 := by omega
  simp only [ShmAudioBuffer.readPass, run_bind, run_load, hodd, if_false, haim,
    run_copyOut_memory, ne_eq, not_true_eq_false, false_or]
  rw [if_neg (Nat.not_lt.mpr hlap)]
  rfl

end Alone

end AudioRead
