import Lalah.ShmVideoContract
import Mathlib.Data.List.GetD

/-! The word-wise copies of the video frames. The loop over eight-byte words and the loop
over the bytes behind them meet at the frame's end wherever the source ends, so together
they are the plain byte copies. -/
namespace WordCopy

open InteractionProgram ByteMemory ShmContract ShmVideoContract

section Writes

/-- `n` bytes of the source, zeros behind. -/
def paddedTo (n : ℕ) (src : List UInt8) : List UInt8 :=
  src.take n ++ List.replicate (n - src.length) 0

variable {dst n i j left fs : ℕ} {src : List UInt8} {m : Memory}

def frameByte (src : List UInt8) (n x : ℕ) : UInt8 := if x < n then src.getD x 0 else 0

theorem frameWord_length (hn : n ≤ src.length) (i : ℕ) : (frameWord src n i).length = 8 := by
  unfold frameWord
  dsimp only
  split
  · simp only [List.length_append, List.length_take, List.length_drop, List.length_replicate]
    omega
  · exact List.length_replicate

theorem frameWord_byte (hn : n ≤ src.length) {x : ℕ} (hx : x < (frameWord src n i).length) :
    (frameWord src n i)[x] = frameByte src n (i * 8 + x) := by
  rw [frameWord_length hn] at hx
  unfold frameByte
  by_cases hin : i * 8 + x < n
  · have hstart : i * 8 < n := by omega
    simp only [frameWord, hstart, if_true, hin]
    rw [List.getElem_append_left (by simp; omega), List.getElem_take, List.getElem_drop,
      List.getD_eq_getElem _ _ (by omega)]
  · rw [if_neg hin]
    by_cases hstart : i * 8 < n
    · simp only [frameWord, hstart, if_true]
      rw [List.getElem_append_right (by simp; omega), List.getElem_replicate]
    · simp only [frameWord, hstart, if_false, List.getElem_replicate]

theorem storesOnly_writeWords : StoresOnly (fun a => dst + i * 8 ≤ a ∧ a < dst + (i + left) * 8)
    (writeWords dst src n i left) := by
  induction left generalizing i with
  | zero => trivial
  | succ left ih =>
    refine storesOnly_store (fun x hlo hhi => by omega) ?_
    exact StoresOnly.mono ih fun a ha => by omega

theorem storesOnly_writeTail : StoresOnly (fun a => dst + j ≤ a ∧ a < dst + (j + left))
    (writeTail dst src n j left) := by
  induction left generalizing j with
  | zero => trivial
  | succ left ih =>
    refine storesOnly_store (fun x hlo hhi => by omega) ?_
    exact StoresOnly.mono ih fun a ha => by omega

theorem run_writeWords (hn : n ≤ src.length) {x : ℕ} (hlo : i * 8 ≤ x)
    (hhi : x < (i + left) * 8) :
    ((writeWords dst src n i left).run access m).2 (dst + x) = frameByte src n x := by
  induction left generalizing i m with
  | zero => omega
  | succ left ih =>
    have hrun : ((writeWords dst src n i (left + 1)).run access m).2 =
        ((writeWords dst src n (i + 1) left).run access
          (storeWord m 8 (dst + i * 8) (wordOf (frameWord src n i)))).2 := rfl
    rw [hrun]
    by_cases hfirst : x < (i + 1) * 8
    · have hout : SameOutside _ _ _ := StoresOnly.run
        (@storesOnly_writeWords dst n (i + 1) left src)
        (storeWord m 8 (dst + i * 8) (wordOf (frameWord src n i)))
      have hx : x - i * 8 < (frameWord src n i).length := by
        rw [frameWord_length hn]
        omega
      have hword := storeWord_wordOf m (dst + i * 8) hx
      rw [frameWord_length hn, frameWord_byte hn] at hword
      rw [hout _ (by omega), show dst + x = dst + i * 8 + (x - i * 8) by omega, hword,
        Nat.add_sub_cancel' hlo]
    · exact ih (by omega) (by omega)

theorem run_writeTail {x : ℕ} (hlo : j ≤ x) (hhi : x < j + left) :
    ((writeTail dst src n j left).run access m).2 (dst + x) = frameByte src n x := by
  induction left generalizing j m with
  | zero => omega
  | succ left ih =>
    have hrun : ((writeTail dst src n j (left + 1)).run access m).2 =
        ((writeTail dst src n (j + 1) left).run access
          (storeWord m 1 (dst + j) (frameByte src n j).toNat)).2 := rfl
    rw [hrun]
    by_cases hfirst : x = j
    · have hout : SameOutside _ _ _ := StoresOnly.run
        (@storesOnly_writeTail dst n (j + 1) left src)
        (storeWord m 1 (dst + j) (frameByte src n j).toNat)
      rw [hfirst, hout _ (by omega), storeWord_one]
    · exact ih (by omega) (by omega)

theorem storesOnly_writeFrame :
    StoresOnly (fun a => dst ≤ a ∧ a < dst + fs) (volatileWriteFrame dst src fs) := by
  refine every_bind (StoresOnly.mono storesOnly_writeWords fun a ha => ?_) fun _ =>
    StoresOnly.mono storesOnly_writeTail fun a ha => ?_
  · omega
  · omega

theorem run_writeFrame {x : ℕ} (hx : x < fs) :
    ((volatileWriteFrame dst src fs).run access m).2 (dst + x) =
      frameByte src (min src.length fs) x := by
  have hrun : (volatileWriteFrame dst src fs).run access m =
      (writeTail dst src (min src.length fs) (fs / 8 * 8) (fs - fs / 8 * 8)).run access
        ((writeWords dst src (min src.length fs) 0 (fs / 8)).run access m).2 := run_bind _ _ _ _
  rw [hrun]
  by_cases hwords : x < fs / 8 * 8
  · have hout : SameOutside _ _ _ := StoresOnly.run
      (@storesOnly_writeTail dst (min src.length fs) (fs / 8 * 8) (fs - fs / 8 * 8) src)
      ((writeWords dst src (min src.length fs) 0 (fs / 8)).run access m).2
    rw [hout _ (by omega)]
    exact run_writeWords (by omega) (by omega) (by omega)
  · exact run_writeTail (by omega) (by omega)

theorem paddedTo_length (n : ℕ) (src : List UInt8) : (paddedTo n src).length = n := by
  simp only [paddedTo, List.length_append, List.length_take, List.length_replicate]
  omega

theorem paddedTo_byte {x : ℕ} (hx : x < (paddedTo fs src).length) :
    (paddedTo fs src)[x] = frameByte src (min src.length fs) x := by
  have hlen := paddedTo_length fs src ▸ hx
  simp only [paddedTo, frameByte]
  by_cases hin : x < min src.length fs
  · rw [if_pos hin, List.getElem_append_left (by simp; omega), List.getElem_take,
      List.getD_eq_getElem _ _ (by omega)]
  · rw [if_neg hin, List.getElem_append_right (by simp; omega), List.getElem_replicate]

theorem written_frame :
    (List.range fs).map (fun x => ((volatileWriteFrame dst src fs).run access m).2 (dst + x)) =
      paddedTo fs src := by
  apply List.ext_getElem
  · simp [paddedTo_length]
  · intro x hx hx'
    simp only [List.length_map, List.length_range] at hx
    rw [paddedTo_byte]
    simp only [List.getElem_map, List.getElem_range]
    exact run_writeFrame hx

end Writes

section Reads

variable {mem : ℕ → Memory} {t u : ℕ}

theorem storesOnly_readWords {A : ℕ → Prop} (s n : ℕ) : StoresOnly A (readWords s n) := by
  induction n generalizing s with
  | zero => trivial
  | succ n ih => exact storesOnly_load fun _ => every_bind (ih _) fun _ => trivial

theorem storesOnly_copyFromWords {A : ℕ → Prop} (s n : ℕ) :
    StoresOnly A (volatileCopyFromWords s n) :=
  every_bind (storesOnly_readWords _ _) fun _ =>
    every_bind (storesOnly_copyFrom _ _) fun _ => trivial

theorem every_readWords {P : Access → Prop} {s n : ℕ} :
    (readWords s n).Every Fits P ↔ ∀ i < n, P (.load 8 (s + i * 8)) := by
  induction n generalizing s with
  | zero => exact ⟨fun _ i hi => absurd hi (Nat.not_lt_zero i), fun _ => trivial⟩
  | succ n ih =>
    constructor
    · rintro ⟨hfirst, hrest⟩ i hi
      cases i with
      | zero => rwa [Nat.zero_mul]
      | succ i =>
        have hcopy := ih.mp (every_left (hrest 0 (Nat.pow_pos (Nat.succ_pos 255)))) i (by omega)
        rwa [show s + 8 + i * 8 = s + (i + 1) * 8 by omega] at hcopy
    · intro h
      refine ⟨by simpa using h 0 (by omega), fun w _ => ?_⟩
      refine every_bind (p := readWords (s + 8) n) (ih.mpr fun i hi => ?_) fun _ => trivial
      rw [show s + 8 + i * 8 = s + (i + 1) * 8 by omega]
      exact h (i + 1) (by omega)

theorem every_copyFromWords {P : Access → Prop} {s n : ℕ} :
    (volatileCopyFromWords s n).Every Fits P ↔ (∀ i < n / 8, P (.load 8 (s + i * 8))) ∧
      ∀ i < n - n / 8 * 8, P (.load 1 (s + n / 8 * 8 + i)) := by
  constructor
  · intro h
    refine ⟨every_readWords.mp (every_left h), every_copyFrom.mp ?_⟩
    exact every_left (every_right access_fits h fun _ => 0)
  · rintro ⟨hwords, hbytes⟩
    exact every_bind (every_readWords.mpr hwords) fun _ =>
      every_bind (every_copyFrom.mpr hbytes) fun _ => trivial

theorem reach_readWords {s n : ℕ} {bytes : List UInt8}
    (h : Reach access mem t (readWords s n) u (.ret bytes)) :
    t ≤ u ∧ bytes.length = n * 8 ∧
      ∀ i (hi : i < bytes.length), ∃ v, t ≤ v ∧ v < u ∧ bytes[i] = mem v (s + i) := by
  induction n generalizing s t bytes with
  | zero =>
    obtain ⟨rfl, rfl⟩ := Reach.ret_inv h
    exact ⟨Nat.le_refl _, rfl, fun i hi => absurd hi (by simp)⟩
  | succ n ih =>
    obtain ⟨v, hv, _, hr⟩ := Reach.act_inv h
    change Reach access mem (v + 1) (readWords (s + 8) n >>= fun rest =>
      .ret (bytesOf 8 (loadWord (mem v) 8 s) ++ rest)) u (.ret bytes) at hr
    obtain ⟨w, rest, hrest, hret⟩ := Reach.bind_inv hr
    obtain ⟨rfl, rfl⟩ := Reach.ret_inv hret
    obtain ⟨hle, hlen, hbytes⟩ := ih hrest
    have hword := bytesOf_loadWord (mem v) 8 s
    have hfirst : (bytesOf 8 (loadWord (mem v) 8 s)).length = 8 := by simp [hword]
    refine ⟨by omega, by rw [List.length_append, hfirst, hlen]; omega, fun i hi => ?_⟩
    by_cases hin : i < 8
    · refine ⟨v, hv, by omega, ?_⟩
      rw [List.getElem_append_left (by omega)]
      simp [hword]
    · rw [List.length_append, hfirst] at hi
      obtain ⟨x, hx, hxu, hb⟩ := hbytes (i - 8) (by omega)
      refine ⟨x, by omega, hxu, ?_⟩
      rw [List.getElem_append_right (by omega)]
      simp only [hfirst]
      rw [hb, show s + 8 + (i - 8) = s + i by omega]

theorem reach_copyFromWords {s n : ℕ} {bytes : List UInt8}
    (h : Reach access mem t (volatileCopyFromWords s n) u (.ret bytes)) :
    t ≤ u ∧ bytes.length = n ∧
      ∀ i (hi : i < bytes.length), ∃ v, t ≤ v ∧ v < u ∧ bytes[i] = mem v (s + i) := by
  obtain ⟨v, a, ha, hr⟩ := Reach.bind_inv h
  obtain ⟨w, b, hb, hret⟩ := Reach.bind_inv hr
  obtain ⟨rfl, rfl⟩ := Reach.ret_inv hret
  obtain ⟨hle, hlen, hbytes⟩ := reach_readWords ha
  obtain ⟨hle', hlen', hbytes'⟩ := reach_copyFrom hb
  refine ⟨by omega, by rw [List.length_append]; omega, fun i hi => ?_⟩
  by_cases hin : i < a.length
  · obtain ⟨x, hx, hxu, hbyte⟩ := hbytes i hin
    refine ⟨x, hx, by omega, ?_⟩
    rw [List.getElem_append_left hin, hbyte]
  · rw [List.length_append] at hi
    obtain ⟨x, hx, hxu, hbyte⟩ := hbytes' (i - a.length) (by omega)
    refine ⟨x, by omega, hxu, ?_⟩
    rw [List.getElem_append_right (by omega), hbyte, hlen]
    congr 1
    omega

theorem run_readWords (s n : ℕ) (m : Memory) :
    (readWords s n).run access m = ((List.range (n * 8)).map (fun i => m (s + i)), m) := by
  induction n generalizing s with
  | zero => rfl
  | succ n ih =>
    change (readWords (s + 8) n >>= fun rest =>
      .ret (bytesOf 8 (loadWord m 8 s) ++ rest)).run access m = _
    rw [run_bind, ih, run_ret, bytesOf_loadWord, Nat.succ_mul, Nat.add_comm (n * 8) 8,
      List.range_add, List.map_append, List.map_map]
    simp [Function.comp_def, Nat.add_assoc]

theorem run_copyFromWords (s n : ℕ) (m : Memory) :
    (volatileCopyFromWords s n).run access m = ((List.range n).map (fun i => m (s + i)), m) := by
  have hrun : (volatileCopyFromWords s n).run access m =
      ((List.range (n / 8 * 8)).map (fun i => m (s + i)) ++
        (List.range (n - n / 8 * 8)).map (fun i => m (s + n / 8 * 8 + i)), m) := by
    simp only [volatileCopyFromWords, run_bind, run_readWords, run_copyFrom, pure_eq, run_ret]
  have hsplit : List.range n = List.range (n / 8 * 8) ++
      (List.range (n - n / 8 * 8)).map (n / 8 * 8 + ·) := by
    rw [← List.range_add, Nat.add_sub_cancel' (Nat.div_mul_le_self n 8)]
  rw [hrun, hsplit, List.map_append, List.map_map]
  simp [Function.comp_def, Nat.add_assoc]

end Reads

section Alignment

variable {ok : (op : Access) → op.Reply → Prop} {a i n left j fs : ℕ} {src : List UInt8}

/-- Words are accessed at multiples of their width only. -/
def WordAligned : Access → Prop
  | .load w a => w = 8 → 8 ∣ a
  | .store w a _ => w = 8 → 8 ∣ a

theorem aligned_writeFrame (h : 8 ∣ a) : (volatileWriteFrame a src fs).Every ok WordAligned := by
  have hwords : ∀ left i n, (writeWords a src n i left).Every ok WordAligned := by
    intro left
    induction left with
    | zero => exact fun _ _ => trivial
    | succ left ih => exact fun i n => ⟨fun _ => by omega, fun _ _ => ih (i + 1) n⟩
  have htail : ∀ left j n, (writeTail a src n j left).Every ok WordAligned := by
    intro left
    induction left with
    | zero => exact fun _ _ => trivial
    | succ left ih => exact fun j n => ⟨(by cases ·), fun _ _ => ih (j + 1) n⟩
  exact every_bind (hwords _ _ _) fun _ => htail _ _ _

theorem aligned_copyFromWords (h : 8 ∣ a) : (volatileCopyFromWords a n).Every ok WordAligned := by
  have hwords : ∀ left s, 8 ∣ s → (readWords s left).Every ok WordAligned := by
    intro left
    induction left with
    | zero => exact fun _ _ => trivial
    | succ left ih =>
      intro s hs
      refine ⟨fun _ => hs, fun w _ => ?_⟩
      exact every_bind (p := readWords (s + 8) left) (ih (s + 8) (by omega)) fun _ => trivial
  have hbytes : ∀ left s, (volatileCopyFrom s left).Every ok WordAligned := by
    intro left
    induction left with
    | zero => exact fun _ => trivial
    | succ left ih =>
      refine fun s => ⟨(by cases ·), fun w _ => ?_⟩
      exact every_bind (p := volatileCopyFrom (s + 1) left) (ih (s + 1)) fun _ => trivial
  exact every_bind (hwords _ _ h) fun _ => every_bind (hbytes _ _) fun _ => trivial

end Alignment

theorem run_copyTo (dst : ℕ) (bytes : List UInt8) (m : Memory) (a : ℕ) :
    ((volatileCopyTo dst bytes).run access m).2 a =
      if dst ≤ a ∧ a < dst + bytes.length then bytes.getD (a - dst) 0 else m a := by
  induction bytes generalizing dst m with
  | nil => exact (if_neg (by simp)).symm
  | cons b bytes ih =>
    have hrun : ((volatileCopyTo dst (b :: bytes)).run access m).2 =
        ((volatileCopyTo (dst + 1) bytes).run access (storeWord m 1 dst b.toNat)).2 := rfl
    rw [hrun, ih, List.length_cons]
    by_cases hfirst : a = dst
    · subst hfirst
      rw [if_neg (by omega), if_pos (by omega), storeWord_one, Nat.sub_self]
      rfl
    · by_cases hin : dst + 1 ≤ a ∧ a < dst + 1 + bytes.length
      · rw [if_pos hin, if_pos (by omega), show a - dst = a - (dst + 1) + 1 by omega]
        rfl
      · rw [if_neg hin, if_neg (by omega)]
        exact storeWord_outside (by omega)

/-- The words of a frame leave what the plain copy of the padded source leaves. -/
theorem writeFrame_bytewise (m : Memory) (dst fs : ℕ) (src : List UInt8) :
    (volatileWriteFrame dst src fs).run access m =
      (volatileCopyTo dst (paddedTo fs src)).run access m := by
  have hout : SameOutside _ m ((volatileWriteFrame dst src fs).run access m).2 :=
    StoresOnly.run storesOnly_writeFrame m
  apply Prod.ext
  · rfl
  funext a
  rw [run_copyTo, paddedTo_length]
  by_cases hin : dst ≤ a ∧ a < dst + fs
  · have hx : a - dst < (paddedTo fs src).length := by
      rw [paddedTo_length]
      omega
    rw [if_pos hin, List.getD_eq_getElem _ _ hx, paddedTo_byte hx, ← run_writeFrame (by omega),
      Nat.add_sub_cancel' hin.1]
  · rw [if_neg hin]
    exact hout a (by omega)

/-- A frame is written as the padded source would be byte by byte, every byte outside it
stays, what is read back is the padded source, and words are accessed aligned. -/
theorem word_copies (m : Memory) (base off fs : ℕ) (src : List UInt8) :
    let written := (volatileWriteFrame (base + off) src fs).run access m
    (List.range fs).map (fun x => written.2 (base + off + x)) = paddedTo fs src ∧
    (∀ a, a < base + off ∨ base + off + fs ≤ a → written.2 a = m a) ∧
    written = (volatileCopyTo (base + off) (paddedTo fs src)).run access m ∧
    (∀ n, (volatileCopyFromWords (base + off) n).run access m =
      ((List.range n).map (fun x => m (base + off + x)), m)) ∧
    (∀ n ≤ fs, ((volatileCopyFromWords (base + off) n).run access written.2).1 =
      (paddedTo fs src).take n) ∧
    (8 ∣ base + off →
      (volatileWriteFrame (base + off) src fs).Every (fun _ _ => True) WordAligned ∧
      ∀ n, (volatileCopyFromWords (base + off) n).Every (fun _ _ => True) WordAligned) := by
  intro written
  have hframe : (List.range fs).map (fun x => written.2 (base + off + x)) = paddedTo fs src :=
    written_frame
  have hout : SameOutside _ m written.2 := StoresOnly.run storesOnly_writeFrame m
  have houtside : ∀ a, a < base + off ∨ base + off + fs ≤ a → written.2 a = m a :=
    fun a ha => hout a (by omega)
  refine ⟨hframe, houtside, writeFrame_bytewise m (base + off) fs src,
    fun n => run_copyFromWords _ n m, ?_, ?_⟩
  · intro n hn
    rw [run_copyFromWords, ← hframe, ← List.map_take, List.take_range, Nat.min_eq_left hn]
  · intro ha
    exact ⟨aligned_writeFrame ha, fun n => aligned_copyFromWords ha⟩

end WordCopy
