/-
The Hilbert curve on intervals (`src/Common/HilbertUtils.h`): an interval of codes is
split into blocks of a power of four codes, and each block is unpacked to a square.

Numbers are `ℕ` below `2 ^ 64`, with the remainder where the source can wrap around. A
callback is the list of what it is called with.

A call of `segmentBinaryPartition` goes one step down in `Lib.Block`: what it calls back
are the maximal blocks of the parts of the interval in the four children of a block
(`segmentBinaryPartition_lists`). Whether it gets there is a statement of its own:
`1 << next_bits` is a shift of an `int`, and from 32 bits on it is undefined. The test
it is in is reached where the two ends are in one quarter, which the digits of the ends
decide (`segmentBinaryPartition_ok_iff`).
-/
import ClickHouse.Core.Types
import ClickHouse.Functions.HilbertDecode

set_option autoImplicit false

namespace ClickHouse

open Lib List Block Nat

/-! ## The functions -/

/-- `1 << n` as an `int`, converted to `UInt64`. -/
def intShift (n : ℕ) : Eval ℕ :=
  if n < 32 then .ok ((1#32 <<< n).signExtend 64).toNat else .error .undefined_behaviour

/-- `construct_range`: the first and the last code of a chunk. -/
def constructRange (history next_bits chunk : ℕ) : ℕ × ℕ :=
  ((history + chunk <<< next_bits) % 2 ^ 64,
    (history + ((chunk + 1) <<< next_bits) % 2 ^ 64 + (2 ^ 64 - 1)) % 2 ^ 64)

/-- `segmentBinaryPartition`, with `current_bits` first. It is even; one bit would be
a shift by a negative number. -/
def segmentBinaryPartition : ℕ → ℕ → ℕ → Eval (List (ℕ × ℕ))
  | 0, _, _ => .ok []
  | 1, _, _ => .error .undefined_behaviour
  | next_bits + 2, start, finish =>
    let current_bits := next_bits + 2
    -- a shift by 64 would be undefined
    let history := if current_bits = 64 then 0 else (start >>> current_bits) <<< current_bits
    let start_chunk := (start >>> next_bits) &&& 0b11
    let finish_chunk := (finish >>> next_bits) &&& 0b11
    if start_chunk = finish_chunk then
      -- the width is computed as an `int`
      (intShift next_bits).bind fun width =>
        if (finish + 2 ^ 64 - start + 1) % 2 ^ 64 = width then .ok [(start, finish)]
        else segmentBinaryPartition next_bits start finish
    else
      -- the chunks between the two are taken whole
      let between := (List.range' (start_chunk + 1) (finish_chunk - (start_chunk + 1))).map
        (constructRange history next_bits)
      let start_range := constructRange history next_bits start_chunk
      let finish_range := constructRange history next_bits finish_chunk
      (if start = start_range.1 then .ok [start_range]
        else segmentBinaryPartition next_bits start start_range.2).bind fun left =>
      (if finish = finish_range.2 then .ok [finish_range]
        else segmentBinaryPartition next_bits finish_range.1 finish).map fun right =>
      between ++ left ++ right

/-- `createRangeFromCorners`. -/
def createRangeFromCorners (x1 y1 x2 y2 : ℕ) : Block.Rectangle :=
  let dist_x := if x1 > x2 then x1 - x2 else x2 - x1
  let dist_y := if y1 > y2 then y1 - y2 else y2 - y1
  let range_size := max dist_x dist_y
  let contains_minimum_vertice := x1 % (range_size + 1) = 0
  if contains_minimum_vertice then
    let x_min := min x1 x2
    let y_min := min y1 y2
    ((x_min, x_min + range_size), (y_min, y_min + range_size))
  else
    let x_max := max x1 x2
    let y_max := max y1 y2
    ((x_max - range_size, x_max), (y_max - range_size, y_max))

/-- `hilbertIntervalToHyperrectangles2D`. -/
def hilbertIntervalToHyperrectangles2D (first last : ℕ) : Eval (List Block.Rectangle) :=
  let equal_bits_count := getLeadingZeroBits (last ||| first)
  let even_equal_bits_count := equal_bits_count - equal_bits_count % 2
  (segmentBinaryPartition (64 - even_equal_bits_count) first last).map (List.map fun (a, b) =>
    let interval1 := hilbertDecode a
    let interval2 := hilbertDecode b
    createRangeFromCorners interval1.1 interval1.2 interval2.1 interval2.2)

/-! ## Squares -/

/-- Of corners at distance `size` in one direction, and at most that in the other. -/
lemma createRangeFromCorners_of_size {x1 y1 x2 y2 : ℕ} (size : ℕ)
    (hx : max x1 x2 ≤ min x1 x2 + size) (hy : max y1 y2 ≤ min y1 y2 + size)
    (hsize : max x1 x2 = min x1 x2 + size ∨ max y1 y2 = min y1 y2 + size) :
    createRangeFromCorners x1 y1 x2 y2 =
      if x1 % (size + 1) = 0 then
        ((min x1 x2, min x1 x2 + size), (min y1 y2, min y1 y2 + size))
      else ((max x1 x2 - size, max x1 x2), (max y1 y2 - size, max y1 y2)) := by
  have hrange : max (if x1 > x2 then x1 - x2 else x2 - x1) (if y1 > y2 then y1 - y2 else y2 - y1) =
      size := by
    split <;> split <;> omega
  simp only [createRangeFromCorners, hrange]

/-- **The corners of a block give back its square.** -/
theorem createRangeFromCorners_block {j m : ℕ} (hlt : m * 4 ^ j + 4 ^ j - 1 < 2 ^ 64) :
    createRangeFromCorners (hilbertDecode (m * 4 ^ j)).1 (hilbertDecode (m * 4 ^ j)).2
      (hilbertDecode (m * 4 ^ j + 4 ^ j - 1)).1 (hilbertDecode (m * 4 ^ j + 4 ^ j - 1)).2 =
      square j m := by
  rw [hilbertDecode_first hlt, hilbertDecode_last hlt, square]
  generalize (blockCorner j m).1 = X
  generalize (blockCorner j m).2 = Y
  have hpos : 0 < 2 ^ j := by positivity
  generalize 2 ^ j = w at hpos
  have hmod : X * w % w = 0 := mul_mod_left X w
  have hmod' : (X * w + w - 1) % w = w - 1 := by
    rw [Nat.add_sub_assoc hpos, mul_add_mod', mod_eq_of_lt (by omega)]
  have hwidth : w - 1 + 1 = w := Nat.sub_add_cancel hpos
  generalize X * w = a at *
  generalize Y * w = b at *
  by_cases hfirst : (blockOrientation j m).val < 2
  · -- the first corner is the least one
    simp only [if_pos hfirst]
    split <;> rw [createRangeFromCorners_of_size (w - 1) (by omega) (by omega) (by omega),
      hwidth, if_pos hmod] <;> simp only [Prod.mk.injEq] <;> omega
  · simp only [if_neg hfirst]
    split <;> rw [createRangeFromCorners_of_size (w - 1) (by omega) (by omega) (by omega),
      hwidth, hmod'] <;> split <;> simp only [Prod.mk.injEq] <;> omega

/-! ## One call, in blocks -/

/-- The first and the last code of a block. -/
def blockRange (i q : ℕ) : ℕ × ℕ := (q * 4 ^ i, q * 4 ^ i + 4 ^ i - 1)

lemma two_pow_double (i : ℕ) : 2 ^ (2 * i) = 4 ^ i := by
  rw [pow_mul]
  norm_num

lemma constructRange_eq {i P chunk : ℕ} (hchunk : chunk < 4) (hP : (P + 1) * 4 ^ (i + 1) ≤ 2 ^ 64) :
    constructRange (P * 4 ^ (i + 1)) (2 * i) chunk = blockRange i (4 * P + chunk) := by
  have hpos : 0 < 4 ^ i := by positivity
  have hparent : P * 4 ^ (i + 1) = 4 * (P * 4 ^ i) := by ring
  have hP' : (P + 1) * 4 ^ (i + 1) = 4 * (P * 4 ^ i) + 4 * 4 ^ i := by ring
  have hfirst : (4 * P + chunk) * 4 ^ i = 4 * (P * 4 ^ i) + chunk * 4 ^ i := by ring
  have hnext : (chunk + 1) * 4 ^ i = chunk * 4 ^ i + 4 ^ i := by ring
  have hle : chunk * 4 ^ i ≤ 3 * 4 ^ i := mul_le_mul_right _ (by omega)
  rw [constructRange, blockRange, shiftLeft_eq, shiftLeft_eq, two_pow_double, hparent,
    hfirst, hnext, Prod.mk.injEq]
  constructor <;> omega

lemma chunk_eq (x i : ℕ) : (x >>> (2 * i)) &&& 0b11 = x / 4 ^ i % 4 := by
  rw [shiftRight_eq_div_pow, two_pow_double]
  exact and_two_pow_sub_one_eq_mod _ 2

lemma history_eq {start i : ℕ} (hstart : start < 2 ^ 64) :
    (if 2 * i + 2 = 64 then 0 else (start >>> (2 * i + 2)) <<< (2 * i + 2)) =
      start / 4 ^ (i + 1) * 4 ^ (i + 1) := by
  have hpow : 2 ^ (2 * i + 2) = 4 ^ (i + 1) := two_pow_double (i + 1)
  split
  next h =>
    rw [← hpow, h, div_eq_of_lt hstart, zero_mul]
  next => rw [shiftRight_eq_div_pow, shiftLeft_eq, hpow]

/-- The block of a `UInt64` stays below the end of the type. -/
lemma block_le {start i : ℕ} (hstart : start < 2 ^ 64) (hi : i ≤ 32) :
    (start / 4 ^ i + 1) * 4 ^ i ≤ 2 ^ 64 := by
  have hsplit : (2 : ℕ) ^ 64 = 4 ^ (32 - i) * 4 ^ i := by
    rw [← pow_add, Nat.sub_add_cancel hi]
    norm_num
  rw [hsplit] at hstart ⊢
  exact mul_le_mul_right _ (Nat.div_lt_of_lt_mul (by rwa [mul_comm]))

/-- A part of the interval in one block: the block itself, or what the recursion makes
of it. -/
def segmentPart (i start finish : ℕ) (whole : Bool) : Eval (List (ℕ × ℕ)) :=
  if whole then .ok [(start, finish)] else segmentBinaryPartition (2 * i) start finish

lemma segmentPart_left (i start q : ℕ) :
    (if start = (blockRange i q).1 then .ok [blockRange i q]
      else segmentBinaryPartition (2 * i) start (blockRange i q).2) =
      segmentPart i start (blockRange i q).2 (start = (blockRange i q).1) := by
  unfold segmentPart
  by_cases h : start = (blockRange i q).1
  · rw [if_pos h, if_pos (decide_eq_true h), h]
  · rw [if_neg h, if_neg (by simpa using h)]

lemma segmentPart_right (i finish q : ℕ) :
    (if finish = (blockRange i q).2 then .ok [blockRange i q]
      else segmentBinaryPartition (2 * i) (blockRange i q).1 finish) =
      segmentPart i (blockRange i q).1 finish (finish = (blockRange i q).2) := by
  unfold segmentPart
  by_cases h : finish = (blockRange i q).2
  · rw [if_pos h, if_pos (decide_eq_true h), h]
  · rw [if_neg h, if_neg (by simpa using h)]

variable {i start finish : ℕ}

variable (hi : i + 1 ≤ 32) (hle : start ≤ finish) (hfinish : finish < 2 ^ 64)
  (hsame : start / 4 ^ (i + 1) = finish / 4 ^ (i + 1))

include hi hle hfinish hsame in
/-- **One call**: what is done with the interval in the blocks of the level `i`. -/
theorem segmentBinaryPartition_succ :
    segmentBinaryPartition (2 * (i + 1)) start finish =
      if start / 4 ^ i = finish / 4 ^ i then
        (intShift (2 * i)).bind fun width =>
          segmentPart i start finish (finish - start + 1 = width)
      else
        (segmentPart i start (blockRange i (start / 4 ^ i)).2
          (start = (blockRange i (start / 4 ^ i)).1)).bind fun left =>
        (segmentPart i (blockRange i (finish / 4 ^ i)).1 finish
          (finish = (blockRange i (finish / 4 ^ i)).2)).map fun right =>
        (range' (start / 4 ^ i + 1) (finish / 4 ^ i - (start / 4 ^ i + 1))).map
          (blockRange i) ++ left ++ right := by
  have hblock := block_le (hle.trans_lt hfinish) hi
  -- both ends lie in the parent block, so two bits tell their quarters
  have hstart : start / 4 ^ i = 4 * (start / 4 ^ (i + 1)) + start / 4 ^ i % 4 := by
    rw [div_parent]
    omega
  have hend : finish / 4 ^ i = 4 * (start / 4 ^ (i + 1)) + finish / 4 ^ i % 4 := by
    rw [hsame, div_parent]
    omega
  have hrange : ∀ x, constructRange (start / 4 ^ (i + 1) * 4 ^ (i + 1)) (2 * i) (x / 4 ^ i % 4) =
      blockRange i (4 * (start / 4 ^ (i + 1)) + x / 4 ^ i % 4) :=
    fun x => constructRange_eq (mod_lt _ (by omega)) hblock
  -- the quarters between those of the ends are taken whole
  have hbetween : (range' (start / 4 ^ i % 4 + 1)
        (finish / 4 ^ i % 4 - (start / 4 ^ i % 4 + 1))).map
        (constructRange (start / 4 ^ (i + 1) * 4 ^ (i + 1)) (2 * i)) =
      (range' (start / 4 ^ i + 1) (finish / 4 ^ i - (start / 4 ^ i + 1))).map
        (blockRange i) := by
    rw [show finish / 4 ^ i - (start / 4 ^ i + 1) =
        finish / 4 ^ i % 4 - (start / 4 ^ i % 4 + 1) by omega,
      show start / 4 ^ i + 1 = 4 * (start / 4 ^ (i + 1)) + (start / 4 ^ i % 4 + 1) by omega,
      ← map_add_range' (start / 4 ^ i % 4 + 1), map_map]
    refine map_congr_left fun chunk hchunk => constructRange_eq ?_ hblock
    rw [mem_range'_1] at hchunk
    omega
  rw [show 2 * (i + 1) = 2 * i + 2 from rfl, segmentBinaryPartition]
  simp only [chunk_eq, history_eq (hle.trans_lt hfinish), hrange, ← hstart, ← hend, hbetween,
    segmentPart_left, segmentPart_right]
  by_cases hchunk : start / 4 ^ i = finish / 4 ^ i
  · -- the width is computed modulo 2 ^ 64, and does not wrap inside one block
    have hwidth : (finish + 2 ^ 64 - start + 1) % 2 ^ 64 = finish - start + 1 := by
      have hfirst := ((mem_iff (by omega)).1 hchunk).1
      have hlast := ((mem_iff (by omega)).1 (Eq.refl (finish / 4 ^ i))).2
      have hpow : 4 ^ i ≤ 4 ^ 31 := Nat.pow_le_pow_right (by omega) (by omega)
      omega
    simp only [hchunk, hwidth, segmentPart, decide_eq_true_iff, if_true]
  · have hmod : start / 4 ^ i % 4 ≠ finish / 4 ^ i % 4 := by omega
    rw [if_neg hchunk, if_neg hmod]

lemma intShift_of_lt (hi : i < 16) : intShift (2 * i) = .ok (4 ^ i) := by
  revert i
  decide

lemma intShift_of_le (hi : 16 ≤ i) : intShift (2 * i) = .error .undefined_behaviour :=
  if_neg (by omega)

/-! ## The blocks -/

/-- The maximal blocks of the parts of an interval in the blocks of the level `i`. -/
def PartBlock (i start finish j m : ℕ) : Prop :=
  ∃ q, (start / 4 ^ i ≤ q ∧ q ≤ finish / 4 ^ i) ∧
    Block.Maximal 4 (max start (q * 4 ^ i)) (min finish (q * 4 ^ i + 4 ^ i - 1)) j m

/-- The recursion calls back the maximal blocks of an interval that is in a block of the
level `i`, but is not the block. -/
def RecursionLists (i : ℕ) : Prop :=
  ∀ start finish q intervals, start ≤ finish → finish < 2 ^ 64 → start / 4 ^ i = q →
    finish / 4 ^ i = q → ¬ Block.Inside 4 start finish i q →
    segmentBinaryPartition (2 * i) start finish = .ok intervals →
    Block.Lists 4 (Block.Maximal 4 start finish) intervals

variable {intervals : List (ℕ × ℕ)} {whole : Bool}

lemma segmentPart_lists {q : ℕ} (hrec : RecursionLists i)
    (hle : start ≤ finish) (hfinish : finish < 2 ^ 64) (hq : start / 4 ^ i = q)
    (hq' : finish / 4 ^ i = q) (hwhole : whole = true ↔ Inside 4 start finish i q)
    (h : segmentPart i start finish whole = .ok intervals) :
    Lists 4 (Maximal 4 start finish) intervals := by
  unfold segmentPart at h
  split at h
  next hw =>
    obtain rfl := Except.ok.inj h
    exact lists_of_inside (by omega) hq hq' (hwhole.1 hw)
  next hw => exact hrec start finish q intervals hle hfinish hq hq' (fun hin => hw (hwhole.2 hin)) h

/-- The whole blocks between those of the ends. -/
lemma between_lists (i a n : ℕ) :
    Lists 4 (fun j m => j = i ∧ a ≤ m ∧ m < a + n) ((range' a n).map (blockRange i)) := by
  intro b c
  simp only [mem_map, mem_range'_1, blockRange, Prod.mk.injEq]
  constructor
  · rintro ⟨m, hm, rfl, rfl⟩
    exact ⟨i, m, ⟨rfl, hm⟩, rfl, rfl⟩
  · rintro ⟨j, m, ⟨rfl, hm⟩, rfl, rfl⟩
    exact ⟨m, hm, rfl, rfl⟩

lemma partBlock_of_eq {q j m : ℕ} (hq : start / 4 ^ i = q) (hq' : finish / 4 ^ i = q) :
    PartBlock i start finish j m ↔ Maximal 4 start finish j m := by
  have hfirst := ((mem_iff (by omega)).1 hq).1
  have hlast := ((mem_iff (by omega)).1 hq').2
  unfold PartBlock
  rw [hq, hq']
  constructor
  · rintro ⟨q', ⟨hge, hle⟩, h⟩
    obtain rfl := le_antisymm hge hle
    rwa [max_eq_left hfirst, min_eq_left hlast] at h
  · intro h
    exact ⟨q, ⟨le_rfl, le_rfl⟩, by rwa [max_eq_left hfirst, min_eq_left hlast]⟩

/-- Between two blocks of a level, the parts are whole blocks and those at the two ends. -/
lemma partBlock_of_lt {a b j m : ℕ} (ha : start / 4 ^ i = a)
    (hb : finish / 4 ^ i = b) (hlt : a < b) :
    PartBlock i start finish j m ↔
      ((j = i ∧ a + 1 ≤ m ∧ m < a + 1 + (b - (a + 1))) ∨
        Maximal 4 start (blockRange i a).2 j m) ∨
        Maximal 4 (blockRange i b).1 finish j m := by
  have hstart := (mem_iff (by omega)).1 ha
  have hfinish := (mem_iff (by omega)).1 hb
  have hmono : ∀ x y, x < y → x * 4 ^ i + 4 ^ i ≤ y * 4 ^ i := by
    intro x y hxy
    rw [← succ_mul]
    exact mul_le_mul_right _ hxy
  have hab := hmono a b hlt
  -- the interval in the first block, in the last one and in one between them
  have hleft : Block.Maximal 4 (max start (a * 4 ^ i)) (min finish (a * 4 ^ i + 4 ^ i - 1)) j m ↔
      Block.Maximal 4 start (blockRange i a).2 j m := by
    rw [max_eq_left hstart.1, min_eq_right (by omega), blockRange]
  have hright : Block.Maximal 4 (max start (b * 4 ^ i)) (min finish (b * 4 ^ i + 4 ^ i - 1)) j m ↔
      Block.Maximal 4 (blockRange i b).1 finish j m := by
    rw [max_eq_right (by omega), min_eq_left hfinish.2, blockRange]
  have hbetween : ∀ q, a < q → q < b →
      (Block.Maximal 4 (max start (q * 4 ^ i)) (min finish (q * 4 ^ i + 4 ^ i - 1)) j m ↔
        j = i ∧ m = q) := by
    intro q haq hqb
    have h1 := hmono a q haq
    have h2 := hmono q b hqb
    rw [max_eq_right (by omega), min_eq_right (by omega), maximal_full (by omega)]
  unfold PartBlock
  rw [ha, hb]
  constructor
  · rintro ⟨q, ⟨hge, hle⟩, h⟩
    rcases hge.lt_or_eq with haq | rfl
    · rcases hle.lt_or_eq with hqb | rfl
      · obtain ⟨rfl, rfl⟩ := (hbetween q haq hqb).1 h
        exact .inl (.inl ⟨rfl, haq, by omega⟩)
      · exact .inr (hright.1 h)
    · exact .inl (.inr (hleft.1 h))
  · rintro ((⟨rfl, haq, hqb⟩ | h) | h)
    · exact ⟨m, ⟨by omega, by omega⟩, (hbetween m (by omega) (by omega)).2 ⟨rfl, rfl⟩⟩
    · exact ⟨a, ⟨le_rfl, hlt.le⟩, hleft.2 h⟩
    · exact ⟨b, ⟨hlt.le, le_rfl⟩, hright.2 h⟩

/-- One call, if the calls in it do what they should. -/
lemma segmentBinaryPartition_lists_succ (hrec : RecursionLists i) (hi : i + 1 ≤ 32)
    (hle : start ≤ finish) (hfinish : finish < 2 ^ 64)
    (hsame : start / 4 ^ (i + 1) = finish / 4 ^ (i + 1))
    (h : segmentBinaryPartition (2 * (i + 1)) start finish = .ok intervals) :
    Lists 4 (PartBlock i start finish) intervals := by
  rw [segmentBinaryPartition_succ hi hle hfinish hsame] at h
  have hstart := (mem_iff (by omega)).1 (Eq.refl (start / 4 ^ i))
  have hend := (mem_iff (by omega)).1 (Eq.refl (finish / 4 ^ i))
  have hpos : 0 < 4 ^ i := by positivity
  by_cases hq : start / 4 ^ i = finish / 4 ^ i
  · rw [if_pos hq] at h
    -- from level 16 on the shift of an int is undefined, and the call does not return
    by_cases h16 : i < 16
    · rw [intShift_of_lt h16] at h
      refine (segmentPart_lists hrec hle hfinish hq rfl ?_ h).congr fun j m =>
        partBlock_of_eq hq rfl
      rw [decide_eq_true_iff, inside_iff (by omega)]
      rw [hq] at hstart
      omega
    · rw [intShift_of_le (not_lt.1 h16)] at h
      exact absurd h nofun
  · rw [if_neg hq] at h
    have hlt : start / 4 ^ i < finish / 4 ^ i := lt_of_le_of_ne (Nat.div_le_div_right hle) hq
    have hab : start / 4 ^ i * 4 ^ i + 4 ^ i ≤ finish / 4 ^ i * 4 ^ i := by
      rw [← succ_mul]
      exact mul_le_mul_right _ hlt
    obtain ⟨left, hl, h⟩ := bind_eq_ok.1 h
    obtain ⟨right, hr, h⟩ := bind_eq_ok.1 h
    obtain rfl := Except.ok.inj h
    -- the first and the last block are cut by the ends of the interval
    have hlists := segmentPart_lists hrec hstart.2 (by omega) rfl (last_mem (by omega) _ _)
      (by rw [decide_eq_true_iff, inside_iff (by omega)]; simp only [blockRange]; omega) hl
    have hlists' := segmentPart_lists hrec hend.1 hfinish (first_mem (by omega) _ _) rfl
      (by rw [decide_eq_true_iff, inside_iff (by omega)]; simp only [blockRange]; omega) hr
    exact (((between_lists i _ _).append hlists).append hlists').congr
      fun j m => partBlock_of_lt rfl rfl hlt

lemma recursionLists_zero : RecursionLists 0 := by
  intro start finish q intervals _ _ hq hq' hnot
  simp only [pow_zero, Nat.div_one] at hq hq'
  refine absurd ?_ hnot
  intro c hc
  simp only [pow_zero, Nat.div_one] at hc
  exact ⟨(hq.trans hc.symm).le, (hc.trans hq'.symm).le⟩

include hi hle hfinish hsame in
/-- **The partition** calls back the maximal blocks of the parts of the interval in the
four children of a block that holds it. -/
theorem segmentBinaryPartition_lists
    (h : segmentBinaryPartition (2 * (i + 1)) start finish = .ok intervals) :
    Lists 4 (PartBlock i start finish) intervals := by
  refine segmentBinaryPartition_lists_succ ?_ hi hle hfinish hsame h
  clear h hsame hfinish hle
  induction i with
  | zero => exact recursionLists_zero
  | succ i ih =>
    intro start finish q intervals hle hfinish hq hq' hnot h
    refine (segmentBinaryPartition_lists_succ (ih (by omega)) (by omega) hle hfinish
      (hq.trans hq'.symm) h).congr fun j m => ?_
    exact maximal_iff_exists_child (by omega) hq hq' hnot

/-! ## The width of the shift -/

/-- The call has a result. -/
def Returns {β : Type} (m : Eval β) : Prop := ∃ b, m = .ok b

lemma segmentPart_returns_iff :
    Returns (segmentPart i start finish whole) ↔
      whole = true ∨ Returns (segmentBinaryPartition (2 * i) start finish) := by
  unfold segmentPart
  cases whole
  · simp
  · simpa using ⟨_, rfl⟩

include hi hle hfinish hsame in
/-- A call returns if the shift is not too wide where it is made, and the calls in it
return. -/
lemma segmentBinaryPartition_returns_iff :
    Returns (segmentBinaryPartition (2 * (i + 1)) start finish) ↔
      if start / 4 ^ i = finish / 4 ^ i then
        i < 16 ∧ Returns (segmentPart i start finish (finish - start + 1 = 4 ^ i))
      else
        Returns (segmentPart i start (blockRange i (start / 4 ^ i)).2
          (start = (blockRange i (start / 4 ^ i)).1)) ∧
        Returns (segmentPart i (blockRange i (finish / 4 ^ i)).1 finish
          (finish = (blockRange i (finish / 4 ^ i)).2)) := by
  rw [segmentBinaryPartition_succ hi hle hfinish hsame]
  split
  next =>
    by_cases h16 : i < 16
    · rw [intShift_of_lt h16]
      exact ⟨fun h => ⟨h16, h⟩, fun h => h.2⟩
    · -- the shift is undefined
      rw [intShift_of_le (not_lt.1 h16)]
      exact ⟨fun ⟨_, h⟩ => absurd h nofun, fun h => absurd h.1 h16⟩
  next =>
    constructor
    · rintro ⟨intervals, h⟩
      obtain ⟨left, hl, h⟩ := bind_eq_ok.1 h
      obtain ⟨right, hr, -⟩ := bind_eq_ok.1 h
      exact ⟨⟨left, hl⟩, right, hr⟩
    · rintro ⟨⟨left, hl⟩, right, hr⟩
      rw [hl, hr]
      exact ⟨_, rfl⟩

/-- Up to 32 bits there is no wide shift. -/
lemma segmentBinaryPartition_returns_of_le (hi : i ≤ 16) (hle : start ≤ finish)
    (hfinish : finish < 2 ^ 64) (hsame : start / 4 ^ i = finish / 4 ^ i) :
    Returns (segmentBinaryPartition (2 * i) start finish) := by
  induction i generalizing start finish with
  | zero => exact ⟨_, rfl⟩
  | succ i ih =>
    have hstart := (mem_iff (by omega)).1 (Eq.refl (start / 4 ^ i))
    have hend := (mem_iff (by omega)).1 (Eq.refl (finish / 4 ^ i))
    have hblock := block_le (i := i) (hle.trans_lt hfinish) (by omega)
    rw [succ_mul] at hblock
    rw [segmentBinaryPartition_returns_iff (by omega) hle hfinish hsame]
    split
    next h =>
      exact ⟨by omega, segmentPart_returns_iff.2 (.inr (ih (by omega) hle hfinish h))⟩
    next h =>
      refine ⟨segmentPart_returns_iff.2 (.inr ?_), segmentPart_returns_iff.2 (.inr ?_)⟩
      · exact ih (by omega) hstart.2 (show start / 4 ^ i * 4 ^ i + 4 ^ i - 1 < 2 ^ 64 by omega)
          (last_mem (by omega) _ _).symm
      · exact ih (by omega) hend.1 hfinish (first_mem (by omega) _ _)

lemma first_quarter (i q : ℕ) : (blockRange (i + 1) q).1 = (blockRange i (4 * q)).1 := by
  simp only [blockRange]
  ring

lemma last_quarter (i q : ℕ) : (blockRange (i + 1) q).2 = (blockRange i (4 * q + 3)).2 := by
  simp only [blockRange]
  congr 1
  ring

/-- The digits of a number below the level of a block it starts, and of one it ends. -/
lemma digit_of_first {e q : ℕ} (h : e < i) : q * 4 ^ i / 4 ^ e % 4 = 0 := by
  obtain ⟨k, rfl⟩ := Nat.exists_eq_add_of_lt h
  rw [show q * 4 ^ (e + k + 1) = 4 * (q * 4 ^ k) * 4 ^ e by ring,
    Nat.mul_div_cancel _ (by positivity), mul_mod_right]

lemma digit_of_last {e q : ℕ} (h : e < i) : (q * 4 ^ i + 4 ^ i - 1) / 4 ^ e % 4 = 3 := by
  obtain ⟨k, rfl⟩ := Nat.exists_eq_add_of_lt h
  have hpos : 0 < 4 ^ e := by positivity
  have hpos' : 0 < 4 ^ k := by positivity
  have hdiv : (q * 4 ^ (e + k + 1) + 4 ^ (e + k + 1) - 1) / 4 ^ e =
      4 * (q * 4 ^ k + 4 ^ k) - 1 := by
    rw [show q * 4 ^ (e + k + 1) + 4 ^ (e + k + 1) = 4 * (q * 4 ^ k + 4 ^ k) * 4 ^ e by ring]
    rw [mem_iff (by omega), Nat.sub_mul, one_mul]
    omega
  omega

include hi hle hfinish hsame in
/-- One level of a part at one end `n` of the interval: the two ends are in one quarter if
the digit of `n` there is `d`, and the wide shift is made where they are. -/
lemma end_returns_succ {n d : ℕ} (hquarter : start / 4 ^ i = finish / 4 ^ i ↔ n / 4 ^ i % 4 = d)
    (hparts : (Returns (segmentPart i start (blockRange i (start / 4 ^ i)).2
          (start = (blockRange i (start / 4 ^ i)).1)) ∧
        Returns (segmentPart i (blockRange i (finish / 4 ^ i)).1 finish
          (finish = (blockRange i (finish / 4 ^ i)).2))) ↔
      ∀ e, 16 ≤ e → e < i → n / 4 ^ e % 4 ≠ d) :
    Returns (segmentBinaryPartition (2 * (i + 1)) start finish) ↔
      ∀ e, 16 ≤ e → e < i + 1 → n / 4 ^ e % 4 ≠ d := by
  rw [segmentBinaryPartition_returns_iff hi hle hfinish hsame]
  split
  next heq =>
    have hdigit := hquarter.1 heq
    refine ⟨fun h e he hei => absurd h.1 (by omega), fun h => ?_⟩
    -- this call makes the shift, so that its level is below 16
    have h16 : i < 16 := by
      by_contra h16
      exact h i (not_lt.1 h16) i.lt_succ_self hdigit
    refine ⟨h16, segmentPart_returns_iff.2 (.inr ?_)⟩
    exact segmentBinaryPartition_returns_of_le h16.le hle hfinish heq
  next hne =>
    rw [hparts]
    refine ⟨fun h e he hei => ?_, fun h e he hei => h e he (by omega)⟩
    rcases Nat.lt_succ_iff_lt_or_eq.1 hei with hlt | rfl
    · exact h e he hlt
    · exact fun hdigit => hne (hquarter.2 hdigit)

/-- **The part at the start** is split without a wide shift exactly if no digit of the
start that is shifted so far is 3. -/
theorem left_returns_iff (hi : i ≤ 32) (hstart : start < 2 ^ 64) :
    Returns (segmentPart i start (blockRange i (start / 4 ^ i)).2
      (start = (blockRange i (start / 4 ^ i)).1)) ↔
      ∀ e, 16 ≤ e → e < i → start / 4 ^ e % 4 ≠ 3 := by
  induction i with
  | zero =>
    refine ⟨fun _ e _ he => absurd he (not_lt_zero e), fun _ => ?_⟩
    refine segmentPart_returns_iff.2 (.inl ?_)
    simp [blockRange]
  | succ i ih =>
    have hmem := (mem_iff (by omega)).1 (Eq.refl (start / 4 ^ (i + 1)))
    have hblock := block_le hstart hi
    rw [succ_mul] at hblock
    rw [segmentPart_returns_iff, decide_eq_true_iff]
    by_cases hfirst : start = (blockRange (i + 1) (start / 4 ^ (i + 1))).1
    · refine ⟨fun _ e _ he => ?_, fun _ => .inl hfirst⟩
      rw [hfirst]
      simp only [blockRange, digit_of_first he]
      omega
    rw [or_iff_right hfirst]
    -- the end of the block is in its last quarter, and ends it
    generalize hlast : (blockRange (i + 1) (start / 4 ^ (i + 1))).2 = last
    have hlast' : last = start / 4 ^ (i + 1) * 4 ^ (i + 1) + 4 ^ (i + 1) - 1 := hlast.symm
    have hsame : start / 4 ^ (i + 1) = last / 4 ^ (i + 1) := by
      rw [hlast', last_mem (by omega)]
    have hdigit : last / 4 ^ i % 4 = 3 := by rw [hlast', digit_of_last i.lt_succ_self]
    have hquarter : start / 4 ^ i = last / 4 ^ i ↔ start / 4 ^ i % 4 = 3 := by
      rw [div_parent, div_parent] at hsame
      omega
    have hends : last = (blockRange i (last / 4 ^ i)).2 := by
      have hq : last / 4 ^ i = 4 * (start / 4 ^ (i + 1)) + 3 := by
        rw [hsame, div_parent]
        omega
      rw [hq, ← last_quarter, hlast]
    refine end_returns_succ hi (by omega) (by omega) hsame hquarter ?_
    rw [and_iff_left (segmentPart_returns_iff.2 (.inl (decide_eq_true hends))), ih (by omega)]

/-- **The part at the finish** is split without a wide shift exactly if no digit of the
finish that is shifted so far is 0. -/
theorem right_returns_iff (hi : i ≤ 32) (hfinish : finish < 2 ^ 64) :
    Returns (segmentPart i (blockRange i (finish / 4 ^ i)).1 finish
      (finish = (blockRange i (finish / 4 ^ i)).2)) ↔
      ∀ e, 16 ≤ e → e < i → finish / 4 ^ e % 4 ≠ 0 := by
  induction i with
  | zero =>
    refine ⟨fun _ e _ he => absurd he (not_lt_zero e), fun _ => ?_⟩
    refine segmentPart_returns_iff.2 (.inl ?_)
    simp [blockRange]
  | succ i ih =>
    have hmem := (mem_iff (by omega)).1 (Eq.refl (finish / 4 ^ (i + 1)))
    rw [segmentPart_returns_iff, decide_eq_true_iff]
    by_cases hlast : finish = (blockRange (i + 1) (finish / 4 ^ (i + 1))).2
    · refine ⟨fun _ e _ he => ?_, fun _ => .inl hlast⟩
      rw [hlast]
      simp only [blockRange, digit_of_last he]
      omega
    rw [or_iff_right hlast]
    -- the start of the block is in its first quarter, and starts it
    generalize hfirst : (blockRange (i + 1) (finish / 4 ^ (i + 1))).1 = first
    have hfirst' : first = finish / 4 ^ (i + 1) * 4 ^ (i + 1) := hfirst.symm
    have hsame : first / 4 ^ (i + 1) = finish / 4 ^ (i + 1) := by
      rw [hfirst', first_mem (by omega)]
    have hdigit : first / 4 ^ i % 4 = 0 := by rw [hfirst', digit_of_first i.lt_succ_self]
    have hquarter : first / 4 ^ i = finish / 4 ^ i ↔ finish / 4 ^ i % 4 = 0 := by
      rw [div_parent, div_parent] at hsame
      omega
    have hstarts : first = (blockRange i (first / 4 ^ i)).1 := by
      have hq : first / 4 ^ i = 4 * (finish / 4 ^ (i + 1)) := by
        rw [← hsame, div_parent]
        omega
      rw [hq, ← first_quarter, hfirst]
    refine end_returns_succ hi (by omega) hfinish hsame hquarter ?_
    rw [and_iff_right (segmentPart_returns_iff.2 (.inl (decide_eq_true hstarts))), ih (by omega)]

include hi hle hfinish hsame in
/-- **A partition returns** exactly if its ends part where the shift is not too wide, or
part at once and have no digits in the way. -/
theorem segmentBinaryPartition_ok_iff :
    Returns (segmentBinaryPartition (2 * (i + 1)) start finish) ↔
      (16 ≤ i → start / 4 ^ i ≠ finish / 4 ^ i) ∧
        ∀ e, 16 ≤ e → e < i → start / 4 ^ e % 4 ≠ 3 ∧ finish / 4 ^ e % 4 ≠ 0 := by
  by_cases h16 : 16 ≤ i
  · rw [segmentBinaryPartition_returns_iff hi hle hfinish hsame]
    split
    next heq => exact ⟨fun h => absurd h.1 (by omega), fun h => absurd heq (h.1 h16)⟩
    next hne =>
      rw [left_returns_iff (by omega) (hle.trans_lt hfinish), right_returns_iff (by omega) hfinish]
      constructor
      · rintro ⟨hleft, hright⟩
        exact ⟨fun _ => hne, fun e he hei => ⟨hleft e he hei, hright e he hei⟩⟩
      · rintro ⟨-, h⟩
        exact ⟨fun e he hei => (h e he hei).1, fun e he hei => (h e he hei).2⟩
  · refine ⟨fun _ => ⟨fun h => absurd h h16, fun e he hei => by omega⟩, fun _ => ?_⟩
    exact segmentBinaryPartition_returns_of_le (by omega) hle hfinish hsame

/-! ## Intervals of codes -/

/-- The blocks an interval of codes is split into: with `i` the place of the leading digit
of its end, the maximal blocks of its parts at that place. -/
def HilbertBlock (first last j m : ℕ) : Prop :=
  ∃ i, (4 ^ i ≤ last ∧ last < 4 ^ (i + 1)) ∧ PartBlock i first last j m

/-- No shift by 32 or more: from the place 16 on, the leading digits of the ends differ,
and the digits below them are not 3 in the first and not 0 in the last code. -/
structure NoWideShift (first last : ℕ) : Prop where
  leading : ∀ e, 16 ≤ e → 4 ^ e ≤ last → last < 4 ^ (e + 1) → first / 4 ^ e ≠ last / 4 ^ e
  below : ∀ e, 16 ≤ e → 4 ^ (e + 1) ≤ last → first / 4 ^ e % 4 ≠ 3 ∧ last / 4 ^ e % 4 ≠ 0

lemma exists_leading {n : ℕ} (hn : n ≠ 0) : ∃ i, 4 ^ i ≤ n ∧ n < 4 ^ (i + 1) :=
  ⟨log 4 n, pow_log_le_self 4 hn, lt_pow_succ_log_self (by omega) n⟩

/-- The leading digit is at one place. -/
lemma leading_unique {n i' : ℕ} (hi : 4 ^ i ≤ n ∧ n < 4 ^ (i + 1))
    (hi' : 4 ^ i' ≤ n ∧ n < 4 ^ (i' + 1)) : i = i' := by
  have h1 := (Nat.pow_lt_pow_iff_right (show 1 < 4 by omega)).1 (hi.1.trans_lt hi'.2)
  have h2 := (Nat.pow_lt_pow_iff_right (show 1 < 4 by omega)).1 (hi'.1.trans_lt hi.2)
  omega

variable {first last : ℕ}

/-- The bits the partition starts from are the digits of the last code. -/
lemma current_bits_eq (hle : first ≤ last) (hlast : last < 2 ^ 64)
    (hi : 4 ^ i ≤ last ∧ last < 4 ^ (i + 1)) :
    64 - (getLeadingZeroBits (last ||| first) - getLeadingZeroBits (last ||| first) % 2) =
      2 * (i + 1) ∧ i + 1 ≤ 32 := by
  have hne : last ≠ 0 := fun h => by
    omega
  have hor : last ≤ last ||| first := left_le_or
  have hlog : (last ||| first).log2 = last.log2 := by
    refine (log2_eq_iff (by omega)).2 ⟨(log2_self_le hne).trans hor, ?_⟩
    exact or_lt_two_pow lt_log2_self (hle.trans_lt lt_log2_self)
  have hlt : last.log2 < 64 := (log2_lt hne).2 hlast
  -- the leading digit of `last` is at half of its leading bit
  have hhalf : last.log2 / 2 = i := by
    refine leading_unique ⟨?_, ?_⟩ hi
    · rw [← two_pow_double]
      exact (Nat.pow_le_pow_right two_pos (by omega)).trans (log2_self_le hne)
    · rw [← two_pow_double]
      exact lt_log2_self.trans_le (Nat.pow_le_pow_right two_pos (by omega))
  rw [getLeadingZeroBits, if_neg (by omega), hlog]
  omega

lemma same_block (hle : first ≤ last) (hlast : last < 4 ^ (i + 1)) :
    first / 4 ^ (i + 1) = last / 4 ^ (i + 1) := by
  rw [div_eq_of_lt (hle.trans_lt hlast), div_eq_of_lt hlast]

/-- The code zero alone is no interval to the partition. -/
lemma hilbertIntervalToHyperrectangles2D_zero :
    hilbertIntervalToHyperrectangles2D 0 0 = .ok [] := rfl

lemma hilbertIntervalToHyperrectangles2D_eq (hle : first ≤ last)
    (hlast : last < 2 ^ 64) (hi : 4 ^ i ≤ last ∧ last < 4 ^ (i + 1)) :
    hilbertIntervalToHyperrectangles2D first last =
      (segmentBinaryPartition (2 * (i + 1)) first last).map (map fun (a, b) =>
        createRangeFromCorners (hilbertDecode a).1 (hilbertDecode a).2 (hilbertDecode b).1
          (hilbertDecode b).2) := by
  unfold hilbertIntervalToHyperrectangles2D
  dsimp only
  rw [(current_bits_eq hle hlast hi).1]

/-- The recursion returns unless it shifts by the width of the type. -/
lemma hilbertIntervalToHyperrectangles2D_returns_iff (hle : first ≤ last)
    (hlast : last < 2 ^ 64) :
    Returns (hilbertIntervalToHyperrectangles2D first last) ↔ NoWideShift first last := by
  by_cases hzero : last = 0
  · obtain rfl : first = 0 := by omega
    subst hzero
    refine ⟨fun _ => ⟨fun e _ h => ?_, fun e _ h => ?_⟩, fun _ => ⟨_, rfl⟩⟩
    · exact absurd h (by simp)
    · exact absurd h (by simp)
  · -- the leading digit of the last code gives the level of the call
    obtain ⟨i, hi⟩ := exists_leading hzero
    have hreturns : Returns (hilbertIntervalToHyperrectangles2D first last) ↔
        Returns (segmentBinaryPartition (2 * (i + 1)) first last) := by
      rw [hilbertIntervalToHyperrectangles2D_eq hle hlast hi]
      refine ⟨fun ⟨_, h⟩ => ?_, fun ⟨_, h⟩ => ⟨_, bind_eq_ok.2 ⟨_, h, rfl⟩⟩⟩
      obtain ⟨intervals, hintervals, -⟩ := bind_eq_ok.1 h
      exact ⟨intervals, hintervals⟩
    rw [hreturns, segmentBinaryPartition_ok_iff (current_bits_eq hle hlast hi).2 hle hlast
      (same_block hle hi.2)]
    -- the levels below it are those whose power is not above the code
    have hbelow : ∀ e, 4 ^ (e + 1) ≤ last ↔ e < i := by
      intro e
      constructor
      · intro h
        have := (Nat.pow_lt_pow_iff_right (show 1 < 4 by omega)).1 (h.trans_lt hi.2)
        omega
      · intro h
        exact (Nat.pow_le_pow_right (by omega) h).trans hi.1
    constructor
    · rintro ⟨hleading, hdigits⟩
      refine ⟨fun e he h h' => ?_, fun e he h => hdigits e he ((hbelow e).1 h)⟩
      obtain rfl := leading_unique hi ⟨h, h'⟩
      exact hleading he
    · rintro ⟨hleading, hdigits⟩
      exact ⟨fun h16 => hleading i h16 hi.1 hi.2, fun e he h => hdigits e he ((hbelow e).2 h)⟩

/-- A block of the interval lies in it. -/
lemma HilbertBlock.inside {j m : ℕ} (h : HilbertBlock first last j m) :
    Inside 4 first last j m := by
  obtain ⟨i, -, q, -, hmax⟩ := h
  intro c hc
  obtain ⟨hl, hr⟩ := hmax.1 c hc
  exact ⟨(le_max_left _ _).trans hl, hr.trans (min_le_left _ _)⟩

/-- The blocks cover the interval, unless it is the code zero alone. -/
lemma exists_hilbertBlock {c : ℕ} (hne : last ≠ 0) (hl : first ≤ c) (hr : c ≤ last) :
    ∃ j, HilbertBlock first last j (c / 4 ^ j) := by
  obtain ⟨i, hi⟩ := exists_leading hne
  obtain ⟨hfirst, hlast⟩ := (mem_iff (by omega)).1 (Eq.refl (c / 4 ^ i))
  obtain ⟨j, hmax⟩ := exists_maximal (show 1 < 4 by omega) (max_le hl hfirst) (le_min hr hlast)
  exact ⟨j, i, hi, c / 4 ^ i, ⟨Nat.div_le_div_right hl, Nat.div_le_div_right hr⟩, hmax⟩

/-- **The Hilbert curve on an interval**: the squares are the images of its blocks. -/
theorem hilbertIntervalToHyperrectangles2D_unpacks {rects : List Rectangle}
    (hle : first ≤ last) (hlast : last < 2 ^ 64)
    (h : hilbertIntervalToHyperrectangles2D first last = .ok rects) :
    Unpacks hilbertDecode 4 (HilbertBlock first last) rects := by
  by_cases hzero : last = 0
  · -- the code zero has no leading digit, and there is no square for it
    obtain rfl : first = 0 := by omega
    subst hzero
    obtain rfl := Except.ok.inj (hilbertIntervalToHyperrectangles2D_zero.symm.trans h)
    refine ⟨fun rect hrect => absurd hrect (by simp), ?_⟩
    rintro j m ⟨i, ⟨hi, -⟩, -⟩
    exact absurd hi (by simp)
  · obtain ⟨i, hi⟩ := exists_leading hzero
    rw [hilbertIntervalToHyperrectangles2D_eq hle hlast hi] at h
    obtain ⟨intervals, hpartition, h⟩ := bind_eq_ok.1 h
    obtain rfl := Except.ok.inj h
    have hlists := (segmentBinaryPartition_lists (current_bits_eq hle hlast hi).2 hle hlast
      (same_block hle hi.2) hpartition).congr (W := HilbertBlock first last) fun j m =>
        ⟨fun ⟨i', hi', hpart⟩ => leading_unique hi hi' ▸ hpart, fun hpart => ⟨i, hi, hpart⟩⟩
    refine hlists.unpacks fun j m hblock => ?_
    have hin := ((inside_iff (by omega)).1 hblock.inside).2.trans_lt hlast
    dsimp only
    rw [createRangeFromCorners_block hin]
    exact image_square hin

end ClickHouse
