/-
The Morton curve in any number of dimensions (`src/Common/MortonUtils.h`).

The bits of a code go round the dimensions: bit `k` is bit `k / N` of the coordinate
`k % N`. With `places` bits there is a code for each point whose bits all have a place
(`Fits`): with `bits` for each coordinate the points with coordinates below `2 ^ bits`, and
with 64 every point that a 64-bit code can have.

A block of codes fixes the bits from some place on. In each dimension these are the bits
from some place on, so the block unpacks to a product of aligned blocks
(`mem_unpackedHyperrectangle_iff`). The rest is the partition of the codes: a point lies in
the rectangle of the one block that has its code.
-/
import ClickHouse.Common.MortonUtils

set_option autoImplicit false

namespace ClickHouse

open Lib Nat Bool

/-! ## The model -/

section Model

variable (N : ℕ)

/-- `unpacked`, for the block from `a` to `b`. -/
def unpackedHyperrectangle (a b : ℕ) : Fin N → ℕ × ℕ :=
  fun dim => (unpacked N dim a, unpacked N dim b)

/-- `mortonIntervalToHyperrectangles<N>`. -/
def mortonIntervalToHyperrectanglesND (first last : ℕ) : Eval (List (Fin N → ℕ × ℕ)) :=
  (intervalBinaryPartition 65 first last).map (List.map fun (a, b) => unpackedHyperrectangle N a b)

/-- One bit of a code. -/
def packBit [NeZero N] (point : Fin N → ℕ) (code result_bit_idx : ℕ) : ℕ :=
  code ||| ((point (Fin.ofNat N result_bit_idx) >>> (result_bit_idx / N)) &&& 1) <<< result_bit_idx

/-- The code of a point in `places` bits, packed as in `hyperrectangleToPossibleMortonIntervals`. -/
def mortonEncode [NeZero N] (places : ℕ) (point : Fin N → ℕ) : ℕ :=
  (List.range places).foldl (packBit N point) 0

end Model

variable {N places : ℕ}

/-- A point in a product of intervals. -/
def HyperrectangleMem (rect : Fin N → ℕ × ℕ) (point : Fin N → ℕ) : Prop :=
  ∀ dim, (rect dim).1 ≤ point dim ∧ point dim ≤ (rect dim).2

/-- Every bit of the point has its place in the code. -/
def Fits (places : ℕ) (point : Fin N → ℕ) : Prop :=
  ∀ dim i, (point dim).testBit i = true → i * N + dim < places

/-- With `bits` places for each coordinate these are the points with coordinates of `bits`
bits. -/
lemma fits_mul_iff {bits : ℕ} {point : Fin N → ℕ} :
    Fits (bits * N) point ↔ ∀ dim, point dim < 2 ^ bits := by
  -- the bit `i` of a coordinate has a place there exactly if `i` is below `bits`
  have hplace : ∀ (dim : Fin N) i, i * N + dim < bits * N ↔ i < bits := by
    intro dim i
    constructor
    · intro h
      exact lt_of_mul_lt_mul_right (lt_of_le_of_lt (le_add_right _ _) h) (zero_le N)
    · intro h
      have hmul : (i + 1) * N ≤ bits * N := mul_le_mul_right N h
      rw [succ_mul] at hmul
      omega
  constructor
  · intro h dim
    refine lt_pow_two_of_testBit _ fun i hi => ?_
    by_contra hbit
    exact absurd ((hplace dim i).1 (h dim i (by simpa using hbit))) (by omega)
  · intro h dim i hbit
    refine (hplace dim i).2 ?_
    by_contra hi
    rw [testBit_lt_two_pow ((h dim).trans_le (Nat.pow_le_pow_right two_pos (by omega)))] at hbit
    exact false_ne_true hbit

/-! ## Codes -/

section Code

variable [NeZero N]

variable (point : Fin N → ℕ)

lemma testBit_packBit (code result_bit_idx k : ℕ) :
    (packBit N point code result_bit_idx).testBit k = true ↔ code.testBit k = true ∨
      k = result_bit_idx ∧ (point (Fin.ofNat N k)).testBit (k / N) = true := by
  rw [packBit, testBit_or, testBit_shiftLeft, testBit_and, testBit_shiftRight]
  simp only [or_eq_true, and_eq_true, decide_eq_true_iff, testBit_one_eq_true_iff_self_eq_zero]
  refine or_congr_right ⟨?_, ?_⟩
  · rintro ⟨hle, hbit, hzero⟩
    obtain rfl : k = result_bit_idx := by omega
    exact ⟨rfl, by rwa [hzero, add_zero] at hbit⟩
  · rintro ⟨rfl, hbit⟩
    exact ⟨le_rfl, by rwa [Nat.sub_self, add_zero], Nat.sub_self _⟩

/-- The bits of a code. -/
lemma testBit_mortonEncode (k : ℕ) :
    (mortonEncode N places point).testBit k = true ↔
      k < places ∧ (point (Fin.ofNat N k)).testBit (k / N) = true := by
  have hloop : ∀ (l : List ℕ) (code : ℕ), (l.foldl (packBit N point) code).testBit k = true ↔
      code.testBit k = true ∨ k ∈ l ∧ (point (Fin.ofNat N k)).testBit (k / N) = true := by
    intro l
    induction l with
    | nil => simp
    | cons i l ih =>
      intro code
      rw [List.foldl_cons, ih, testBit_packBit, List.mem_cons]
      tauto
  rw [mortonEncode, hloop, zero_testBit, List.mem_range]
  simp

lemma mortonEncode_lt : mortonEncode N places point < 2 ^ places := by
  refine lt_pow_two_of_testBit _ fun k hk => ?_
  by_contra hbit
  exact absurd ((testBit_mortonEncode point k).1 (by simpa using hbit)).1 (by omega)

/-- The bit of a coordinate in the code. -/
lemma testBit_mortonEncode_place (dim : Fin N) (i : ℕ) :
    (mortonEncode N places point).testBit (i * N + dim) = true ↔
      i * N + dim < places ∧ (point dim).testBit i = true := by
  have hdim : Fin.ofNat N (i * N + dim) = dim := Fin.ext (by simp [mod_eq_of_lt dim.isLt])
  have hi : (i * N + dim) / N = i := by
    rw [mul_comm, mul_add_div (pos_of_neZero N), div_eq_of_lt dim.isLt, add_zero]
  rw [testBit_mortonEncode, hdim, hi]

end Code

/-! ## Blocks -/

/-- Two numbers have the same bits from `w` on. -/
lemma div_two_pow_eq_iff {w x y : ℕ} :
    x / 2 ^ w = y / 2 ^ w ↔ ∀ i, w ≤ i → x.testBit i = y.testBit i := by
  constructor
  · intro h i hi
    have hbit := congrArg (fun n => n.testBit (i - w)) h
    simpa only [testBit_div_two_pow, Nat.sub_add_cancel hi] using hbit
  · intro h
    refine eq_of_testBit_eq fun i => ?_
    rw [testBit_div_two_pow, testBit_div_two_pow]
    exact h _ (le_add_left w i)

/-- Between a number with the last `w` bits clear and the one with these bits set are the
numbers with the same other bits. -/
lemma between_iff {w a b x : ℕ} (ha : ∀ i < w, a.testBit i = false)
    (hb : ∀ i < w, b.testBit i = true) (hab : ∀ i, w ≤ i → b.testBit i = a.testBit i) :
    (a ≤ x ∧ x ≤ b) ↔ ∀ i, w ≤ i → x.testBit i = a.testBit i := by
  have hfirst : a = a / 2 ^ w * 2 ^ w := by
    refine eq_of_testBit_eq fun i => ?_
    rw [mul_comm, testBit_two_pow_mul, testBit_div_two_pow]
    by_cases hi : w ≤ i
    · simp [hi]
    · simp [hi, ha i (by omega)]
  have hlast : b = a / 2 ^ w * 2 ^ w + 2 ^ w - 1 := by
    rw [← or_mask]
    refine eq_of_testBit_eq fun i => ?_
    by_cases hi : w ≤ i
    · simp [hab i hi, hi]
    · simp [hb i (by omega), Nat.lt_of_not_le hi]
  rw [← div_two_pow_eq_iff, Block.mem_iff two_pos, ← hlast, ← hfirst]

/-- In a dimension the places below `j` are those of its last bits. -/
lemma exists_low_bits (dim : Fin N) (j : ℕ) : ∃ w, ∀ i, i < w ↔ i * N + dim < j := by
  have hdim := dim.isLt
  refine ⟨(j + (N - 1 - dim)) / N, fun i => ?_⟩
  rw [lt_div_iff_mul_lt (by omega)]
  omega

lemma testBit_last {j m k : ℕ} : (m * 2 ^ j + 2 ^ j - 1).testBit k =
    if j ≤ k then m.testBit (k - j) else true := by
  rw [Nat.add_sub_assoc Nat.one_le_two_pow, mul_comm,
    testBit_two_pow_mul_add _ (sub_lt (by positivity) one_pos), testBit_two_pow_sub_one]
  by_cases hk : j ≤ k
  · simp [hk]
  · simp [hk, Nat.lt_of_not_le hk]

lemma testBit_unpacked_of_lt {a : ℕ} (ha : a < 2 ^ 64) (dim : Fin N) (i : ℕ) :
    (unpacked N dim a).testBit i = a.testBit (i * N + dim) := by
  rw [Bool.eq_iff_iff, testBit_unpacked dim.isLt, and_iff_right_iff_imp]
  intro hbit
  by_contra h
  rw [testBit_lt_two_pow (ha.trans_le (Nat.pow_le_pow_right two_pos (not_lt.1 h)))] at hbit
  exact false_ne_true hbit

/-- A point of the rectangle of a block has the bits of the block from its level on. -/
lemma mem_unpackedHyperrectangle_iff_bits {j m : ℕ} (hlt : m * 2 ^ j + 2 ^ j - 1 < 2 ^ 64)
    (point : Fin N → ℕ) :
    HyperrectangleMem (unpackedHyperrectangle N (m * 2 ^ j) (m * 2 ^ j + 2 ^ j - 1)) point ↔
      ∀ (dim : Fin N) i, j ≤ i * N + dim → (point dim).testBit i = m.testBit (i * N + dim - j) := by
  refine forall_congr' fun dim => ?_
  obtain ⟨w, hw⟩ := exists_low_bits dim j
  have hpos : 0 < 2 ^ j := by positivity
  have hfirst := testBit_unpacked_of_lt (show m * 2 ^ j < 2 ^ 64 by omega) dim
  have hlast := testBit_unpacked_of_lt hlt dim
  rw [unpackedHyperrectangle, between_iff (w := w)]
  · refine forall_congr' fun i => ?_
    rw [← not_lt, hw, not_lt]
    refine forall_congr' fun hi => ?_
    rw [hfirst, testBit_mul_two_pow, decide_eq_true hi, Bool.true_and]
  · intro i hi
    rw [hfirst, testBit_mul_two_pow, decide_eq_false (not_le.2 ((hw i).1 hi)), Bool.false_and]
  · intro i hi
    rw [hlast, testBit_last, if_neg (not_le.2 ((hw i).1 hi))]
  · intro i hi
    have hi' : j ≤ i * N + dim := not_lt.1 fun h => not_lt.2 hi ((hw i).2 h)
    rw [hlast, hfirst, testBit_last, testBit_mul_two_pow, if_pos hi', decide_eq_true hi',
      Bool.true_and]

section Curve

variable [NeZero N]

/-- **A block unpacks to the points of its codes.** -/
theorem mem_unpackedHyperrectangle_iff {j m : ℕ} (hplaces : places ≤ 64)
    (hlt : m * 2 ^ j + 2 ^ j - 1 < 2 ^ places) (point : Fin N → ℕ) :
    HyperrectangleMem (unpackedHyperrectangle N (m * 2 ^ j) (m * 2 ^ j + 2 ^ j - 1)) point ↔
      Fits places point ∧ mortonEncode N places point / 2 ^ j = m := by
  rw [mem_unpackedHyperrectangle_iff_bits (hlt.trans_le (Nat.pow_le_pow_right two_pos hplaces))]
  -- beyond the places of a code the block has no bits
  have hbeyond : ∀ k, j ≤ k → m.testBit (k - j) = true → k < places := by
    intro k hk hbit
    have hlast : (m * 2 ^ j + 2 ^ j - 1).testBit k = true := by rw [testBit_last, if_pos hk, hbit]
    by_contra h
    rw [testBit_lt_two_pow (hlt.trans_le (Nat.pow_le_pow_right two_pos (not_lt.1 h)))] at hlast
    exact false_ne_true hlast
  have hj : j ≤ places := by
    exact (Nat.pow_le_pow_iff_right one_lt_two).1 (by omega)
  constructor
  · intro h
    refine ⟨fun dim i hbit => ?_, eq_of_testBit_eq fun k => ?_⟩
    · by_cases hi : j ≤ i * N + dim
      · exact hbeyond _ hi ((h dim i hi).symm.trans hbit)
      · omega
    have hplace : (k + j) / N * N + (Fin.ofNat N (k + j) : ℕ) = k + j := div_add_mod' (k + j) N
    have hbit := h (Fin.ofNat N (k + j)) ((k + j) / N) (by omega)
    rw [hplace, Nat.add_sub_cancel] at hbit
    rw [testBit_div_two_pow, Bool.eq_iff_iff, testBit_mortonEncode, hbit, and_iff_right_iff_imp]
    intro hm
    exact hbeyond (k + j) (by omega) (by rwa [Nat.add_sub_cancel])
  · rintro ⟨hfits, rfl⟩ dim i hi
    rw [testBit_div_two_pow, Nat.sub_add_cancel hi, Bool.eq_iff_iff, testBit_mortonEncode_place]
    exact ⟨fun hbit => ⟨hfits dim i hbit, hbit⟩, And.right⟩

variable {intervals : List (ℕ × ℕ)}

lemma mem_unpackedHyperrectangle_iff_code {first last a b : ℕ}
    (hpartition : Block.Partition 2 first last intervals) (hab : (a, b) ∈ intervals)
    (hplaces : places ≤ 64) (hlast : last < 2 ^ places) (point : Fin N → ℕ) :
    HyperrectangleMem (unpackedHyperrectangle N a b) point ↔ Fits places point ∧
      a ≤ mortonEncode N places point ∧ mortonEncode N places point ≤ b := by
  obtain ⟨j, m, rfl, rfl⟩ := hpartition.aligned a b hab
  have hpos : 0 < 2 ^ j := by positivity
  have hend := ((hpartition.covers _).2 ⟨_, _, hab, by omega, le_rfl⟩).2
  rw [mem_unpackedHyperrectangle_iff hplaces (hend.trans_lt hlast), Block.mem_iff two_pos]

/-- The points of the rectangles, for codes in any number of places that has the interval. -/
lemma exists_mem_rects_iff {first last : ℕ} (hpartition : Block.Partition 2 first last intervals)
    (hplaces : places ≤ 64) (hlast : last < 2 ^ places) (point : Fin N → ℕ) :
    (∃ rect ∈ intervals.map fun (a, b) => unpackedHyperrectangle N a b,
      HyperrectangleMem rect point) ↔ Fits places point ∧
        first ≤ mortonEncode N places point ∧ mortonEncode N places point ≤ last := by
  rw [hpartition.covers]
  constructor
  · rintro ⟨rect, hrect, hmem⟩
    obtain ⟨⟨a, b⟩, hab, rfl⟩ := List.mem_map.1 hrect
    obtain ⟨hfits, hcode⟩ :=
      (mem_unpackedHyperrectangle_iff_code hpartition hab hplaces hlast point).1 hmem
    exact ⟨hfits, a, b, hab, hcode⟩
  · rintro ⟨hfits, a, b, hab, hcode⟩
    exact ⟨_, List.mem_map_of_mem hab,
      (mem_unpackedHyperrectangle_iff_code hpartition hab hplaces hlast point).2 ⟨hfits, hcode⟩⟩

/-- **The Morton curve on an interval of codes.** The intervals are aligned blocks that
partition it, and the rectangles have the points with a code in the interval, each of them
in one rectangle: the points of all 64-bit codes, and those with coordinates of `bits` bits
if the interval is one of their codes. -/
theorem mortonIntervalToHyperrectangles_exact {first last : ℕ} (hle : first ≤ last)
    (hlast : last < 2 ^ 64) :
    ∃ intervals rects, intervalBinaryPartition 65 first last = .ok intervals ∧
      Block.Partition 2 first last intervals ∧
      mortonIntervalToHyperrectanglesND N first last = .ok rects ∧
      (∀ point, (∃ rect ∈ rects, HyperrectangleMem rect point) ↔
        Fits 64 point ∧ first ≤ mortonEncode N 64 point ∧ mortonEncode N 64 point ≤ last) ∧
      (∀ bits, bits * N ≤ 64 → last < 2 ^ (bits * N) → ∀ point,
        (∃ rect ∈ rects, HyperrectangleMem rect point) ↔ (∀ dim, point dim < 2 ^ bits) ∧
          first ≤ mortonEncode N (bits * N) point ∧ mortonEncode N (bits * N) point ≤ last) ∧
      rects.Pairwise fun rect rect' =>
        ∀ point, ¬ (HyperrectangleMem rect point ∧ HyperrectangleMem rect' point) := by
  have hsame : first / 2 ^ 64 = last / 2 ^ 64 := by
    rw [div_eq_of_lt (hle.trans_lt hlast), div_eq_of_lt hlast]
  obtain ⟨intervals, hintervals, hlists, hordered⟩ :=
    intervalBinaryPartition_lists (show 64 < 65 by omega) hle hlast hsame
  have hpartition := hlists.partition one_lt_two hordered
  refine ⟨intervals, _, hintervals, hpartition,
    by rw [mortonIntervalToHyperrectanglesND, hintervals]; rfl,
    exists_mem_rects_iff hpartition le_rfl hlast, fun bits hbits hlast' point => ?_, ?_⟩
  · rw [exists_mem_rects_iff hpartition hbits hlast', fits_mul_iff]
  -- blocks in order have no code in common
  refine List.pairwise_map.2 (hordered.imp_of_mem ?_)
  rintro ⟨a, b⟩ ⟨a', b'⟩ hab hab' hlt point ⟨hmem, hmem'⟩
  have hcode := (mem_unpackedHyperrectangle_iff_code hpartition hab le_rfl hlast point).1 hmem
  have hcode' := (mem_unpackedHyperrectangle_iff_code hpartition hab' le_rfl hlast point).1 hmem'
  omega

end Curve

/-- The last point of the plane is in a rectangle of the full range of codes. -/
theorem mortonIntervalToHyperrectangles_exact_at_full_range :
    ∃ rects, mortonIntervalToHyperrectanglesND 2 0 (2 ^ 64 - 1) = .ok rects ∧
      ∃ rect ∈ rects, HyperrectangleMem rect ![2 ^ 32 - 1, 2 ^ 32 - 1] := by
  obtain ⟨-, rects, -, -, hrects, -, hbits, -⟩ :=
    mortonIntervalToHyperrectangles_exact (N := 2) (show 0 ≤ 2 ^ 64 - 1 by decide) (by decide)
  refine ⟨rects, hrects, (hbits 32 (by decide) (by decide) _).2 ⟨by decide, zero_le _, ?_⟩⟩
  exact le_pred_of_lt (mortonEncode_lt _)

end ClickHouse
