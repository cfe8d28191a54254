/-
The Morton curve on intervals (`src/Common/MortonUtils.h`): an interval of codes is
split into blocks that fix a bit prefix, and each block is unpacked to a rectangle.

Numbers are `ℕ` below `2 ^ 64`; no operation here can leave that range. A callback is
the list of what it is called with.

`intervalBinaryPartition` calls back exactly the maximal aligned blocks of the interval
(`intervalBinaryPartition_lists`): the bit mask of one call is the level at which the
ends part, which is one step down in `Lib.Block`. Unpacking the two ends of a block
gives the corners of its image (`image_unpacked`), by an induction that adds the last
bit of the code, which moves to the other coordinate all that were there.
-/
import ClickHouse.Core.Types
import ClickHouse.Lib.Blocks

set_option autoImplicit false

namespace ClickHouse

open Lib List Block Nat

/-! ## The partition -/

/-- `impl::toMask`: set all bits below the most significant one. -/
def toMask (n : ℕ) : ℕ :=
  let n := n ||| n >>> 1
  let n := n ||| n >>> 2
  let n := n ||| n >>> 4
  let n := n ||| n >>> 8
  let n := n ||| n >>> 16
  n ||| n >>> 32

/-- `intervalBinaryPartition`. The first argument bounds the depth of the recursion; one
that does not end is undefined behaviour. -/
def intervalBinaryPartition : ℕ → ℕ → ℕ → Eval (List (ℕ × ℕ))
  | 0, _, _ => .error .undefined_behaviour
  | depth + 1, first, last =>
    let diff := first ^^^ last
    let mask := toMask diff >>> 1
    if first &&& mask = 0 ∧ last &&& mask = mask then .ok [(first, last)]
    else
      let split := first ||| mask
      (intervalBinaryPartition depth first split).bind fun intervals =>
        if split < last then
          (intervalBinaryPartition depth (split + 1) last).map (intervals ++ ·)
        else .ok intervals

/-- One bit of the code, put into the coordinate `dim` if it belongs there. -/
def unpackBit (N dim a acc bit_idx : ℕ) : ℕ :=
  let source_bit := 63 - bit_idx
  if source_bit % N = dim then acc ||| ((a >>> source_bit) &&& 1) <<< (source_bit / N) else acc

/-- One coordinate of an unpacked code. -/
def unpacked (N dim a : ℕ) : ℕ := (List.range 64).foldl (unpackBit N dim a) 0

/-- `mortonIntervalToHyperrectangles<2>`. -/
def mortonIntervalToHyperrectangles (first last : ℕ) : Eval (List Block.Rectangle) :=
  (intervalBinaryPartition 65 first last).map (List.map fun (a, b) =>
    ((unpacked 2 0 a, unpacked 2 0 b), (unpacked 2 1 a, unpacked 2 1 b)))

/-! ## The mask -/

/-- One line of `toMask` doubles how far the bits spread. -/
lemma testBit_spread {n n' s : ℕ}
    (h : ∀ i, n'.testBit i = true ↔ ∃ d < s, n.testBit (i + d) = true) (i : ℕ) :
    (n' ||| n' >>> s).testBit i = true ↔ ∃ d < s + s, n.testBit (i + d) = true := by
  rw [testBit_or, testBit_shiftRight, Bool.or_eq_true, h, h]
  constructor
  · rintro (⟨d, hd, hbit⟩ | ⟨d, hd, hbit⟩)
    · exact ⟨d, by omega, hbit⟩
    · exact ⟨s + d, by omega, by rwa [← add_assoc, add_comm i s]⟩
  · rintro ⟨d, hd, hbit⟩
    by_cases hds : d < s
    · exact .inl ⟨d, hds, hbit⟩
    · refine .inr ⟨d - s, by omega, ?_⟩
      rwa [show s + i + (d - s) = i + d by omega]

lemma testBit_toMask (n i : ℕ) :
    (toMask n).testBit i = true ↔ ∃ d < 64, n.testBit (i + d) = true := by
  have h : ∀ i, n.testBit i = true ↔ ∃ d < 1, n.testBit (i + d) = true := by simp
  exact testBit_spread (testBit_spread (testBit_spread (testBit_spread (testBit_spread
    (testBit_spread h))))) i

/-- The mask of two different ends is that of the bits below the first one they differ in. -/
lemma toMask_shiftRight {n : ℕ} (hn : n ≠ 0) (hlt : n < 2 ^ 64) :
    toMask n >>> 1 = 2 ^ n.log2 - 1 := by
  have hlog : n.log2 < 64 := (log2_lt hn).2 hlt
  refine eq_of_testBit_eq fun i => ?_
  rw [testBit_two_pow_sub_one, testBit_shiftRight, Bool.eq_iff_iff, testBit_toMask,
    decide_eq_true_iff]
  constructor
  · rintro ⟨d, -, hbit⟩
    have hle := (le_log2 hn).2 (ge_two_pow_of_testBit hbit)
    omega
  · intro hi
    refine ⟨n.log2 - (1 + i), by omega, ?_⟩
    rw [Nat.add_sub_cancel' (by omega)]
    exact testBit_log2 hn

/-- **The level at which two ends part**, and the mask there. -/
theorem exists_split_level {first last : ℕ} (hlt : first < last) (hlast : last < 2 ^ 64) :
    ∃ h, toMask (first ^^^ last) >>> 1 = 2 ^ h - 1 ∧
      first / 2 ^ (h + 1) = last / 2 ^ (h + 1) ∧ last / 2 ^ h = first / 2 ^ h + 1 := by
  have hne : first ^^^ last ≠ 0 := fun h => hlt.ne (Nat.xor_eq_zero_iff.1 h)
  -- above the highest bit in which the ends differ they agree
  have hparent : first / 2 ^ ((first ^^^ last).log2 + 1) =
      last / 2 ^ ((first ^^^ last).log2 + 1) := by
    rw [← shiftRight_eq_div_pow, ← shiftRight_eq_div_pow, ← xor_eq_zero_iff,
      ← shiftRight_xor_distrib, shiftRight_eq_div_pow]
    exact div_eq_of_lt lt_log2_self
  refine ⟨(first ^^^ last).log2,
    toMask_shiftRight hne (xor_lt_two_pow (hlt.trans hlast) hlast), hparent, ?_⟩
  -- and at that bit they do not
  have hchild : first / 2 ^ (first ^^^ last).log2 ≠ last / 2 ^ (first ^^^ last).log2 := by
    rw [← shiftRight_eq_div_pow, ← shiftRight_eq_div_pow, ne_eq, ← xor_eq_zero_iff,
      ← shiftRight_xor_distrib, shiftRight_eq_div_pow]
    exact (div_pos (log2_self_le hne) (by positivity)).ne'
  have hle : first / 2 ^ (first ^^^ last).log2 ≤ last / 2 ^ (first ^^^ last).log2 :=
    Nat.div_le_div_right hlt.le
  rw [div_parent, div_parent] at hparent
  omega

lemma or_mask (n h : ℕ) : n ||| (2 ^ h - 1) = n / 2 ^ h * 2 ^ h + 2 ^ h - 1 := by
  rw [Nat.add_sub_assoc Nat.one_le_two_pow, mul_comm]
  refine eq_of_testBit_eq fun i => ?_
  rw [testBit_two_pow_mul_add _ (sub_lt (by positivity) one_pos), testBit_or,
    testBit_two_pow_sub_one]
  by_cases hi : i < h
  · simp [hi]
  · rw [if_neg hi, testBit_div_two_pow, Nat.sub_add_cancel (by omega)]
    simp [hi]

/-! ## The blocks -/

section

variable {first last h q : ℕ} (hparent : first / 2 ^ (h + 1) = last / 2 ^ (h + 1))
  (hfirst : first / 2 ^ h = q) (hlast : last / 2 ^ h = q + 1)
include hparent hfirst hlast

/-- The two parts of an interval whose ends part at the level `h`. -/
lemma maximal_iff_halves {j m : ℕ} (hnot : ¬ Inside 2 first last (h + 1) (last / 2 ^ (h + 1))) :
    Maximal 2 first last j m ↔
      Maximal 2 first (q * 2 ^ h + 2 ^ h - 1) j m ∨
        Maximal 2 ((q + 1) * 2 ^ h) last j m := by
  have hf := (mem_iff two_pos).1 hfirst
  have hl := (mem_iff two_pos).1 hlast
  have hq : (q + 1) * 2 ^ h = q * 2 ^ h + 2 ^ h := by ring
  have hleft : max first (q * 2 ^ h) = first := max_eq_left hf.1
  have hleft' : min last (q * 2 ^ h + 2 ^ h - 1) = q * 2 ^ h + 2 ^ h - 1 := min_eq_right (by omega)
  have hright : max first ((q + 1) * 2 ^ h) = (q + 1) * 2 ^ h := max_eq_right (by omega)
  have hright' : min last ((q + 1) * 2 ^ h + 2 ^ h - 1) = last := min_eq_left hl.2
  rw [maximal_iff_exists_child one_lt_two hparent rfl hnot, hfirst, hlast]
  constructor
  · rintro ⟨q', ⟨hge, hle⟩, h⟩
    obtain rfl | rfl : q' = q ∨ q' = q + 1 := by omega
    · exact .inl (by rwa [hleft, hleft'] at h)
    · exact .inr (by rwa [hright, hright'] at h)
  · rintro (h | h)
    · exact ⟨q, ⟨le_rfl, q.le_succ⟩, by rwa [hleft, hleft']⟩
    · exact ⟨q + 1, ⟨q.le_succ, le_rfl⟩, by rwa [hright, hright']⟩

/-- The test of the source: the interval is the whole block at the level `h + 1`. -/
lemma inside_iff_mod :
    Inside 2 first last (h + 1) (last / 2 ^ (h + 1)) ↔
      first % 2 ^ h = 0 ∧ last % 2 ^ h = 2 ^ h - 1 := by
  have hf := div_add_mod' first (2 ^ h)
  have hl := div_add_mod' last (2 ^ h)
  have hpow : 2 ^ (h + 1) = 2 * 2 ^ h := pow_succ' 2 h
  rw [div_parent, div_parent, hfirst, hlast] at hparent
  -- `q` is the left half of its parent
  obtain ⟨p, rfl⟩ : ∃ p, q = 2 * p := ⟨q / 2, by omega⟩
  have hp : last / 2 ^ (h + 1) = p := by rw [div_parent, hlast]; omega
  rw [inside_iff two_pos, hp, hpow]
  rw [hfirst] at hf
  rw [hlast] at hl
  have hmul : p * (2 * 2 ^ h) = 2 * p * 2 ^ h := by ring
  have hmul' : (2 * p + 1) * 2 ^ h = 2 * p * 2 ^ h + 2 ^ h := by ring
  constructor
  · rintro ⟨h1, h2⟩
    exact ⟨by omega, by omega⟩
  · rintro ⟨h1, h2⟩
    exact ⟨by omega, by omega⟩

end

/-- **The partition** calls back the maximal blocks of the interval, in their order. The
induction is on the depth, and `k` is a level at which the ends are still in one block. -/
theorem intervalBinaryPartition_lists {depth k first last : ℕ} (hk : k < depth)
    (hle : first ≤ last) (hlast : last < 2 ^ 64) (hsame : first / 2 ^ k = last / 2 ^ k) :
    ∃ intervals, intervalBinaryPartition depth first last = .ok intervals ∧
      Lists 2 (Maximal 2 first last) intervals ∧
      intervals.Pairwise fun x y => x.2 < y.1 := by
  induction depth generalizing k first last with
  | zero => exact absurd hk (not_lt_zero k)
  | succ depth ih =>
    rw [intervalBinaryPartition]
    rcases hle.lt_or_eq with hlt | rfl
    · -- the highest bit in which the ends differ splits the interval
      obtain ⟨h, hmask, hparent, hchild⟩ := exists_split_level hlt hlast
      have hhk : h < k := by
        by_contra hkh
        have := eq_of_le (not_lt.1 hkh) hsame
        omega
      simp only [hmask, and_two_pow_sub_one_eq_mod, or_mask]
      -- a whole block is not split
      by_cases hin : Block.Inside 2 first last (h + 1) (last / 2 ^ (h + 1))
      · rw [if_pos ((inside_iff_mod hparent rfl hchild).1 hin)]
        exact ⟨_, rfl, lists_of_inside one_lt_two hparent rfl hin, pairwise_singleton _ _⟩
      rw [if_neg (hin ∘ (inside_iff_mod hparent rfl hchild).2)]
      generalize hq : first / 2 ^ h = q at hchild ⊢
      have hsplit := last_mem two_pos h q
      have hright : q * 2 ^ h + 2 ^ h - 1 + 1 = (q + 1) * 2 ^ h := by
        have hpos : 0 < 2 ^ h := by positivity
        rw [Nat.sub_add_cancel (by omega)]
        ring
      have hqlast := ((mem_iff two_pos).1 hchild).1
      have hqfirst := ((mem_iff two_pos).1 hq).2
      -- the two halves, each in one block of the level below
      obtain ⟨left, hleft, hlists, hordered⟩ := ih (k := h) (by omega) hqfirst (by omega)
        (hq.trans hsplit.symm)
      obtain ⟨right, hright', hlists', hordered'⟩ := ih (k := h)
        (by omega) hqlast hlast (by rw [first_mem two_pos, hchild])
      refine ⟨left ++ right, ?_, ?_, ?_⟩
      · rw [hleft, Except.bind, if_pos (by omega), hright, hright']
        rfl
      · exact (hlists.append hlists').congr fun j m => maximal_iff_halves hparent hq hchild hin
      · refine pairwise_append.2 ⟨hordered, hordered', fun x hx y hy => ?_⟩
        have hxle := (hlists.bounds two_pos hx).2
        have hyge := (hlists'.bounds two_pos hy).1
        omega
    · -- a single code
      rw [Nat.xor_self, if_pos (by simp [toMask])]
      refine ⟨_, rfl, lists_of_inside (k := 0) one_lt_two rfl rfl fun c hc => ?_,
        pairwise_singleton _ _⟩
      simp only [pow_zero, Nat.div_one] at hc
      exact ⟨hc.ge, hc.le⟩

/-! ## Unpacking -/

lemma testBit_unpackBit {N dim : ℕ} (hdim : dim < N) (a acc bit_idx i : ℕ) :
    (unpackBit N dim a acc bit_idx).testBit i = true ↔
      acc.testBit i = true ∨ 63 - bit_idx = i * N + dim ∧ a.testBit (63 - bit_idx) = true := by
  unfold unpackBit
  generalize 63 - bit_idx = b
  have hsplit : b = i * N + dim ↔ b / N = i ∧ b % N = dim := by
    rw [Nat.div_mod_unique (zero_lt_of_lt hdim), add_comm, mul_comm i]
    exact ⟨fun h => ⟨h.symm, hdim⟩, fun h => h.1.symm⟩
  dsimp only
  split
  next hmod =>
    rw [testBit_or, testBit_shiftLeft, testBit_and, testBit_shiftRight, hsplit]
    simp only [Bool.or_eq_true, Bool.and_eq_true, decide_eq_true_iff, hmod, and_true,
      testBit_one_eq_true_iff_self_eq_zero]
    refine or_congr_right ⟨?_, ?_⟩
    · rintro ⟨hle, hbit, hzero⟩
      rw [hzero, add_zero] at hbit
      exact ⟨by omega, hbit⟩
    · rintro ⟨rfl, hbit⟩
      exact ⟨le_rfl, by rwa [Nat.sub_self, add_zero], Nat.sub_self _⟩
  next hmod =>
    tauto

/-- The bits of a coordinate are those of the code at the places of its dimension. -/
lemma testBit_unpacked {N dim : ℕ} (hdim : dim < N) (a i : ℕ) :
    (unpacked N dim a).testBit i = true ↔ i * N + dim < 64 ∧ a.testBit (i * N + dim) = true := by
  -- each bit is set by the one iteration for its place
  have hloop : ∀ (l : List ℕ) (acc : ℕ), (l.foldl (unpackBit N dim a) acc).testBit i = true ↔
      acc.testBit i = true ∨
        ∃ bit_idx ∈ l, 63 - bit_idx = i * N + dim ∧ a.testBit (63 - bit_idx) = true := by
    intro l
    induction l with
    | nil => simp
    | cons bit_idx l ih =>
      intro acc
      rw [foldl_cons, ih, testBit_unpackBit hdim]
      simp only [mem_cons, exists_eq_or_imp, or_assoc]
  rw [unpacked, hloop, zero_testBit]
  constructor
  · rintro (h | ⟨bit_idx, -, hplace, hbit⟩)
    · exact absurd h Bool.false_ne_true
    · exact ⟨by omega, hplace ▸ hbit⟩
  · rintro ⟨hlt, hbit⟩
    refine .inr ⟨63 - (i * N + dim), mem_range.2 (by omega), by omega, ?_⟩
    rwa [show 63 - (63 - (i * N + dim)) = i * N + dim by omega]

/-- The point of a code on the Morton curve. -/
def mortonDecode (code : ℕ) : ℕ × ℕ := (unpacked 2 0 code, unpacked 2 1 code)

/-- The last bit of a code is the last bit of `x`; the other bits change places. -/
lemma mortonDecode_append {q b : ℕ} (hb : b < 2) (hlt : 2 * q + b < 2 ^ 64) :
    mortonDecode (2 * q + b) = (2 * (mortonDecode q).2 + b, (mortonDecode q).1) := by
  have hplace : ∀ k, (2 * q + b).testBit (k + 1) = q.testBit k := by
    intro k
    rw [testBit_succ]
    congr 1
    omega
  -- the code has 64 bits, so that the last place of `q` is empty
  have htop : q.testBit 63 = false := testBit_lt_two_pow (by omega)
  refine Prod.ext ?_ ?_ <;> refine eq_of_testBit_eq fun i => Bool.eq_iff_iff.2 ?_
  · dsimp only [mortonDecode]
    rw [testBit_unpacked two_pos]
    cases i with
    | zero => simp [testBit_zero]
    | succ i =>
      have hdiv : (2 * unpacked 2 1 q + b) / 2 = unpacked 2 1 q := by omega
      rw [testBit_succ, hdiv, testBit_unpacked one_lt_two,
        show (i + 1) * 2 + 0 = i * 2 + 1 + 1 by ring, hplace]
      refine and_congr_left fun hbit => ?_
      have hne : i * 2 + 1 ≠ 63 := fun h => by simp [h, htop] at hbit
      omega
  · dsimp only [mortonDecode]
    rw [testBit_unpacked one_lt_two, testBit_unpacked two_pos, hplace, add_zero]
    exact and_congr_left fun _ => by omega

/-- **A block unpacks to its image**: the ends of the block are the corners of a
rectangle that holds the points of its codes and no others. -/
theorem image_unpacked {j m : ℕ} (hlt : m * 2 ^ j + 2 ^ j - 1 < 2 ^ 64) :
    Image mortonDecode 2 j m
      ((unpacked 2 0 (m * 2 ^ j), unpacked 2 0 (m * 2 ^ j + 2 ^ j - 1)),
        (unpacked 2 1 (m * 2 ^ j), unpacked 2 1 (m * 2 ^ j + 2 ^ j - 1))) := by
  induction j with
  | zero =>
    rintro ⟨x, y⟩
    simp only [pow_zero, mul_one, Nat.div_one, Block.Rectangle.Mem,
      exists_eq_left, mortonDecode, Prod.mk.injEq]
    constructor
    · rintro ⟨⟨h1, h2⟩, h3, h4⟩
      exact ⟨le_antisymm h1 h2, le_antisymm h3 h4⟩
    · rintro ⟨rfl, rfl⟩
      exact ⟨⟨le_rfl, le_rfl⟩, le_rfl, le_rfl⟩
  | succ j ih =>
    -- the block of twice the numbers, with either last bit
    have hpos : 0 < 2 ^ j := by positivity
    have hfirst : m * 2 ^ (j + 1) = 2 * (m * 2 ^ j) + 0 := by ring
    have hlast : m * 2 ^ (j + 1) + 2 ^ (j + 1) - 1 = 2 * (m * 2 ^ j + 2 ^ j - 1) + 1 := by
      omega
    rw [hlast] at hlt
    have hdecode := mortonDecode_append one_lt_two hlt
    have hdecode' := mortonDecode_append (q := m * 2 ^ j) two_pos (by omega)
    simp only [mortonDecode, Prod.mk.injEq] at hdecode hdecode'
    rw [hlast, hfirst, hdecode.1, hdecode.2, hdecode'.1, hdecode'.2]
    rintro ⟨x, y⟩
    have hstep := ih (by omega) (y, x / 2)
    simp only [Block.Rectangle.Mem] at hstep ⊢
    constructor
    · intro h
      obtain ⟨q, hq, hpoint⟩ := hstep.1 (by omega)
      have hqlt := ((mem_iff two_pos).1 hq).2
      refine ⟨2 * q + x % 2, ?_, ?_⟩
      · rw [pow_succ', ← Nat.div_div_eq_div_mul, show (2 * q + x % 2) / 2 = q by omega, hq]
      · rw [mortonDecode_append (mod_lt x two_pos) (by omega), hpoint]
        exact Prod.ext (div_add_mod x 2) rfl
    · rintro ⟨c, hc, hpoint⟩
      rw [pow_succ', ← Nat.div_div_eq_div_mul] at hc
      have hclt := ((mem_iff two_pos).1 hc).2
      have hbit := mod_lt c two_pos
      rw [← div_add_mod c 2, mortonDecode_append hbit (by omega)] at hpoint
      obtain ⟨hx, hy⟩ := Prod.mk.inj hpoint
      have := hstep.2 ⟨c / 2, hc, Prod.ext hy (by dsimp only; omega)⟩
      omega

/-- **The Morton curve on an interval**: the rectangles are the images of the maximal
blocks. -/
theorem mortonIntervalToHyperrectangles_unpacks {first last : ℕ} (hle : first ≤ last)
    (hlast : last < 2 ^ 64) :
    ∃ rects, mortonIntervalToHyperrectangles first last = .ok rects ∧
      Unpacks mortonDecode 2 (Maximal 2 first last) rects := by
  have hsame : first / 2 ^ 64 = last / 2 ^ 64 := by
    rw [div_eq_of_lt (hle.trans_lt hlast), div_eq_of_lt hlast]
  obtain ⟨intervals, hintervals, hlists, -⟩ :=
    intervalBinaryPartition_lists (show 64 < 65 by omega) hle hlast hsame
  refine ⟨_, by rw [mortonIntervalToHyperrectangles, hintervals]; rfl, hlists.unpacks ?_⟩
  intro j m hmax
  exact image_unpacked ((((inside_iff two_pos).1 hmax.1).2).trans_lt hlast)

end ClickHouse
