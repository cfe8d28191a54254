/-
`hilbertDecode` in two dimensions (`src/Functions/hilbertDecode2DLUT.h`): a code is read
in chunks of two, four or six bits, and a table gives half as many bits of each coordinate
and the orientation of the curve in what is left.

`point` is the curve: one base-4 digit of the code at a time, by the table for one
digit. The table for a chunk of digits is as many steps of it (`getPointAndUpdateState_eq`),
so the function is `point` of as many digits as one likes, at every width (`decode_eq`): a
leading zero turns the curve over, and the orientation to start from is chosen to undo
that. What index analysis needs of the curve is `image_square`, that an aligned block of
codes fills a square, and where in the square the ends of the block are.
-/
import ClickHouse.Lib.Blocks

set_option autoImplicit false

namespace ClickHouse

open Lib Nat
open Prod (ext mk)

/-! ## The function -/

/-- `getLeadingZeroBits` of a `UInt64`. -/
def getLeadingZeroBits (x : ℕ) : ℕ := if x = 0 then 64 else 63 - x.log2

namespace Hilbert

/-- `HilbertDecodeLookupTable<1>`, indexed by `SSHH`, with entries `SSXY`. -/
def lookupTable1 : List ℕ :=
  [4, 1, 3, 10, 0, 6, 7, 13, 15, 9, 8, 2, 11, 14, 12, 5]

/-- `HilbertDecodeLookupTable<3>`, indexed by `SSHHHHHH`, with entries `SSXXXYYY`. -/
def lookupTable3 : List ℕ :=
  [64, 1, 9, 136, 16, 88, 89, 209, 18, 90, 91, 211, 139, 202, 194, 67,
    4, 76, 77, 197, 70, 7, 15, 142, 86, 23, 31, 158, 221, 149, 148, 28,
    36, 108, 109, 229, 102, 39, 47, 174, 118, 55, 63, 190, 253, 181, 180, 60,
    187, 250, 242, 115, 235, 163, 162, 42, 233, 161, 160, 40, 112, 49, 57, 184,
    0, 72, 73, 193, 66, 3, 11, 138, 82, 19, 27, 154, 217, 145, 144, 24,
    96, 33, 41, 168, 48, 120, 121, 241, 50, 122, 123, 243, 171, 234, 226, 99,
    100, 37, 45, 172, 52, 124, 125, 245, 54, 126, 127, 247, 175, 238, 230, 103,
    223, 151, 150, 30, 157, 220, 212, 85, 141, 204, 196, 69, 6, 78, 79, 199,
    255, 183, 182, 62, 189, 252, 244, 117, 173, 236, 228, 101, 38, 110, 111, 231,
    159, 222, 214, 87, 207, 135, 134, 14, 205, 133, 132, 12, 84, 21, 29, 156,
    155, 218, 210, 83, 203, 131, 130, 10, 201, 129, 128, 8, 80, 17, 25, 152,
    32, 104, 105, 225, 98, 35, 43, 170, 114, 51, 59, 186, 249, 177, 176, 56,
    191, 254, 246, 119, 239, 167, 166, 46, 237, 165, 164, 44, 116, 53, 61, 188,
    251, 179, 178, 58, 185, 248, 240, 113, 169, 232, 224, 97, 34, 106, 107, 227,
    219, 147, 146, 26, 153, 216, 208, 81, 137, 200, 192, 65, 2, 74, 75, 195,
    68, 5, 13, 140, 20, 92, 93, 213, 22, 94, 95, 215, 143, 206, 198, 71]

end Hilbert

namespace HilbertWidth

/-- `HilbertDecodeLookupTable<bit_step>`. -/
def decodeLookupTable : ℕ → List ℕ
  | 1 => Hilbert.lookupTable1
  | 2 =>
    [0, 20, 21, 49, 18, 3, 7, 38, 26, 11, 15, 46, 61, 41, 40, 12, 16, 1, 5, 36, 8, 28, 29, 57,
      10, 30, 31, 59, 39, 54, 50, 19, 47, 62, 58, 27, 55, 35, 34, 6, 53, 33, 32, 4, 24, 9, 13, 44,
      63, 43, 42, 14, 45, 60, 56, 25, 37, 52, 48, 17, 2, 22, 23, 51]
  | 3 => Hilbert.lookupTable3
  | _ => []

section Decode

variable (bit_step : ℕ)

/-- The bits of one coordinate in a step. -/
def STEP_MASK : ℕ := (1 <<< bit_step) - 1

/-- The number of bits of the code in a step, two for each bit of a coordinate. -/
def HILBERT_SHIFT : ℕ := bit_step <<< 1

def HILBERT_MASK : ℕ := (1 <<< HILBERT_SHIFT bit_step) - 1

/-- An entry of the table has the next state above the bits of the point. -/
def STATE_MASK : ℕ := 0b11 <<< HILBERT_SHIFT bit_step

def Y_MASK : ℕ := STEP_MASK bit_step

def X_MASK : ℕ := STEP_MASK bit_step <<< bit_step

def LEFT_STATE : ℕ := 0b01 <<< HILBERT_SHIFT bit_step

/-- The state at the start depends on the parity of the step. -/
def DEFAULT_STATE : ℕ := if bit_step % 2 = 0 then LEFT_STATE bit_step else 0

/-- `getCodeAndUpdateState` of the decoder. -/
def getPointAndUpdateState (hilbert_bits state : ℕ) : (ℕ × ℕ) × ℕ :=
  let table_index := state ||| hilbert_bits
  let table_code := (decodeLookupTable bit_step).getD table_index 0
  (((table_code &&& X_MASK bit_step) >>> bit_step, table_code &&& Y_MASK bit_step),
    table_code &&& STATE_MASK bit_step)

/-- `getInitialShiftAndState`, for chunks of `shift` bits: the number of chunks to read, and
the state to start from. -/
def getInitialShiftAndState (shift used_bits : ℕ) : ℕ × ℕ :=
  let iterations := used_bits / shift
  let initial_shift := iterations * shift
  let iterations := if initial_shift < used_bits then iterations + 1 else iterations
  (iterations, if iterations % 2 = 0 then LEFT_STATE bit_step else DEFAULT_STATE bit_step)

/-- The loop over the chunks; `current_shift` is counted by the chunks left. -/
def decodeLoop (hilbert_code : ℕ) : ℕ → ℕ → ℕ × ℕ → ℕ × ℕ
  | 0, _, xy => xy
  | left + 1, state, (x, y) =>
    let current_shift := left * HILBERT_SHIFT bit_step
    let hilbert_bits := (hilbert_code >>> current_shift) &&& HILBERT_MASK bit_step
    let ((x_bits, y_bits), state) := getPointAndUpdateState bit_step hilbert_bits state
    decodeLoop hilbert_code left state
      (x ||| x_bits <<< (current_shift >>> 1), y ||| y_bits <<< (current_shift >>> 1))

/-- `FunctionHilbertDecode2DWIthLookupTableImpl<bit_step>::decode`. -/
def decode (hilbert_code : ℕ) : ℕ × ℕ :=
  let used_bits := 64 - getLeadingZeroBits hilbert_code
  let (iterations, state) := getInitialShiftAndState bit_step (HILBERT_SHIFT bit_step) used_bits
  decodeLoop bit_step hilbert_code iterations state (0, 0)

end Decode

end HilbertWidth

/-- `hilbertDecode` reads three bits of each coordinate at a time. -/
def hilbertDecode (hilbert_code : ℕ) : ℕ × ℕ := HilbertWidth.decode 3 hilbert_code

namespace Hilbert

/-! ## The curve, digit by digit -/

/-- An orientation of the curve: left, up, right or down. -/
abbrev Orientation : Type := Fin 4

/-- The digit of `t` at the place `n`. -/
def digit (n t : ℕ) : Fin 4 := Fin.ofNat 4 (t / 4 ^ n)

variable (s : Orientation)

/-- The entry of the one-bit table for a state and a digit. -/
def tableEntry (d : Fin 4) : ℕ := lookupTable1.getD (4 * s.val + d.val) 0

/-- The orientation in the quadrant `d`. -/
def next (d : Fin 4) : Orientation := Fin.ofNat 4 (tableEntry s d / 4)

def xBit (d : Fin 4) : ℕ := tableEntry s d / 2 % 2

def yBit (d : Fin 4) : ℕ := tableEntry s d % 2

/-- The point of the last `n` digits of `t`. -/
def point : Orientation → ℕ → ℕ → ℕ × ℕ
  | _, 0, _ => (0, 0)
  | s, n + 1, t =>
    let rest := point (next s (digit n t)) n t
    (xBit s (digit n t) * 2 ^ n + rest.1, yBit s (digit n t) * 2 ^ n + rest.2)

/-- The orientation after the last `n` digits of `t`. -/
def after : Orientation → ℕ → ℕ → Orientation
  | s, 0, _ => s
  | s, n + 1, t => after (next s (digit n t)) n t

lemma digit_add (n p t : ℕ) : digit (p + n) t = digit p (t / 4 ^ n) := by
  rw [digit, digit, Nat.div_div_eq_div_mul, ← pow_add, add_comm]

/-- **Digits in two parts**: the point of the first ones, and that of the others in the
orientation they leave. -/
theorem point_add (p n t : ℕ) :
    point s (p + n) t =
      ((point s p (t / 4 ^ n)).1 * 2 ^ n + (point (after s p (t / 4 ^ n)) n t).1,
        (point s p (t / 4 ^ n)).2 * 2 ^ n + (point (after s p (t / 4 ^ n)) n t).2) := by
  induction p generalizing s with
  | zero => simp [point, after]
  | succ p ih =>
    rw [add_right_comm, point, digit_add, ih]
    simp only [point, after, mk.injEq]
    constructor <;> ring

/-- Only the last digits matter. -/
lemma point_congr {n t t' : ℕ} (h : ∀ i < n, digit i t = digit i t') :
    point s n t = point s n t' := by
  induction n generalizing s with
  | zero => rfl
  | succ n ih =>
    rw [point, point, h n n.lt_succ_self, ih _ fun i hi => h i (by omega)]

lemma after_congr {n t t' : ℕ} (h : ∀ i < n, digit i t = digit i t') :
    after s n t = after s n t' := by
  induction n generalizing s with
  | zero => rfl
  | succ n ih =>
    rw [after, after, h n n.lt_succ_self, ih _ fun i hi => h i (by omega)]

lemma digit_mod {i n : ℕ} (t : ℕ) (h : i < n) : digit i (t % 4 ^ n) = digit i t := by
  obtain ⟨k, rfl⟩ := Nat.exists_eq_add_of_lt h
  apply Fin.ext
  simp only [digit, Fin.val_ofNat]
  rw [show i + k + 1 = i + (k + 1) by omega, pow_add, mod_mul_right_div_self, pow_succ']
  exact mod_mul_right_mod _ _ _

variable (n t : ℕ)

lemma point_mod : point s n (t % 4 ^ n) = point s n t := point_congr s fun _ hi => digit_mod t hi

lemma after_mod : after s n (t % 4 ^ n) = after s n t := after_congr s fun _ hi => digit_mod t hi

lemma point_lt : (point s n t).1 < 2 ^ n ∧ (point s n t).2 < 2 ^ n := by
  induction n generalizing s with
  | zero => simp [point]
  | succ n ih =>
    obtain ⟨hx, hy⟩ := ih (next s (digit n t))
    have hxbit : xBit s (digit n t) < 2 := mod_lt _ two_pos
    have hybit : yBit s (digit n t) < 2 := mod_lt _ two_pos
    rw [point, pow_succ']
    constructor <;> dsimp only <;> nlinarith

end Hilbert

/-! ## The tables -/

namespace HilbertWidth

open Hilbert

/-- The widths there are tables for. -/
structure Supported (bit_step : ℕ) : Prop where
  pos : 0 < bit_step
  le : bit_step ≤ 3

variable {bit_step : ℕ}

lemma Supported.cases (h : Supported bit_step) : bit_step = 1 ∨ bit_step = 2 ∨ bit_step = 3 := by
  obtain ⟨hpos, hle⟩ := h
  omega

/-- **The table for a chunk** is as many steps of the table for one digit. -/
theorem getPointAndUpdateState_eq (h : Supported bit_step) (s : Orientation) {t : ℕ}
    (ht : t < 4 ^ bit_step) :
    getPointAndUpdateState bit_step t (4 ^ bit_step * s.val) =
      (point s bit_step t, 4 ^ bit_step * (after s bit_step t).val) := by
  have htable : ∀ k ∈ [1, 2, 3], ∀ s : Orientation, ∀ t : Fin (4 ^ k),
      getPointAndUpdateState k t (4 ^ k * s.val) = (point s k t, 4 ^ k * (after s k t).val) := by
    decide +kernel
  exact htable bit_step (by simpa using h.cases) s ⟨t, ht⟩

lemma four_pow (n : ℕ) : 4 ^ n = 2 ^ (n <<< 1) := by
  rw [shiftLeft_eq, pow_one, mul_comm, pow_mul]
  norm_num

/-- A chunk of bits goes behind those that are there. -/
lemma or_shiftLeft {k bits : ℕ} (hbits : bits < 2 ^ k) (X n : ℕ) :
    X * 2 ^ (k + n) ||| bits <<< n = (X * 2 ^ k + bits) * 2 ^ n := by
  have hlt : bits * 2 ^ n < 2 ^ (k + n) := by
    rw [pow_add]
    exact mul_lt_mul_of_pos_right hbits (by positivity)
  rw [← shiftLeft_eq X, shiftLeft_eq bits, ← shiftLeft_add_eq_or_of_lt hlt, shiftLeft_eq]
  ring

/-- The loop reads the chunks that are left as digits. -/
lemma decodeLoop_eq (h : Supported bit_step) (code left : ℕ) (s : Orientation) (X Y : ℕ) :
    decodeLoop bit_step code left (4 ^ bit_step * s.val)
        (X * 2 ^ (bit_step * left), Y * 2 ^ (bit_step * left)) =
      (X * 2 ^ (bit_step * left) + (point s (bit_step * left) code).1,
        Y * 2 ^ (bit_step * left) + (point s (bit_step * left) code).2) := by
  induction left generalizing s X Y with
  | zero => rfl
  | succ left ih =>
    -- the chunk that this iteration reads
    have hbits : (code >>> (left * HILBERT_SHIFT bit_step)) &&& HILBERT_MASK bit_step =
        code / 4 ^ (bit_step * left) % 4 ^ bit_step := by
      rw [shiftRight_eq_div_pow, four_pow bit_step, four_pow (bit_step * left), HILBERT_MASK,
        HILBERT_SHIFT, one_shiftLeft, and_two_pow_sub_one_eq_mod]
      congr 3
      rw [shiftLeft_eq, shiftLeft_eq]
      ring
    have hhalf : (left * HILBERT_SHIFT bit_step) >>> 1 = bit_step * left := by
      rw [HILBERT_SHIFT, shiftLeft_eq, shiftRight_eq_div_pow, pow_one, ← mul_assoc,
        Nat.mul_div_cancel _ two_pos, mul_comm]
    have hstate := getPointAndUpdateState_eq h s
      (mod_lt (code / 4 ^ (bit_step * left)) (show 0 < 4 ^ bit_step by positivity))
    have hlt := point_lt s bit_step (code / 4 ^ (bit_step * left))
    rw [decodeLoop]
    simp only [hbits, hhalf, hstate, point_mod, after_mod,
      show bit_step * (left + 1) = bit_step + bit_step * left by ring]
    rw [or_shiftLeft hlt.1, or_shiftLeft hlt.2, ih, point_add]
    simp only [pow_add, mk.injEq]
    constructor <;> ring

end HilbertWidth

namespace Hilbert

/-! ## Leading zeros -/

/-- The orientation to read `n` digits from. -/
def start (n : ℕ) : Orientation := if n % 2 = 0 then 1 else 0

/-- A leading zero stays in the corner of the curve and turns it over. -/
lemma leading_zero (n : ℕ) :
    next (start (n + 1)) 0 = start n ∧ xBit (start (n + 1)) 0 = 0 ∧ yBit (start (n + 1)) 0 = 0 := by
  rcases mod_two_eq_zero_or_one n with h | h
  · have h' : (n + 1) % 2 = 1 := by omega
    rw [start, start, h, h']
    decide
  · have h' : (n + 1) % 2 = 0 := by omega
    rw [start, start, h, h']
    decide

lemma point_start_of_le {n n' t : ℕ} (ht : t < 4 ^ n) (hle : n ≤ n') :
    point (start n') n' t = point (start n) n t := by
  induction n', hle using le_induction with
  | base => rfl
  | succ n' hle ih =>
    have hdigit : digit n' t = 0 := by
      rw [digit, div_eq_of_lt (ht.trans_le (Nat.pow_le_pow_right (by omega) hle))]
      rfl
    obtain ⟨hnext, hx, hy⟩ := leading_zero n'
    rw [point, hdigit, hnext, hx, hy, ih]
    simp

/-- Any number of digits that has the code gives the same point. -/
lemma point_start_eq {n m t : ℕ} (ht : t < 4 ^ n) (ht' : t < 4 ^ m) :
    point (start n) n t = point (start m) m t := by
  rcases le_total n m with hle | hle
  · exact (point_start_of_le ht hle).symm
  · exact point_start_of_le ht' hle

end Hilbert

open Hilbert

lemma lt_two_pow_used_bits {x : ℕ} (hx : x < 2 ^ 64) : x < 2 ^ (64 - getLeadingZeroBits x) := by
  unfold getLeadingZeroBits
  split
  next h => simp [h]
  next h =>
    have hlog : x.log2 < 64 := (log2_lt h).2 hx
    rw [show 64 - (63 - x.log2) = x.log2 + 1 by omega]
    exact lt_log2_self

namespace HilbertWidth

variable {bit_step : ℕ}

/-- The chunks that are read have all bits, and the state is the orientation to read their
digits from. -/
lemma getInitialShiftAndState_eq (h : Supported bit_step) {shift : ℕ} (hshift : 0 < shift)
    (used_bits : ℕ) :
    ∃ iterations, getInitialShiftAndState bit_step shift used_bits =
        (iterations, 4 ^ bit_step * (start (bit_step * iterations)).val) ∧
      used_bits ≤ shift * iterations := by
  -- with an even number of bits in a chunk the start does not depend on the number of chunks
  have hstate : ∀ k, (if k % 2 = 0 then LEFT_STATE bit_step else DEFAULT_STATE bit_step) =
      4 ^ bit_step * (start (bit_step * k)).val := by
    intro k
    rw [start]
    rcases h.cases with rfl | rfl | rfl
    · rw [one_mul]
      split <;> rfl
    · rw [if_pos (mul_mod_right 2 k)]
      split <;> rfl
    · rw [show 3 * k % 2 = k % 2 by omega]
      split <;> rfl
  refine ⟨_, ext rfl (hstate _), ?_⟩
  have hdiv := div_add_mod used_bits shift
  have hmod := mod_lt used_bits hshift
  rw [mul_comm] at hdiv
  simp only [getInitialShiftAndState]
  split
  next => rw [mul_comm, succ_mul]; omega
  next => rw [mul_comm]; omega

/-- **Decoding follows the curve**, at every width, with 33 digits for every code. -/
theorem decode_eq (h : Supported bit_step) {code : ℕ} (hcode : code < 2 ^ 64) :
    decode bit_step code = point (start 33) 33 code := by
  have hlt := lt_two_pow_used_bits hcode
  obtain ⟨iterations, hinit, hle⟩ := getInitialShiftAndState_eq h
    (show 0 < HILBERT_SHIFT bit_step by rw [HILBERT_SHIFT, shiftLeft_eq]; have := h.pos; omega)
    (64 - getLeadingZeroBits code)
  have hdigits : code < 4 ^ (bit_step * iterations) := by
    refine hlt.trans_le ?_
    rw [show (4 : ℕ) = 2 ^ 2 by norm_num, ← pow_mul]
    refine Nat.pow_le_pow_right two_pos (hle.trans_eq ?_)
    rw [HILBERT_SHIFT, shiftLeft_eq]
    ring
  have hloop := decodeLoop_eq h code iterations (start (bit_step * iterations)) 0 0
  rw [decode, hinit, point_start_eq (n := 33) (hcode.trans (by norm_num)) hdigits]
  simpa using hloop

end HilbertWidth

/-- **`hilbertDecode` follows the curve.** -/
theorem hilbertDecode_eq {code : ℕ} (hcode : code < 2 ^ 64) :
    hilbertDecode code = point (start 33) 33 code :=
  HilbertWidth.decode_eq ⟨by omega, le_rfl⟩ hcode

/-! ## Blocks of codes -/

namespace Hilbert

variable (s : Orientation)

lemma exists_quadrant (a b : Fin 2) : ∃ d, xBit s d = a.val ∧ yBit s d = b.val := by
  revert s a b
  decide

lemma digit_append (d : Fin 4) {n t : ℕ} (ht : t < 4 ^ n) : digit n (d.val * 4 ^ n + t) = d := by
  apply Fin.ext
  rw [digit, Fin.val_ofNat, add_comm, add_mul_div_right _ _ (by positivity),
    div_eq_of_lt ht, zero_add]
  exact mod_eq_of_lt d.isLt

/-- A digit in front of the others. -/
lemma point_append (d : Fin 4) {n t : ℕ} (ht : t < 4 ^ n) :
    point s (n + 1) (d.val * 4 ^ n + t) =
      (xBit s d * 2 ^ n + (point (next s d) n t).1,
        yBit s d * 2 ^ n + (point (next s d) n t).2) := by
  rw [point, digit_append d ht, ← point_mod, mul_add_mod', mod_eq_of_lt ht]

/-- **The curve fills the square.** -/
theorem exists_point {n x y : ℕ} (hx : x < 2 ^ n) (hy : y < 2 ^ n) :
    ∃ t < 4 ^ n, point s n t = (x, y) := by
  induction n generalizing s x y with
  | zero =>
    rw [pow_zero, lt_one_iff] at hx hy
    exact ⟨0, by norm_num, by rw [hx, hy]; rfl⟩
  | succ n ih =>
    have hpos : 0 < 2 ^ n := by positivity
    -- the quadrant of the point, and the point in the quadrant
    obtain ⟨d, hdx, hdy⟩ := exists_quadrant s ⟨x / 2 ^ n, Nat.div_lt_of_lt_mul hx⟩
      ⟨y / 2 ^ n, Nat.div_lt_of_lt_mul hy⟩
    obtain ⟨t, ht, hpoint⟩ := ih (next s d) (mod_lt x hpos) (mod_lt y hpos)
    refine ⟨d.val * 4 ^ n + t, ?_, ?_⟩
    · rw [pow_succ]
      have hd := d.isLt
      nlinarith
    · rw [point_append s d ht, hpoint, hdx, hdy]
      exact ext (div_add_mod' x _) (div_add_mod' y _)

lemma quadrant_first :
    ((next s 0).val < 2 ↔ s.val < 2) ∧ xBit s 0 = (if s.val < 2 then 0 else 1) ∧
      yBit s 0 = (if s.val < 2 then 0 else 1) := by
  revert s
  decide

/-- Where a square starts: at the origin or in the corner across. -/
lemma point_first (n : ℕ) :
    point s n 0 = if s.val < 2 then (0, 0) else (2 ^ n - 1, 2 ^ n - 1) := by
  induction n generalizing s with
  | zero => simp [point]
  | succ n ih =>
    obtain ⟨hnext, hx, hy⟩ := quadrant_first s
    have hdigit : digit n 0 = 0 := by rw [digit, Nat.zero_div]; rfl
    rw [point, hdigit, ih, hx, hy, pow_succ]
    simp only [hnext]
    split
    · simp
    · simp only [mk.injEq]
      omega

lemma quadrant_last :
    (next s 3).val % 2 = s.val % 2 ∧ xBit s 3 = (if s.val % 2 = 0 then 1 else 0) ∧
      yBit s 3 = (if s.val % 2 = 0 then 0 else 1) := by
  revert s
  decide

/-- Where a square ends: in the corner next to its start, in `x` or in `y`. -/
lemma point_last (n : ℕ) :
    point s n (4 ^ n - 1) = if s.val % 2 = 0 then (2 ^ n - 1, 0) else (0, 2 ^ n - 1) := by
  induction n generalizing s with
  | zero => simp [point]
  | succ n ih =>
    obtain ⟨hnext, hx, hy⟩ := quadrant_last s
    have hpos : 0 < 4 ^ n := by positivity
    have hcode : 4 ^ (n + 1) - 1 = (3 : Fin 4).val * 4 ^ n + (4 ^ n - 1) := by
      omega
    rw [hcode, point_append s 3 (by omega), ih, hnext, hx, hy, pow_succ]
    split
    · simp only [mk.injEq]
      omega
    · simp only [mk.injEq]
      omega

end Hilbert

/-- The place of a block among the blocks of its size, and the curve's orientation in it. -/
def blockCorner (j m : ℕ) : ℕ × ℕ := point (start 33) (33 - j) m

/-- The orientation of the curve in the block `m` of `4 ^ j` codes. -/
def blockOrientation (j m : ℕ) : Orientation := after (start 33) (33 - j) m

lemma hilbertDecode_block {j m c : ℕ} (hj : j ≤ 33) (hc : c / 4 ^ j = m) (hlt : c < 2 ^ 64) :
    hilbertDecode c = ((blockCorner j m).1 * 2 ^ j + (point (blockOrientation j m) j c).1,
      (blockCorner j m).2 * 2 ^ j + (point (blockOrientation j m) j c).2) := by
  have hsplit := point_add (start 33) (33 - j) j c
  rw [Nat.sub_add_cancel hj, hc] at hsplit
  rw [hilbertDecode_eq hlt, hsplit]
  rfl

/-- The square of a block. -/
def square (j m : ℕ) : Block.Rectangle :=
  (((blockCorner j m).1 * 2 ^ j, (blockCorner j m).1 * 2 ^ j + 2 ^ j - 1),
    ((blockCorner j m).2 * 2 ^ j, (blockCorner j m).2 * 2 ^ j + 2 ^ j - 1))

section

variable {j m : ℕ} (hlt : m * 4 ^ j + 4 ^ j - 1 < 2 ^ 64)
include hlt

lemma level_le : j ≤ 33 := by
  by_contra h
  have hpow : 4 ^ 33 ≤ 4 ^ j := Nat.pow_le_pow_right (by omega) (by omega)
  omega

/-- **A block of codes fills its square.** -/
theorem image_square : Block.Image hilbertDecode 4 j m (square j m) := by
  have hj := level_le hlt
  have hpos : 0 < 2 ^ j := by positivity
  rintro ⟨x, y⟩
  simp only [square, Block.Rectangle.Mem]
  constructor
  · -- each point of the square has a code in the block
    rintro ⟨⟨hx, hx'⟩, hy, hy'⟩
    obtain ⟨t, ht, hpoint⟩ := exists_point (blockOrientation j m) (n := j)
      (show x - (blockCorner j m).1 * 2 ^ j < 2 ^ j by omega)
      (show y - (blockCorner j m).2 * 2 ^ j < 2 ^ j by omega)
    have hblock : (m * 4 ^ j + t) / 4 ^ j = m := (Block.mem_iff (by omega)).2 (by omega)
    refine ⟨m * 4 ^ j + t, hblock, ?_⟩
    rw [hilbertDecode_block hj hblock (by omega), ← point_mod, mul_add_mod',
      mod_eq_of_lt ht, hpoint]
    exact ext (Nat.add_sub_cancel' hx) (Nat.add_sub_cancel' hy)
  · -- and each code of the block has its point there
    rintro ⟨c, hc, hpoint⟩
    have hle := ((Block.mem_iff (by omega)).1 hc).2
    have hin := point_lt (blockOrientation j m) j c
    rw [hilbertDecode_block hj hc (by omega)] at hpoint
    obtain ⟨rfl, rfl⟩ := mk.inj hpoint
    omega

/-- The code a block starts with is in a corner of the square. -/
lemma hilbertDecode_first :
    hilbertDecode (m * 4 ^ j) = if (blockOrientation j m).val < 2
      then ((square j m).1.1, (square j m).2.1) else ((square j m).1.2, (square j m).2.2) := by
  have hpos : 0 < 4 ^ j := by positivity
  have hpos' : 0 < 2 ^ j := by positivity
  rw [hilbertDecode_block (level_le hlt) (Block.first_mem (by omega) j m) (by omega), ← point_mod,
    mul_mod_left, point_first]
  split
  · rfl
  · simp only [square, mk.injEq]
    omega

/-- The code a block ends with is in a corner next to it. -/
lemma hilbertDecode_last :
    hilbertDecode (m * 4 ^ j + 4 ^ j - 1) = if (blockOrientation j m).val % 2 = 0
      then ((square j m).1.2, (square j m).2.1) else ((square j m).1.1, (square j m).2.2) := by
  have hpos : 0 < 4 ^ j := by positivity
  have hpos' : 0 < 2 ^ j := by positivity
  rw [hilbertDecode_block (level_le hlt) (Block.last_mem (by omega) j m) hlt, ← point_mod,
    Nat.add_sub_assoc hpos, mul_add_mod', mod_eq_of_lt (by omega), point_last]
  split <;> simp only [square, mk.injEq] <;> omega

end

end ClickHouse
