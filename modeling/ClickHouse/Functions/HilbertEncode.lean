/-
`hilbertEncode` in two dimensions (`src/Functions/hilbertEncode2DLUT.h`), at every width of
its chunks, and that it is the inverse of `hilbertDecode`.

`code` is the curve read the other way: one bit of each coordinate at a time, to one digit.
It is the inverse of `point` for any orientation and any number of digits (`point_code`,
`code_point`), and the function is `code` of as many digits as one likes (`encode_eq`), as
decoding is `point`. So the widths of the two directions need not be the same, and neither
do the numbers of digits they see in a code and in its point.
-/
import ClickHouse.Functions.HilbertDecode

set_option autoImplicit false

namespace ClickHouse

open Hilbert Nat

/-! ## The function -/

namespace HilbertWidth

/-- `HilbertEncodeLookupTable<bit_step>`, indexed by state, `x` and `y`. -/
def encodeLookupTable : ℕ → List ℕ
  | 1 =>
    [4, 1, 11, 2, 0, 15, 5, 6, 10, 9, 3, 12, 14, 7, 13, 8]
  | 2 =>
    [0, 51, 20, 5, 17, 18, 39, 6, 46, 45, 24, 9, 15, 60, 43, 10, 16, 1, 62, 31, 35, 2, 61, 44,
      4, 55, 8, 59, 21, 22, 25, 26, 42, 41, 38, 37, 11, 56, 7, 52, 28, 13, 50, 19, 47, 14, 49, 32,
      58, 27, 12, 63, 57, 40, 29, 30, 54, 23, 34, 33, 53, 36, 3, 48]
  | 3 =>
    [64, 1, 206, 79, 16, 211, 84, 21, 131, 2, 205, 140, 81, 82, 151, 22, 4,
      199, 8, 203, 158, 157, 88, 25, 69, 70, 73, 74, 31, 220, 155, 26, 186,
      185, 182, 181, 32, 227, 100, 37, 59, 248, 55, 244, 97, 98, 167, 38, 124,
      61, 242, 115, 174, 173, 104, 41, 191, 62, 241, 176, 47, 236, 171, 42, 0,
      195, 68, 5, 250, 123, 60, 255, 65, 66, 135, 6, 249, 184, 125, 126, 142,
      141, 72, 9, 246, 119, 178, 177, 15, 204, 139, 10, 245, 180, 51, 240, 80,
      17, 222, 95, 96, 33, 238, 111, 147, 18, 221, 156, 163, 34, 237, 172, 20,
      215, 24, 219, 36, 231, 40, 235, 85, 86, 89, 90, 101, 102, 105, 106, 170,
      169, 166, 165, 154, 153, 150, 149, 43, 232, 39, 228, 27, 216, 23, 212, 108,
      45, 226, 99, 92, 29, 210, 83, 175, 46, 225, 160, 159, 30, 209, 144, 48,
      243, 116, 53, 202, 75, 12, 207, 113, 114, 183, 54, 201, 136, 77, 78, 190,
      189, 120, 57, 198, 71, 130, 129, 63, 252, 187, 58, 197, 132, 3, 192, 234,
      107, 44, 239, 112, 49, 254, 127, 233, 168, 109, 110, 179, 50, 253, 188, 230,
      103, 162, 161, 52, 247, 56, 251, 229, 164, 35, 224, 117, 118, 121, 122, 218,
      91, 28, 223, 138, 137, 134, 133, 217, 152, 93, 94, 11, 200, 7, 196, 214,
      87, 146, 145, 76, 13, 194, 67, 213, 148, 19, 208, 143, 14, 193, 128]
  | _ => []

section Encode

variable (bit_step : ℕ)

/-- `getCodeAndUpdateState` of the encoder. -/
def getCodeAndUpdateState (x_bits y_bits state : ℕ) : ℕ × ℕ :=
  let table_index := state ||| x_bits <<< bit_step ||| y_bits
  let table_code := (encodeLookupTable bit_step).getD table_index 0
  (table_code &&& HILBERT_MASK bit_step, table_code &&& STATE_MASK bit_step)

/-- The loop over the chunks; `current_shift` is counted by the chunks left. -/
def encodeLoop (x y : ℕ) : ℕ → ℕ → ℕ → ℕ
  | 0, _, hilbert_code => hilbert_code
  | left + 1, state, hilbert_code =>
    let current_shift := left * bit_step
    let x_bits := (x >>> current_shift) &&& STEP_MASK bit_step
    let y_bits := (y >>> current_shift) &&& STEP_MASK bit_step
    let (hilbert_bits, state) := getCodeAndUpdateState bit_step x_bits y_bits state
    encodeLoop x y left state (hilbert_code ||| (hilbert_bits <<< (current_shift <<< 1)) % 2 ^ 64)

/-- `FunctionHilbertEncode2DWIthLookupTableImpl<bit_step>::encode`. -/
def encode (x y : ℕ) : ℕ :=
  let used_bits := 64 - getLeadingZeroBits (x ||| y)
  -- the code would not fit
  if used_bits > 32 then 0
  else
    let (iterations, state) := getInitialShiftAndState bit_step bit_step used_bits
    encodeLoop bit_step x y iterations state 0

end Encode

end HilbertWidth

/-! ## The curve, the other way -/

namespace Hilbert

/-- The bit of `x` at the place `n`. -/
def bitAt (n x : ℕ) : Fin 2 := Fin.ofNat 2 (x / 2 ^ n)

variable (s : Orientation)

/-- The quadrant of a point, by the table for one digit. -/
def quadrant (a b : Fin 2) : Fin 4 :=
  digit 0 ((HilbertWidth.encodeLookupTable 1).getD (4 * s.val + 2 * a.val + b.val) 0)

/-- The code of the last `n` bits of `x` and `y`. -/
def code : Orientation → ℕ → ℕ → ℕ → ℕ
  | _, 0, _, _ => 0
  | s, n + 1, x, y =>
    let d := quadrant s (bitAt n x) (bitAt n y)
    d.val * 4 ^ n + code (next s d) n x y

lemma quadrant_bits (a b : Fin 2) :
    xBit s (quadrant s a b) = a.val ∧ yBit s (quadrant s a b) = b.val := by
  revert s a b
  decide

/-- The two tables for one digit are inverse to each other. -/
lemma quadrant_of_bits (d : Fin 4) :
    quadrant s (Fin.ofNat 2 (xBit s d)) (Fin.ofNat 2 (yBit s d)) = d := by
  revert s d
  decide

lemma code_lt (n x y : ℕ) : code s n x y < 4 ^ n := by
  induction n generalizing s with
  | zero => simp [code]
  | succ n ih =>
    have hd := (quadrant s (bitAt n x) (bitAt n y)).isLt
    have hrest := ih (next s (quadrant s (bitAt n x) (bitAt n y)))
    rw [code, pow_succ]
    nlinarith

lemma bitAt_append (a : Fin 2) {n r : ℕ} (hr : r < 2 ^ n) : bitAt n (a.val * 2 ^ n + r) = a := by
  apply Fin.ext
  rw [bitAt, Fin.val_ofNat, add_comm, add_mul_div_right _ _ (by positivity),
    div_eq_of_lt hr, zero_add]
  exact mod_eq_of_lt a.isLt

lemma bitAt_mod {n m : ℕ} (x : ℕ) (h : n < m) : bitAt n (x % 2 ^ m) = bitAt n x := by
  obtain ⟨k, rfl⟩ := Nat.exists_eq_add_of_lt h
  apply Fin.ext
  simp only [bitAt, Fin.val_ofNat]
  rw [show n + k + 1 = n + (k + 1) by omega, pow_add, mod_mul_right_div_self, pow_succ']
  exact mod_mul_right_mod _ _ _

/-- Only the last bits matter. -/
lemma code_mod (n x y : ℕ) : code s n (x % 2 ^ n) (y % 2 ^ n) = code s n x y := by
  have hbits : ∀ n m x y, n ≤ m → ∀ s, code s n (x % 2 ^ m) (y % 2 ^ m) = code s n x y := by
    intro n m x y hle
    induction n with
    | zero => exact fun s => rfl
    | succ n ih =>
      intro s
      rw [code, code, bitAt_mod x hle, bitAt_mod y hle, ih (by omega)]
  exact hbits n n x y le_rfl s

/-- A bit in front of the others. -/
lemma code_append (a b : Fin 2) {n x y : ℕ} (hx : x < 2 ^ n) (hy : y < 2 ^ n) :
    code s (n + 1) (a.val * 2 ^ n + x) (b.val * 2 ^ n + y) =
      (quadrant s a b).val * 4 ^ n + code (next s (quadrant s a b)) n x y := by
  rw [code, bitAt_append a hx, bitAt_append b hy, ← code_mod, mul_add_mod', mul_add_mod',
    mod_eq_of_lt hx, mod_eq_of_lt hy]

/-- **Decoding a code** gives back the point. -/
theorem point_code {n x y : ℕ} (hx : x < 2 ^ n) (hy : y < 2 ^ n) :
    point s n (code s n x y) = (x, y) := by
  induction n generalizing s x y with
  | zero =>
    rw [pow_zero, lt_one_iff] at hx hy
    rw [hx, hy]
    rfl
  | succ n ih =>
    have hpos : 0 < 2 ^ n := by positivity
    obtain ⟨a, ha⟩ : ∃ a : Fin 2, a.val = x / 2 ^ n := ⟨⟨_, Nat.div_lt_of_lt_mul hx⟩, rfl⟩
    obtain ⟨b, hb⟩ : ∃ b : Fin 2, b.val = y / 2 ^ n := ⟨⟨_, Nat.div_lt_of_lt_mul hy⟩, rfl⟩
    have hx' : a.val * 2 ^ n + x % 2 ^ n = x := by rw [ha, div_add_mod']
    have hy' : b.val * 2 ^ n + y % 2 ^ n = y := by rw [hb, div_add_mod']
    obtain ⟨hxbit, hybit⟩ := quadrant_bits s a b
    rw [← hx', ← hy', code_append s a b (mod_lt x hpos) (mod_lt y hpos),
      point_append s _ (code_lt _ _ _ _), ih _ (mod_lt x hpos) (mod_lt y hpos), hxbit, hybit]

/-- **Encoding a point** gives back the code. -/
theorem code_point {n t : ℕ} (ht : t < 4 ^ n) : code s n (point s n t).1 (point s n t).2 = t := by
  induction n generalizing s t with
  | zero =>
    rw [pow_zero, lt_one_iff] at ht
    rw [ht]
    rfl
  | succ n ih =>
    have hpos : 0 < 4 ^ n := by positivity
    obtain ⟨d, hd⟩ : ∃ d : Fin 4, d.val = t / 4 ^ n := ⟨⟨_, Nat.div_lt_of_lt_mul ht⟩, rfl⟩
    have ht' : d.val * 4 ^ n + t % 4 ^ n = t := by rw [hd, div_add_mod']
    have hin := point_lt (next s d) n (t % 4 ^ n)
    have hxbit : xBit s d = (Fin.ofNat 2 (xBit s d)).val := (mod_mod _ _).symm
    have hybit : yBit s d = (Fin.ofNat 2 (yBit s d)).val := (mod_mod _ _).symm
    have hcode := code_append s (Fin.ofNat 2 (xBit s d)) (Fin.ofNat 2 (yBit s d)) hin.1 hin.2
    rw [← hxbit, ← hybit, quadrant_of_bits, ih _ (mod_lt t hpos), ht'] at hcode
    rw [← ht', point_append s d (mod_lt t hpos), ht']
    exact hcode

lemma after_append (d : Fin 4) {n t : ℕ} (ht : t < 4 ^ n) :
    after s (n + 1) (d.val * 4 ^ n + t) = after (next s d) n t := by
  rw [after, digit_append d ht, ← after_mod, mul_add_mod', mod_eq_of_lt ht]

/-- **Bits in two parts**: the code of the first ones, and that of the others in the
orientation they leave. -/
theorem code_add (p n x y : ℕ) :
    code s (p + n) x y = code s p (x / 2 ^ n) (y / 2 ^ n) * 4 ^ n +
      code (after s p (code s p (x / 2 ^ n) (y / 2 ^ n))) n x y := by
  have hbit : ∀ p z, bitAt (p + n) z = bitAt p (z / 2 ^ n) := by
    intro p z
    rw [bitAt, bitAt, Nat.div_div_eq_div_mul, ← pow_add, add_comm]
  induction p generalizing s with
  | zero => simp [code, after]
  | succ p ih =>
    rw [add_right_comm, code, code, hbit, hbit, ih, after_append _ _ (code_lt _ _ _ _)]
    ring

end Hilbert

/-! ## Encoding -/

namespace HilbertWidth

variable {bit_step bit_step' x y : ℕ}

variable (h : Supported bit_step)

include h in
/-- **The table for a chunk** is as many steps of the table for one digit. -/
theorem getCodeAndUpdateState_eq (s : Orientation) (hx : x < 2 ^ bit_step) (hy : y < 2 ^ bit_step) :
    getCodeAndUpdateState bit_step x y (4 ^ bit_step * s.val) =
      (code s bit_step x y, 4 ^ bit_step * (after s bit_step (code s bit_step x y)).val) := by
  have htable : ∀ k ∈ [1, 2, 3], ∀ s : Orientation, ∀ x y : Fin (2 ^ k),
      getCodeAndUpdateState k x y (4 ^ k * s.val) =
        (code s k x y, 4 ^ k * (after s k (code s k x y)).val) := by
    decide +kernel
  exact htable bit_step (by simpa using h.cases) s ⟨x, hx⟩ ⟨y, hy⟩

include h in
/-- The loop reads the chunks that are left as bits, if the code has room. -/
lemma encodeLoop_eq (x y left : ℕ) (s : Orientation) (C : ℕ)
    (hroom : C * 4 ^ (bit_step * left) + code s (bit_step * left) x y < 2 ^ 64) :
    encodeLoop bit_step x y left (4 ^ bit_step * s.val) (C * 4 ^ (bit_step * left)) =
      C * 4 ^ (bit_step * left) + code s (bit_step * left) x y := by
  induction left generalizing s C with
  | zero => rfl
  | succ left ih =>
    have hbits : ∀ z, (z >>> (left * bit_step)) &&& STEP_MASK bit_step =
        z / 2 ^ (bit_step * left) % 2 ^ bit_step := by
      intro z
      rw [shiftRight_eq_div_pow, STEP_MASK, one_shiftLeft, and_two_pow_sub_one_eq_mod, mul_comm]
    have hpos : 0 < 2 ^ bit_step := by positivity
    have hstate := getCodeAndUpdateState_eq h s
      (mod_lt (x / 2 ^ (bit_step * left)) hpos) (mod_lt (y / 2 ^ (bit_step * left)) hpos)
    have hlt := code_lt s bit_step (x / 2 ^ (bit_step * left)) (y / 2 ^ (bit_step * left))
    rw [show bit_step * (left + 1) = bit_step + bit_step * left by ring, code_add] at hroom ⊢
    rw [encodeLoop]
    simp only [hbits, hstate, code_mod]
    generalize code s bit_step (x / 2 ^ (bit_step * left)) (y / 2 ^ (bit_step * left)) = q at *
    -- the chunk is not cut off, and goes behind the bits that are there
    have hchunk : C * 4 ^ (bit_step + bit_step * left) |||
        (q <<< ((left * bit_step) <<< 1)) % 2 ^ 64 =
        (C * 4 ^ bit_step + q) * 4 ^ (bit_step * left) := by
      rw [mul_comm left, mod_eq_of_lt (by rw [shiftLeft_eq, ← four_pow]; omega), pow_add,
        four_pow bit_step, four_pow (bit_step * left), ← pow_add]
      rw [four_pow] at hlt
      exact or_shiftLeft hlt C _
    have htotal : C * 4 ^ (bit_step + bit_step * left) + q * 4 ^ (bit_step * left) =
        (C * 4 ^ bit_step + q) * 4 ^ (bit_step * left) := by
      ring
    rw [← add_assoc, htotal] at hroom ⊢
    rw [hchunk, ih _ _ hroom]

/-- Any number of bits that has the coordinates gives the same code. -/
lemma code_start_eq {n m x y : ℕ} (hx : x < 2 ^ n) (hy : y < 2 ^ n) (hx' : x < 2 ^ m)
    (hy' : y < 2 ^ m) : code (start n) n x y = code (start m) m x y := by
  -- the smaller one of the two numbers of digits is enough for the code
  have hle : ∀ n m, n ≤ m → x < 2 ^ n → y < 2 ^ n →
      code (start m) m x y = code (start n) n x y := by
    intro n m hle hx hy
    have hlt := code_lt (start n) n x y
    have hlt' := hlt.trans_le (Nat.pow_le_pow_right (show 0 < 4 by omega) hle)
    have hpoint : point (start m) m (code (start n) n x y) = (x, y) :=
      (point_start_of_le hlt hle).trans (point_code _ hx hy)
    have hcode := code_point (start m) hlt'
    rwa [hpoint] at hcode
  rcases le_total n m with h | h
  · exact (hle n m h hx hy).symm
  · exact hle m n h hx' hy'

lemma used_bits_le {z n : ℕ} (hz : z < 2 ^ n) : 64 - getLeadingZeroBits z ≤ n := by
  unfold getLeadingZeroBits
  split
  next => omega
  next h =>
    have hlog : z.log2 < n := (log2_lt h).2 hz
    omega

include h in
/-- **Encoding follows the curve**, at every width. -/
theorem encode_eq (hx : x < 2 ^ 32) (hy : y < 2 ^ 32) :
    encode bit_step x y = code (start 33) 33 x y := by
  have hor : x ||| y < 2 ^ 32 := or_lt_two_pow hx hy
  have hused : ¬ 64 - getLeadingZeroBits (x ||| y) > 32 := not_lt.2 (used_bits_le hor)
  have hlt := lt_two_pow_used_bits (hor.trans (by norm_num))
  obtain ⟨iterations, hinit, hle⟩ := getInitialShiftAndState_eq h h.pos
    (64 - getLeadingZeroBits (x ||| y))
  have hbits := hlt.trans_le (Nat.pow_le_pow_right two_pos hle)
  have hx' : x < 2 ^ (bit_step * iterations) := left_le_or.trans_lt hbits
  have hy' : y < 2 ^ (bit_step * iterations) := right_le_or.trans_lt hbits
  have hroom : code (start (bit_step * iterations)) (bit_step * iterations) x y < 2 ^ 64 := by
    rw [code_start_eq hx' hy' hx hy]
    exact code_lt _ 32 x y
  have hloop :=
    encodeLoop_eq h x y iterations (start (bit_step * iterations)) 0 (by simpa using hroom)
  simp only [encode, if_neg hused, hinit]
  rw [code_start_eq (hx.trans (by norm_num)) (hy.trans (by norm_num)) hx' hy']
  simpa using hloop

include h in
/-- The point of a code has coordinates of 32 bits. -/
lemma decode_lt {c : ℕ} (hc : c < 2 ^ 64) :
    (decode bit_step c).1 < 2 ^ 32 ∧ (decode bit_step c).2 < 2 ^ 32 := by
  rw [decode_eq h hc, point_start_eq (m := 32) (hc.trans (by norm_num)) hc]
  exact point_lt (start 32) 32 c

section Inverse

variable (h' : Supported bit_step')

include h h'

lemma decode_encode (hx : x < 2 ^ 32) (hy : y < 2 ^ 32) :
    decode bit_step' (encode bit_step x y) = (x, y) := by
  have hcode : code (start 33) 33 x y < 2 ^ 64 := by
    rw [code_start_eq (m := 32) (hx.trans (by norm_num)) (hy.trans (by norm_num)) hx hy]
    exact code_lt _ 32 x y
  rw [encode_eq h hx hy, decode_eq h' hcode,
    point_code _ (hx.trans (by norm_num)) (hy.trans (by norm_num))]

lemma encode_decode {c : ℕ} (hc : c < 2 ^ 64) :
    encode bit_step (decode bit_step' c).1 (decode bit_step' c).2 = c := by
  obtain ⟨hx, hy⟩ := decode_lt h' hc
  rw [encode_eq h hx hy, decode_eq h' hc, code_point _ (hc.trans (by norm_num))]

/-- **Encoding and decoding are inverse to each other**, for points with coordinates of 32
bits and codes of 64, with chunks of any width on either side. -/
theorem encode_decode_inverse :
    (∀ x y, x < 2 ^ 32 → y < 2 ^ 32 → decode bit_step' (encode bit_step x y) = (x, y)) ∧
      ∀ c, c < 2 ^ 64 → encode bit_step (decode bit_step' c).1 (decode bit_step' c).2 = c :=
  ⟨fun _ _ hx hy => decode_encode h h' hx hy, fun _ hc => encode_decode h h' hc⟩

end Inverse

/-- The last code, in chunks of two bits, and of six. -/
theorem encode_decode_inverse_at_last_code :
    encode 3 (decode 1 (2 ^ 64 - 1)).1 (decode 1 (2 ^ 64 - 1)).2 = 2 ^ 64 - 1 ∧
      decode 2 (encode 2 (2 ^ 32 - 1) 5) = (2 ^ 32 - 1, 5) :=
  ⟨(encode_decode_inverse ⟨by decide, by decide⟩ ⟨by decide, by decide⟩).2 _ (by decide),
    (encode_decode_inverse ⟨by decide, by decide⟩ ⟨by decide, by decide⟩).1 _ _ (by decide)
      (by decide)⟩

end HilbertWidth

end ClickHouse
