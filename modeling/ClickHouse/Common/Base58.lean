/-
Base58 (`src/Common/Base58.cpp`): `encodeBase58` and `decodeBase58`.

Both turn leading zeros into themselves, convert the rest from one radix to the other in the
output buffer, least significant digit first, and reverse the buffer in place. The carry is a
`UInt32` and a digit a byte, with the arithmetic of those types.

A digit in the buffer is below the radix, so no carry reaches 2^16 and nothing wraps around:
the two loops over the buffer are `mulAdd` of `Lib.Radix`, and the two functions are zeros
followed by `convertRadix`. The round trips are then the one of `convertRadix`, for what
follows the leading zeros: a part that starts with no zero.
-/
import ClickHouse.Core.Types
import ClickHouse.Lib.Radix

set_option autoImplicit false

namespace ClickHouse.Base58

open List Lib Nat
open UInt8 (ofNat toNat_ofNat_of_lt' toNat_toUInt32)

/-! ## Encoding -/

/-- The letters of the digits: no `0`, `O`, `I` and `l`. -/
def base58_encoding_alphabet : Bytes :=
  "123456789ABCDEFGHJKLMNPQRSTUVWXYZabcdefghijkmnopqrstuvwxyz".toList.map ch

/-- `base58_encoding_alphabet[digit]`. -/
def letter (digit : UInt8) : UInt8 := base58_encoding_alphabet[digit.toNat]!

/-- The `for` loop over the digits, with the carry it leaves. -/
def encodeDigits : Bytes → UInt32 → Bytes × UInt32
  | [], carry => ([], carry)
  | d :: dst, carry =>
    let carry := carry + d.toUInt32 <<< 8
    let rest := encodeDigits dst (carry / 58)
    ((carry % 58).toUInt8 :: rest.1, rest.2)

/-- The digits that the `while` loop adds. -/
def encodeCarry (carry : UInt32) : Bytes :=
  if 0 < carry then (carry % 58).toUInt8 :: encodeCarry (carry / 58) else []
termination_by carry.toNat
decreasing_by
  rename_i h
  have hpos : 0 < carry.toNat := UInt32.lt_iff_toNat_lt.mp h
  rw [UInt32.toNat_div]
  exact Nat.div_lt_self hpos (by decide)

variable (dst : Bytes)

/-- One byte of the source. -/
def encodeByte (byte : UInt8) : Bytes :=
  let digits := encodeDigits dst byte.toUInt32
  digits.1 ++ encodeCarry digits.2

/-- The reversal, which also turns digits into letters. -/
def reverseLetters : Bytes :=
  let idx := dst.length
  let c_idx := idx / 2
  let dst := Lib.exchanges letter dst c_idx
  if idx % 2 = 1 then dst.set c_idx (letter dst[c_idx]!) else dst

/-- `encodeBase58`. -/
def encodeBase58 (src : Bytes) : Bytes :=
  let zeros := src.takeWhile (· == 0)
  let dst := (src.drop zeros.length).foldl encodeByte []
  zeros.map (fun _ => ch '1') ++ reverseLetters dst

/-! ## Decoding -/

/-- The digit of a byte, by its code; -1 if the byte is not a letter of the alphabet. -/
def map_digits : List ℤ := [
  -1, -1, -1, -1, -1, -1, -1, -1, -1, -1, -1, -1, -1, -1, -1, -1,
  -1, -1, -1, -1, -1, -1, -1, -1, -1, -1, -1, -1, -1, -1, -1, -1,
  -1, -1, -1, -1, -1, -1, -1, -1, -1, -1, -1, -1, -1, -1, -1, -1,
  -1,  0,  1,  2,  3,  4,  5,  6,  7,  8, -1, -1, -1, -1, -1, -1,
  -1,  9, 10, 11, 12, 13, 14, 15, 16, -1, 17, 18, 19, 20, 21, -1,
  22, 23, 24, 25, 26, 27, 28, 29, 30, 31, 32, -1, -1, -1, -1, -1,
  -1, 33, 34, 35, 36, 37, 38, 39, 40, 41, 42, 43, -1, 44, 45, 46,
  47, 48, 49, 50, 51, 52, 53, 54, 55, 56, 57, -1, -1, -1, -1, -1,
  -1, -1, -1, -1, -1, -1, -1, -1, -1, -1, -1, -1, -1, -1, -1, -1,
  -1, -1, -1, -1, -1, -1, -1, -1, -1, -1, -1, -1, -1, -1, -1, -1,
  -1, -1, -1, -1, -1, -1, -1, -1, -1, -1, -1, -1, -1, -1, -1, -1,
  -1, -1, -1, -1, -1, -1, -1, -1, -1, -1, -1, -1, -1, -1, -1, -1,
  -1, -1, -1, -1, -1, -1, -1, -1, -1, -1, -1, -1, -1, -1, -1, -1,
  -1, -1, -1, -1, -1, -1, -1, -1, -1, -1, -1, -1, -1, -1, -1, -1,
  -1, -1, -1, -1, -1, -1, -1, -1, -1, -1, -1, -1, -1, -1, -1, -1,
  -1, -1, -1, -1, -1, -1, -1, -1, -1, -1, -1, -1, -1, -1, -1, -1]

/-- The carry that a character starts with. -/
def firstCarry (c : UInt8) : UInt32 :=
  let digit := map_digits[c.toNat]!
  if digit == -1 then 0xFFFFFFFF else UInt32.ofNat digit.toNat

/-- The inner loop of `decodeBase58`: the number so far times 58, plus the carry. -/
def decodeDigits : Bytes → UInt32 → Bytes × UInt32
  | [], carry => ([], carry)
  | d :: dst, carry =>
    let carry := carry + d.toUInt32 * 58
    let rest := decodeDigits dst (carry >>> 8)
    ((carry &&& 0xFF).toUInt8 :: rest.1, rest.2)

/-- The bytes that the carry adds behind the number. -/
def decodeCarry (carry : UInt32) : Bytes :=
  if 0 < carry then (carry &&& 0xFF).toUInt8 :: decodeCarry (carry >>> 8) else []
termination_by carry.toNat
decreasing_by
  rename_i h
  have hpos : 0 < carry.toNat := UInt32.lt_iff_toNat_lt.mp h
  show (carry >>> 8).toNat < carry.toNat
  rw [UInt32.toNat_shiftRight, Nat.shiftRight_eq_div_pow]
  exact Nat.div_lt_self hpos (by decide)

/-- One character of the source, which is rejected if it is not a digit. -/
def decodeByte (c : UInt8) : Option Bytes :=
  let carry := firstCarry c
  if carry == 0xFFFFFFFF then none
  else
    let digits := decodeDigits dst carry
    some (digits.1 ++ decodeCarry digits.2)

/-- `decodeBase58`. -/
def decodeBase58 (src : Bytes) : Option Bytes :=
  let zeros := src.takeWhile (· == ch '1')
  ((src.drop zeros.length).foldlM decodeByte []).map fun dst =>
    zeros.map (fun _ => 0) ++ Lib.exchanges id dst (dst.length / 2)

/-! ## Digits -/

/-- The bytes of a buffer as numbers. -/
def toDigits : List ℕ := dst.map UInt8.toNat

lemma toDigits_cons (d : UInt8) : toDigits (d :: dst) = d.toNat :: toDigits dst := rfl

/-- Numbers as bytes. -/
def ofDigits (digits : List ℕ) : Bytes := digits.map UInt8.ofNat

lemma ofDigits_toDigits : ofDigits (toDigits dst) = dst := by
  rw [ofDigits, toDigits, map_map]
  conv_rhs => rw [← map_id dst]
  exact map_congr_left fun d _ => UInt8.ofNat_toNat

variable {digits : List ℕ}

lemma toDigits_ofDigits (h : ∀ d ∈ digits, d < 256) : toDigits (ofDigits digits) = digits := by
  rw [ofDigits, toDigits, map_map]
  conv_rhs => rw [← map_id digits]
  exact map_congr_left fun d hd => toNat_ofNat_of_lt' (h d hd)

lemma eq_ofDigits {dst : Bytes} (h : toDigits dst = digits) : dst = ofDigits digits := by
  rw [← h, ofDigits_toDigits]

/-! ## The loops are `mulAdd` -/

variable (carry : UInt32)

lemma toNat_mod_58 : (carry % 58).toUInt8.toNat = carry.toNat % 58 := by
  exact mod_eq_of_lt ((mod_lt _ (by decide)).trans (by decide))

lemma toNat_and_255 : (carry &&& 0xFF).toUInt8.toNat = carry.toNat % 256 := by
  show (carry.toNat &&& 2 ^ 8 - 1) % 2 ^ 8 = carry.toNat % 2 ^ 8
  rw [and_two_pow_sub_one_eq_mod, mod_mod]

lemma toNat_shiftRight_8 : (carry >>> 8).toNat = carry.toNat / 256 := by
  exact shiftRight_eq_div_pow _ _

/-- What is left of the carry is pushed digit by digit. -/
lemma toDigits_encodeCarry : toDigits (encodeCarry carry) = Nat.digits 58 carry.toNat := by
  fun_induction encodeCarry carry with
  | case1 carry h ih =>
    have hpos : 0 < carry.toNat := UInt32.lt_iff_toNat_lt.1 h
    rw [digits_def' (by decide) hpos, toDigits, map_cons, toNat_mod_58]
    exact congrArg _ ih
  | case2 carry h =>
    have hzero : carry.toNat = 0 :=
      Nat.eq_zero_of_not_pos fun hpos => h (UInt32.lt_iff_toNat_lt.2 hpos)
    rw [hzero, digits_zero]
    rfl

lemma toDigits_decodeCarry : toDigits (decodeCarry carry) = Nat.digits 256 carry.toNat := by
  fun_induction decodeCarry carry with
  | case1 carry h ih =>
    have hpos : 0 < carry.toNat := UInt32.lt_iff_toNat_lt.1 h
    rw [digits_def' (by decide) hpos, toDigits, map_cons, toNat_and_255, ← toNat_shiftRight_8]
    exact congrArg _ ih
  | case2 carry h =>
    have hzero : carry.toNat = 0 :=
      Nat.eq_zero_of_not_pos fun hpos => h (UInt32.lt_iff_toNat_lt.2 hpos)
    rw [hzero, digits_zero]
    rfl

/-- A carry below 2^16 does not wrap around, and leaves one below 2^16. -/
lemma toDigits_encodeDigits (hcarry : carry.toNat < 2 ^ 16) :
    toDigits ((encodeDigits dst carry).1 ++ encodeCarry (encodeDigits dst carry).2) =
      mulAdd 58 256 (toDigits dst) carry.toNat := by
  induction dst generalizing carry with
  | nil => exact toDigits_encodeCarry carry
  | cons d dst ih =>
    have hd := d.toNat_lt
    -- neither the shift nor the sum leaves 32 bits
    have hsum : (carry + d.toUInt32 <<< 8).toNat = carry.toNat + 256 * d.toNat := by
      have hshift : (d.toUInt32 <<< 8).toNat = d.toNat * 2 ^ 8 % 2 ^ 32 := by
        rw [UInt32.toNat_shiftLeft, toNat_toUInt32, shiftLeft_eq]
        rfl
      rw [UInt32.toNat_add, hshift]
      omega
    have hdiv : ((carry + d.toUInt32 <<< 8) / 58).toNat = (carry.toNat + 256 * d.toNat) / 58 := by
      rw [UInt32.toNat_div, hsum]
      rfl
    have hrest := ih ((carry + d.toUInt32 <<< 8) / 58) (by rw [hdiv]; omega)
    rw [hdiv] at hrest
    rw [toDigits_cons, mulAdd, ← hrest, ← hsum, ← toNat_mod_58]
    rfl

/-- A step of the decoder, on numbers: times 58 plus the digit, in base 256. -/
lemma toDigits_decodeDigits (hcarry : carry.toNat < 2 ^ 16) :
    toDigits ((decodeDigits dst carry).1 ++ decodeCarry (decodeDigits dst carry).2) =
      mulAdd 256 58 (toDigits dst) carry.toNat := by
  induction dst generalizing carry with
  | nil => exact toDigits_decodeCarry carry
  | cons d dst ih =>
    have hd := d.toNat_lt
    have hsum : (carry + d.toUInt32 * 58).toNat = carry.toNat + 58 * d.toNat := by
      have hmul : (d.toUInt32 * 58).toNat = d.toNat * 58 % 2 ^ 32 := by
        rfl
      rw [UInt32.toNat_add, hmul]
      omega
    have hshift : ((carry + d.toUInt32 * 58) >>> 8).toNat = (carry.toNat + 58 * d.toNat) / 256 := by
      rw [toNat_shiftRight_8, hsum]
    have hrest := ih ((carry + d.toUInt32 * 58) >>> 8) (by rw [hshift]; omega)
    rw [hshift] at hrest
    rw [toDigits_cons, mulAdd, ← hrest, ← hsum, ← toNat_and_255]
    rfl

/-! ## The alphabet -/

/-- The character codes of the alphabet: the two tables are compared on numbers. -/
def letterCodes : List ℕ := [
  49, 50, 51, 52, 53, 54, 55, 56, 57, 65, 66, 67, 68, 69, 70, 71, 72, 74, 75, 76, 77, 78, 80, 81,
  82, 83, 84, 85, 86, 87, 88, 89, 90, 97, 98, 99, 100, 101, 102, 103, 104, 105, 106, 107, 109,
  110, 111, 112, 113, 114, 115, 116, 117, 118, 119, 120, 121, 122]

lemma alphabet_eq : base58_encoding_alphabet = letterCodes.map ofNat := by
  decide

lemma letter_eq {d : ℕ} (h : d < 58) : letter (ofNat d) = ofNat letterCodes[d]! := by
  have hd : (ofNat d).toNat = d := toNat_ofNat_of_lt' (h.trans (by decide))
  have hlen : d < letterCodes.length := h
  rw [letter, hd, alphabet_eq, getElem!_pos _ _ (by simpa using hlen), getElem_map,
    getElem!_pos letterCodes d hlen]

/-- `map_digits` inverts the alphabet. -/
lemma map_digits_letterCodes : ∀ d : ℕ, d < 58 → letterCodes[d]! < 256 ∧
    map_digits[letterCodes[d]!]! = (d : ℤ) ∧ (letterCodes[d]! = 49 → d = 0) := by
  decide +kernel

lemma length_map_digits : map_digits.length = 256 := by
  decide +kernel

lemma map_digits_cases : ∀ entry ∈ map_digits.zipIdx, entry.1 = -1 ∨
    entry.1.toNat < 58 ∧ letterCodes[entry.1.toNat]! = entry.2 := by
  decide +kernel

lemma toNat_letter {d : ℕ} (h : d < 58) : (letter (ofNat d)).toNat = letterCodes[d]! := by
  rw [letter_eq h]
  exact toNat_ofNat_of_lt' (map_digits_letterCodes d h).1

lemma firstCarry_letter (d : ℕ) (h : d < 58) :
    firstCarry (letter (ofNat d)) = UInt32.ofNat d := by
  have hne : ((d : ℤ) == -1) = false := by
    rw [beq_eq_false_iff_ne]
    omega
  simp only [firstCarry, toNat_letter h, (map_digits_letterCodes d h).2.1, hne]
  rfl

lemma letter_mem (d : ℕ) (h : d < 58) : letter (ofNat d) ∈ base58_encoding_alphabet := by
  have hlen : d < letterCodes.length := h
  rw [letter_eq h, alphabet_eq, getElem!_pos letterCodes d hlen]
  exact mem_map_of_mem (getElem_mem hlen)

lemma eq_zero_of_letter (d : ℕ) (h : d < 58) (hone : letter (ofNat d) = ch '1') :
    d = 0 := by
  apply (map_digits_letterCodes d h).2.2
  rw [← toNat_letter h, hone]
  rfl

variable {c : UInt8}

lemma exists_digit_of_mem (h : c ∈ base58_encoding_alphabet) :
    ∃ d < 58, c = letter (ofNat d) := by
  rw [alphabet_eq] at h
  obtain ⟨code, hcode, rfl⟩ := mem_map.1 h
  obtain ⟨d, hd, rfl⟩ := getElem_of_mem hcode
  refine ⟨d, hd, ?_⟩
  rw [letter_eq hd, getElem!_pos letterCodes d hd]

lemma firstCarry_of_notMem (h : c ∉ base58_encoding_alphabet) :
    firstCarry c = 0xFFFFFFFF := by
  have hlen : c.toNat < map_digits.length := c.toNat_lt.trans_eq length_map_digits.symm
  have hentry : (map_digits[c.toNat]!, c.toNat) ∈ map_digits.zipIdx := by
    rw [mk_mem_zipIdx_iff_getElem?, getElem!_pos map_digits _ hlen]
    exact getElem?_eq_getElem hlen
  have hcases : map_digits[c.toNat]! = -1 ∨ map_digits[c.toNat]!.toNat < 58 ∧
      letterCodes[map_digits[c.toNat]!.toNat]! = c.toNat := map_digits_cases _ hentry
  rcases hcases with hnone | ⟨hd, hletter⟩
  · rw [firstCarry, hnone]
    rfl
  · have hc : letter (ofNat map_digits[c.toNat]!.toNat) = c := by
      rw [letter_eq hd, hletter, UInt8.ofNat_toNat]
    exact absurd (hc ▸ letter_mem _ hd) h

variable {s : Bytes}

variable (h : ∀ c ∈ s, c ∈ base58_encoding_alphabet)

include h in
/-- A string over the alphabet is written with digits. -/
lemma exists_digits :
    ∃ digits : List ℕ, (∀ d ∈ digits, d < 58) ∧ s = (ofDigits digits).map letter := by
  induction s with
  | nil => exact ⟨[], by simp, rfl⟩
  | cons c s ih =>
    obtain ⟨hc, hs⟩ := forall_mem_cons.1 h
    obtain ⟨digits, hdigits, rfl⟩ := ih hs
    obtain ⟨d, hd, rfl⟩ := exists_digit_of_mem hc
    exact ⟨d :: digits, forall_mem_cons.2 ⟨hd, hdigits⟩, rfl⟩

/-! ## The two functions -/

lemma toDigits_foldl_encodeByte (src : Bytes) :
    toDigits (src.foldl encodeByte []) = convertRadix 58 256 (toDigits src) := by
  induction src using reverseRecOn with
  | nil => rfl
  | append_singleton src byte ih =>
    have hbyte : byte.toUInt32.toNat < 2 ^ 16 := by
      have := byte.toNat_lt
      rw [toNat_toUInt32]
      omega
    rw [foldl_append, foldl_cons, foldl_nil, encodeByte,
      toDigits_encodeDigits _ _ hbyte, ih, toNat_toUInt32, convertRadix, convertRadix,
      toDigits, toDigits, map_append, foldl_append]
    rfl

/-- Digits are decoded to the digits of the other radix. -/
lemma foldlM_decodeByte (h : ∀ d ∈ digits, d < 58) :
    ((ofDigits digits).map letter).foldlM decodeByte [] =
      some (ofDigits (convertRadix 256 58 digits)) := by
  induction digits using reverseRecOn with
  | nil => rfl
  | append_singleton digits d ih =>
    have hd : d < 58 := h d (by simp)
    have hcarry : (UInt32.ofNat d).toNat = d := UInt32.toNat_ofNat_of_lt' (hd.trans (by decide))
    -- the value that stands for a character outside the alphabet
    have hne : (UInt32.ofNat d == 0xFFFFFFFF) = false := by
      rw [beq_eq_false_iff_ne, Ne, UInt32.toNat_inj.symm, hcarry]
      show d ≠ 4294967295
      omega
    have hlt : ∀ e ∈ convertRadix 256 58 digits, e < 256 :=
      fun e he => convertRadix_lt (by decide) (by decide) he
    rw [ofDigits, map_append, map_append, foldlM_append, ← ofDigits,
      ih fun e he => h e (mem_append_left _ he)]
    show decodeByte (ofDigits (convertRadix 256 58 digits)) (letter (ofNat d)) >>= pure = _
    rw [bind_pure, decodeByte, firstCarry_letter d hd]
    simp only [hne, Bool.false_eq_true, if_false]
    rw [eq_ofDigits (toDigits_decodeDigits _ _ (by rw [hcarry]; omega)), hcarry,
      toDigits_ofDigits hlt, convertRadix, convertRadix, foldl_append]
    rfl

/-- A character outside of the alphabet is rejected wherever it stands. -/
lemma foldlM_decodeByte_of_notMem (hc : c ∈ s)
    (h : c ∉ base58_encoding_alphabet) (dst : Bytes) : s.foldlM decodeByte dst = none := by
  induction s generalizing dst with
  | nil => cases hc
  | cons c' s ih =>
    rw [foldlM_cons]
    rcases mem_cons.1 hc with rfl | hmem
    · have hreject : decodeByte dst c = none := by
        rw [decodeByte, firstCarry_of_notMem h]
        rfl
      rw [hreject]
      rfl
    · cases decodeByte dst c' with
      | none => rfl
      | some dst' => exact ih hmem dst'

/-! ## Leading zeros -/

lemma exists_leading {β : Type*} [DecidableEq β] (zero : β) (src : List β) :
    ∃ n rest, src = replicate n zero ++ rest ∧ ∀ x, rest.head? = some x → x ≠ zero := by
  induction src with
  | nil => exact ⟨0, [], rfl, by simp⟩
  | cons x src ih =>
    by_cases hx : x = zero
    · obtain ⟨n, rest, rfl, hrest⟩ := ih
      exact ⟨n + 1, rest, by rw [hx, replicate_succ, cons_append], hrest⟩
    · refine ⟨0, x :: src, rfl, ?_⟩
      intro y hy
      cases hy
      exact hx

lemma takeWhile_leading {β : Type*} [DecidableEq β] {zero : β} {n : ℕ} {rest : List β}
    (h : ∀ x, rest.head? = some x → x ≠ zero) :
    (replicate n zero ++ rest).takeWhile (· == zero) = replicate n zero := by
  rw [takeWhile_append_of_pos (by simp)]
  cases rest with
  | nil => simp
  | cons x rest =>
    have hx : (x == zero) = false := beq_eq_false_iff_ne.2 (h x rfl)
    rw [takeWhile_cons, hx]
    simp

lemma encodeBase58_eq (n : ℕ) {rest : Bytes} (h : ∀ x, rest.head? = some x → x ≠ 0) :
    encodeBase58 (replicate n 0 ++ rest) =
      (ofDigits (replicate n 0 ++ (convertRadix 58 256 (toDigits rest)).reverse)).map
        letter := by
  have hdrop : (replicate n (0 : UInt8) ++ rest).drop (replicate n (0 : UInt8)).length =
      rest := drop_left
  rw [encodeBase58, takeWhile_leading h, hdrop, reverseLetters, exchanges_eq_reverse,
    eq_ofDigits (toDigits_foldl_encodeByte rest), ofDigits, ofDigits, map_append, map_append,
    map_reverse, map_reverse, map_replicate, map_replicate, map_replicate]
  rfl

/-- Leading zeroes are kept apart, and the rest is a change of the radix. -/
lemma decodeBase58_eq (n : ℕ) (hdigits : ∀ d ∈ digits, d < 58)
    (h : ∀ d, digits.head? = some d → d ≠ 0) :
    decodeBase58 ((ofDigits (replicate n 0 ++ digits)).map letter) =
      some (replicate n 0 ++ (ofDigits (convertRadix 256 58 digits)).reverse) := by
  have hsplit : (ofDigits (replicate n 0 ++ digits)).map letter =
      replicate n (ch '1') ++ (ofDigits digits).map letter := by
    rw [ofDigits, map_append, map_append, map_replicate, map_replicate]
    rfl
  -- the letters behind the leading ones do not begin with a one
  have hhead : ∀ c, ((ofDigits digits).map letter).head? = some c → c ≠ ch '1' := by
    intro c hc hone
    cases digits with
    | nil => cases hc
    | cons d digits =>
      cases hc
      exact h d rfl (eq_zero_of_letter d (hdigits d (mem_cons_self ..)) hone)
  have hdrop : (replicate n (ch '1') ++ (ofDigits digits).map letter).drop
      (replicate n (ch '1')).length = (ofDigits digits).map letter := drop_left
  rw [hsplit, decodeBase58, takeWhile_leading hhead, hdrop, foldlM_decodeByte hdigits,
    Option.map_some,
    exchanges_id, map_replicate]

/-- Decoding undoes encoding. -/
lemma decodeBase58_encodeBase58 (x : Bytes) : decodeBase58 (encodeBase58 x) = some x := by
  obtain ⟨n, rest, rfl, hrest⟩ := exists_leading 0 x
  have hlt : ∀ d ∈ (convertRadix 58 256 (toDigits rest)).reverse, d < 58 := fun d hd =>
    convertRadix_lt (by decide) (by decide) (mem_reverse.1 hd)
  have hbytes : ∀ d ∈ toDigits rest, d < 256 := by
    intro d hd
    obtain ⟨b, -, rfl⟩ := mem_map.1 hd
    exact b.toNat_lt
  have hhead : ∀ d, (toDigits rest).head? = some d → d ≠ 0 := by
    intro d hd hzero
    cases rest with
    | nil => cases hd
    | cons b rest =>
      cases hd
      exact hrest b rfl (UInt8.toNat_inj.1 hzero)
  rw [encodeBase58_eq n hrest, decodeBase58_eq n hlt (convertRadix_head (by decide) (by decide) _),
    convertRadix_convertRadix (by decide) (by decide) hbytes hhead]
  rw [ofDigits, map_reverse, reverse_reverse, ← ofDigits, ofDigits_toDigits]

include h in
/-- A text that is accepted is the encoding of what it decodes to. -/
lemma encodeBase58_decodeBase58 :
    (decodeBase58 s).map encodeBase58 = some s := by
  obtain ⟨all, hall, rfl⟩ := exists_digits h
  obtain ⟨n, digits, rfl, hhead⟩ := exists_leading 0 all
  have hdigits : ∀ d ∈ digits, d < 58 := fun d hd => hall d (mem_append_right _ hd)
  have hlt : ∀ e ∈ convertRadix 256 58 digits, e < 256 :=
    fun e he => convertRadix_lt (by decide) (by decide) he
  -- the decoded bytes do not start with a zero
  have hrest : ∀ x, (ofDigits (convertRadix 256 58 digits)).reverse.head? = some x → x ≠ 0 := by
    intro x hx hzero
    rw [ofDigits, ← map_reverse, head?_map] at hx
    obtain ⟨d, hd, rfl⟩ := Option.map_eq_some_iff.1 hx
    have hmem := hlt d (mem_reverse.1 (mem_of_mem_head? hd))
    have hnat := congrArg UInt8.toNat hzero
    rw [toNat_ofNat_of_lt' hmem] at hnat
    exact convertRadix_head (by decide) (by decide) digits d hd hnat
  rw [decodeBase58_eq n hdigits hhead, Option.map_some, encodeBase58_eq n hrest, toDigits,
    map_reverse, ← toDigits, toDigits_ofDigits hlt,
    convertRadix_convertRadix (by decide) (by decide) hdigits hhead, reverse_reverse]

/-- **Base58 is a bijection** between byte strings and strings over the alphabet, and decoding
fails exactly outside of those. -/
theorem base58_round_trip :
    (∀ x, decodeBase58 (encodeBase58 x) = some x) ∧
    (∀ s, (∀ c ∈ s, c ∈ base58_encoding_alphabet) → (decodeBase58 s).map encodeBase58 = some s) ∧
    ∀ s, decodeBase58 s = none ↔ ∃ c ∈ s, c ∉ base58_encoding_alphabet := by
  refine ⟨decodeBase58_encodeBase58, fun s => encodeBase58_decodeBase58, fun s => ⟨?_, ?_⟩⟩
  · intro hnone
    by_contra hall
    push Not at hall
    have hsome := encodeBase58_decodeBase58 hall
    rw [hnone] at hsome
    cases hsome
  · rintro ⟨c, hc, hnot⟩
    -- the leading characters that are skipped are in the alphabet
    have hone : ch '1' ∈ base58_encoding_alphabet := letter_mem 0 (by decide)
    have hdrop : c ∈ s.drop (s.takeWhile (· == ch '1')).length := by
      have hrest := @List.drop_left _ (s.takeWhile (· == ch '1')) (s.dropWhile (· == ch '1'))
      rw [takeWhile_append_dropWhile] at hrest
      rw [hrest]
      rw [← takeWhile_append_dropWhile (p := (· == ch '1')) (l := s)] at hc
      refine (mem_append.1 hc).resolve_left fun htake => ?_
      have heq := mem_takeWhile_imp (p := fun x => x == ch '1') htake
      rw [eq_of_beq heq] at hnot
      exact hnot hone
    rw [decodeBase58, foldlM_decodeByte_of_notMem hdrop hnot, Option.map_none]

end ClickHouse.Base58
