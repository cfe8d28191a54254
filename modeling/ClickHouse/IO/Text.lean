/-
Integers as text: `writeIntText`, `checkChar` and `tryReadIntText`
(`src/IO/ReadHelpers.h`, `src/IO/WriteHelpers.h`).

A `ReadBuffer` over a string is the bytes not read yet, so a reading function
returns its value together with the bytes left. `readIntTextImpl` checks every
digit for overflow: the guard in front of the check compares with
`numeric_limits<T>::max_digits10`, which is 0 for an integer type.
-/
import ClickHouse.Core.Types

set_option autoImplicit false

namespace ClickHouse

/-! ## Writing -/

/-- The decimal digits of a natural number. -/
def natText (n : ℕ) : Bytes := (Nat.toDigits 10 n).map ch

/-- `writeIntText`. -/
def writeIntText (z : ℤ) : Bytes :=
  if z < 0 then ch '-' :: natText z.natAbs else natText z.natAbs

/-! ## Reading -/

/-- `checkChar`: skip one byte if it is `c`. -/
def checkChar (c : UInt8) : Bytes → Option Bytes
  | [] => none
  | a :: rest => if a = c then some rest else none

/-- `isNumericASCII`. -/
def isNumericASCII (c : UInt8) : Bool := ch '0' ≤ c && c ≤ ch '9'

/-- What `readIntTextImpl<T>` uses of `std::numeric_limits<T>`: `limit negative`
is the largest magnitude of a value with that sign. -/
structure IntType where
  is_signed : Bool
  limit : Bool → ℕ

/-- `Int64`. -/
def IntType.int64 : IntType := ⟨true, fun negative => if negative then 2 ^ 63 else 2 ^ 63 - 1⟩

/-- `UInt32`. -/
def IntType.uint32 : IntType := ⟨false, fun _ => 2 ^ 32 - 1⟩

/-- The locals of `readIntTextImpl`; `res` is the magnitude read so far. -/
structure ReadIntState where
  negative : Bool := false
  res : ℕ := 0
  has_sign : Bool := false
  has_number : Bool := false

/-- The loop of `readIntTextImpl`: it stops in front of the first byte that
continues no number, and `none` is `return false`. -/
def readIntTextLoop (T : IntType) : ReadIntState → Bytes → Option (ReadIntState × Bytes)
  | st, [] => some (st, [])
  | st, c :: rest =>
    if c = ch '+' then
      -- a sign behind a digit ends the number
      if st.has_number then some (st, c :: rest)
      else if st.has_sign then none
      else readIntTextLoop T { st with has_sign := true } rest
    else if c = ch '-' then
      if st.has_number then some (st, c :: rest)
      else if st.has_sign then none
      else if T.is_signed then
        readIntTextLoop T { st with negative := true, has_sign := true } rest
      else none
    else if isNumericASCII c then
      let res := st.res * 10 + (c - ch '0').toNat
      if res ≤ T.limit st.negative then
        readIntTextLoop T { st with has_number := true, res := res } rest
      else none
    else some (st, c :: rest)

/-- `tryReadIntText`. A buffer that starts with neither a sign nor a digit gives
zero and reads nothing; only an empty buffer and a lone sign are refused. -/
def tryReadIntText (T : IntType) (buf : Bytes) : Option (ℤ × Bytes) :=
  if buf.isEmpty then none
  else
    match readIntTextLoop T {} buf with
    | none => none
    | some (st, rest) =>
      if st.has_sign && !st.has_number then none
      else some (if st.negative then -(st.res : ℤ) else st.res, rest)

/-! ## Reading back what was written -/

/-- A digit as a byte. -/
lemma toNat_ch_of_isDigit {c : Char} (h : c.isDigit = true) :
    (ch c).toNat = c.toNat ∧ 48 ≤ c.toNat ∧ c.toNat ≤ 57 := by
  simp only [Char.isDigit, Bool.and_eq_true, decide_eq_true_eq, UInt32.le_iff_toNat_le] at h
  have hbounds : 48 ≤ c.toNat ∧ c.toNat ≤ 57 := h
  refine ⟨?_, hbounds⟩
  exact Nat.mod_eq_of_lt (hbounds.2.trans_lt (by decide))

lemma isNumericASCII_ch {c : Char} (h : c.isDigit = true) : isNumericASCII (ch c) = true := by
  obtain ⟨htoNat, hlow, hhigh⟩ := toNat_ch_of_isDigit h
  simp only [isNumericASCII, Bool.and_eq_true, decide_eq_true_eq, UInt8.le_iff_toNat_le, htoNat]
  exact ⟨hlow, hhigh⟩

lemma le_ofDigitChars (cs : List Char) (res : ℕ) : res ≤ Nat.ofDigitChars 10 cs res := by
  induction cs generalizing res with
  | nil => exact le_rfl
  | cons c cs ih =>
    rw [Nat.ofDigitChars_cons]
    exact le_trans (by omega) (ih _)

variable (T : IntType)

/-- One digit. -/
lemma readIntTextLoop_digit (st : ReadIntState) {c : Char} (h : c.isDigit = true) (rest : Bytes) :
    readIntTextLoop T st (ch c :: rest) =
      if 10 * st.res + (c.toNat - '0'.toNat) ≤ T.limit st.negative then
        readIntTextLoop T
          { st with has_number := true, res := 10 * st.res + (c.toNat - '0'.toNat) } rest
      else none := by
  obtain ⟨htoNat, hlow, hhigh⟩ := toNat_ch_of_isDigit h
  have hplus : ch c ≠ ch '+' := fun heq => by
    have : (ch c).toNat = 43 := congrArg UInt8.toNat heq
    omega
  have hminus : ch c ≠ ch '-' := fun heq => by
    have : (ch c).toNat = 45 := congrArg UInt8.toNat heq
    omega
  have hdigit : (ch c - ch '0').toNat = c.toNat - '0'.toNat := by
    rw [UInt8.toNat_sub_of_le _ _ (UInt8.le_iff_toNat_le.2 (htoNat ▸ hlow)), htoNat]
    rfl
  rw [readIntTextLoop, if_neg hplus, if_neg hminus, if_pos (isNumericASCII_ch h), hdigit,
    mul_comm st.res]

/-- The digits of a number: the value is checked against the limit with every digit, and it
does not get less. -/
lemma readIntTextLoop_digits {cs : List Char} (hcs : ∀ c ∈ cs, c.isDigit = true)
    (hne : cs ≠ []) (st : ReadIntState) (rest : Bytes) :
    readIntTextLoop T st (cs.map ch ++ rest) =
      if Nat.ofDigitChars 10 cs st.res ≤ T.limit st.negative then
        readIntTextLoop T { st with has_number := true, res := Nat.ofDigitChars 10 cs st.res } rest
      else none := by
  induction cs generalizing st with
  | nil => exact absurd rfl hne
  | cons c cs ih =>
    obtain ⟨hc, hcs⟩ := List.forall_mem_cons.1 hcs
    rw [List.map_cons, List.cons_append, readIntTextLoop_digit T st hc, Nat.ofDigitChars_cons]
    by_cases hnil : cs = []
    · subst hnil
      rfl
    rw [ih hcs hnil]
    -- the value does not get less, so that a check that fails now fails at the end too
    have hle := le_ofDigitChars cs (10 * st.res + (c.toNat - '0'.toNat))
    split_ifs with h₁ h₂ h₂
    · rfl
    · rfl
    · exact absurd (hle.trans h₂) h₁
    · rfl

/-- **What `writeIntText` wrote is read back if the type has room for it**, up to a byte that
is not a digit. -/
theorem tryReadIntText_writeIntText (n : ℕ) {rest : Bytes}
    (hrest : ∀ c ∈ rest.head?, isNumericASCII c = false) :
    tryReadIntText T (writeIntText n ++ rest) =
      if n ≤ T.limit false then some ((n : ℤ), rest) else none := by
  have hdigits : ∀ c ∈ Nat.toDigits 10 n, c.isDigit = true := fun c hc =>
    Nat.isDigit_of_mem_toDigits (by decide) le_rfl hc
  have hwrite : writeIntText n = (Nat.toDigits 10 n).map ch := by
    rw [writeIntText, if_neg (Int.not_lt.2 (Int.natCast_nonneg n)), Int.natAbs_natCast, natText]
  have hempty : ((Nat.toDigits 10 n).map ch ++ rest).isEmpty = false := by
    simp [Nat.toDigits_ne_nil]
  -- The loop stops at the end of the digits.
  have hstop : ∀ st : ReadIntState, st.has_number = true →
      readIntTextLoop T st rest = some (st, rest) := by
    intro st hst
    cases rest with
    | nil => rfl
    | cons c rest =>
      have hc : isNumericASCII c = false := hrest c rfl
      simp only [readIntTextLoop, hst, hc, if_true, Bool.false_eq_true, if_false, ite_self]
  rw [hwrite, tryReadIntText, hempty, readIntTextLoop_digits T hdigits Nat.toDigits_ne_nil,
    Nat.ofDigitChars_toDigits (by decide) le_rfl]
  by_cases hle : n ≤ T.limit false
  · simp only [Bool.false_eq_true, if_false, if_pos hle, hstop { res := n, has_number := true } rfl]
    rfl
  · simp only [Bool.false_eq_true, if_false, if_neg hle]

end ClickHouse
