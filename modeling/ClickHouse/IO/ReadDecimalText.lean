/-
Decimals from text: `readDigits` and `readDecimalText` (`src/IO/readDecimalText.h`).

A `ReadBuffer` over a string is the bytes not read yet. The counters `digits` and `places`
are unsigned and wrap at 2^32, the number itself wraps at the width of its type; an overflow
of the `Int32` exponent is undefined behaviour, and so is one of the sums it is compared by:
`signedOverflow`. The variant that returns `false` where the other one throws does so at the
same places. An error has the values that its message is made of.
-/
import ClickHouse.IO.Text

set_option autoImplicit false

namespace ClickHouse.DecimalText

/-! ## Native types -/

/-- `T::NativeType`. -/
inductive NativeType where
  | Int32
  | Int64
  | Int128
  | Int256
  deriving DecidableEq

def NativeType.bits : NativeType → ℕ
  | .Int32 => 32
  | .Int64 => 64
  | .Int128 => 128
  | .Int256 => 256

/-- `std::numeric_limits<T::NativeType>::digits10`, which is also the greatest precision. -/
def NativeType.digits10 : NativeType → ℕ
  | .Int32 => 9
  | .Int64 => 18
  | .Int128 => 38
  | .Int256 => 76

/-- A result in the native type. -/
def NativeType.wrap (T : NativeType) (z : ℤ) : ℤ := Int.bmod z (2 ^ T.bits)

/-- `intExp10OfSize`. -/
def intExp10OfSize (T : NativeType) (x : ℕ) : ℤ :=
  if x > T.digits10 then 2 ^ (T.bits - 1) - 1 else 10 ^ x

/-- `Int32`. -/
def int32 : IntType := ⟨true, fun negative => if negative then 2 ^ 31 else 2 ^ 31 - 1⟩

/-! ## Errors -/

/-- The exceptions of `readDecimalText`. -/
inductive ReadError where
  | ATTEMPT_TO_READ_AFTER_EOF
  | tooManyDigits (digits max_digits : ℕ)
  | cannotParseExponent
  | unexpectedSymbol
  | tooBig (digits : ℕ) (x exponent : ℤ) (scale precision : ℕ)
  deriving DecidableEq

/-- An exception, or an overflow that has no defined result. -/
inductive Failure where
  | error (e : ReadError)
  | signedOverflow
  deriving DecidableEq

/-- A sum in `Int32`. -/
def checkInt32 (z : ℤ) : Except Failure ℤ :=
  if -2 ^ 31 ≤ z ∧ z < 2 ^ 31 then .ok z else .error .signedOverflow

/-! ## Reading -/

/-- The locals of `readDigits`. -/
@[ext]
structure DigitsState where
  x : ℤ := 0
  digits : ℕ := 0
  places : ℕ := 0
  exponent : ℤ := 0
  leading_zeroes : Bool := true
  after_point : Bool := false
  deriving DecidableEq

/-- A digit that counts, with the zeros in front of it that `places` has. -/
def acceptDigit (T : NativeType) (st : DigitsState) (places digit : ℕ) : DigitsState :=
  { st with
    leading_zeroes := false
    digits := (st.digits + places) % 2 ^ 32
    exponent := if st.after_point then st.exponent - places else st.exponent
    x := T.wrap (T.wrap (st.x * intExp10OfSize T places) + digit)
    places := 0 }

/-- The loop of `readDigits`. -/
def readDigitsLoop (T : NativeType) (max_digits : ℕ) (digits_only : Bool) :
    DigitsState → Bytes → Except Failure (DigitsState × Bytes)
  | st, [] => .ok (st, [])
  | st, byte :: buf =>
    if byte = ch '.' then
      readDigitsLoop T max_digits digits_only
        { st with after_point := true, leading_zeroes := false } buf
    else if byte = ch '0' && st.leading_zeroes then readDigitsLoop T max_digits digits_only st buf
    else if byte = ch '0' && st.after_point then
      readDigitsLoop T max_digits digits_only { st with places := (st.places + 1) % 2 ^ 32 } buf
    else if isNumericASCII byte then
      let places := (st.places + 1) % 2 ^ 32
      if (st.digits + places) % 2 ^ 32 > max_digits then
        if st.after_point then
          -- simply cut excessive digits
          readDigitsLoop T max_digits digits_only
            { st with leading_zeroes := false, places := places } buf
        else .error (.error (.tooManyDigits ((st.digits + places) % 2 ^ 32) max_digits))
      else
        readDigitsLoop T max_digits digits_only (acceptDigit T st places (byte - ch '0').toNat) buf
    else if byte = ch 'e' || byte = ch 'E' then
      match tryReadIntText int32 buf with
      | none => .error (.error .cannotParseExponent)
      | some (addition_exp, buf) =>
        (checkInt32 (st.exponent + addition_exp)).map fun exponent =>
          ({ st with exponent := exponent }, buf)
    else if digits_only then .error (.error .unexpectedSymbol)
    else .ok (st, byte :: buf)

/-- The sign, and what follows it. -/
def readSign : Bytes → ℤ × Bytes
  | [] => (1, [])
  | byte :: buf =>
    if byte = ch '-' then (-1, buf) else if byte = ch '+' then (1, buf) else (1, byte :: buf)

/-- `readDigits`: the number, the digits it has, the exponent, and what is left. -/
def readDigits (T : NativeType) (buf : Bytes) (max_digits : ℕ) (digits_only : Bool) :
    Except Failure (ℤ × ℕ × ℤ × Bytes) :=
  if buf = [] then .error (.error .ATTEMPT_TO_READ_AFTER_EOF)
  else
    let (sign, buf) := readSign buf
    (readDigitsLoop T max_digits digits_only {} buf).map fun (st, buf) =>
      (T.wrap (st.x * sign), st.digits, st.exponent, buf)

/-- `readDecimalText`: the number and the scale that is left, and the rest of the buffer. -/
def readDecimalText (T : NativeType) (buf : Bytes) (precision scale : ℕ) (digits_only : Bool) :
    Except Failure (ℤ × ℕ × Bytes) := do
  let (x, digits, exponent, buf) ← readDigits T buf precision digits_only
  let needed ← checkInt32 (digits + exponent)
  if needed > ((precision - scale : ℕ) : ℤ) then
    .error (.error (.tooBig digits x exponent scale precision))
  else if scale + exponent < 0 then do
    let negated ← checkInt32 (-exponent)
    let divisor_exp := negated - scale
    if divisor_exp ≥ T.digits10 then return (0, 0, buf)
    return (x.tdiv (intExp10OfSize T divisor_exp.toNat), 0, buf)
  else return (x, (scale + exponent).toNat, buf)

end ClickHouse.DecimalText
