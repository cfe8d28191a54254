/-
The base types of the model: `String` as bytes, exceptions and faults.

A `std::string` is a sequence of bytes with no encoding, compared byte by byte;
`Bytes` is that type, and its order is the lexicographic one.
-/
import Mathlib

set_option autoImplicit false

namespace ClickHouse

/-- Bytes are ordered as `unsigned char`. -/
instance linearOrderUInt8 : LinearOrder UInt8 where
  le_refl := UInt8.le_refl
  le_trans _ _ _ := UInt8.le_trans
  le_antisymm _ _ := UInt8.le_antisymm
  le_total := UInt8.le_total
  lt_iff_le_not_ge a b := by
    rw [UInt8.not_le]
    exact ⟨fun h => ⟨UInt8.le_of_lt h, h⟩, fun h => h.2⟩
  toDecidableLE := inferInstance
  toDecidableEq := inferInstance
  toDecidableLT := inferInstance

/-- `DB::String`. -/
abbrev Bytes : Type := List UInt8

/-- A character literal of the source. -/
def ch (c : Char) : UInt8 := c.val.toUInt8

/-- A string literal of the source. -/
def str (s : String) : Bytes := s.toUTF8.toList

/-- The members of `ErrorCodes` that modelled code throws. -/
inductive ErrorCode where
  | LOGICAL_ERROR
  | BAD_DATA_PART_NAME
  | ARGUMENT_OUT_OF_BOUND
  | CANNOT_PARSE_ESCAPE_SEQUENCE
  | VIOLATED_CONSTRAINT
  | INCORRECT_QUERY
  | TOO_FEW_ARGUMENTS_FOR_FUNCTION
  | CANNOT_COMPRESS
  | CANNOT_DECOMPRESS
  | ABORTED
  deriving DecidableEq, Repr

/-- `DB::Exception`. -/
structure Exception where
  code : ErrorCode
  message : Bytes
  deriving DecidableEq, Repr

/-- How an evaluation can fail: by an exception, or by what C++ leaves undefined. -/
inductive Fault where
  | exception (e : Exception)
  | undefined_behaviour
  deriving DecidableEq, Repr

lemma bind_eq_ok {ε : Type*} {α β : Type _} {x : Except ε α} {f : α → Except ε β} {b : β} :
    x >>= f = .ok b ↔ ∃ a, x = .ok a ∧ f a = .ok b := by
  cases x <;> simp [bind, Except.bind]

/-- The result of code that may throw. -/
abbrev Eval (β : Type*) : Type _ := Except Fault β

def throwException {β : Type*} (code : ErrorCode) (message : Bytes) : Eval β :=
  .error (.exception ⟨code, message⟩)

end ClickHouse
