/-
The values of a column and their comparison (`IColumn::compareAt`).

A value is a NULL, a NaN, an integer or a value of any other type with an order, such as a
floating-point number that is not NaN. Values that compare equal need not be equal: `0.0`
and `-0.0` of a floating-point column are an example. `nan_direction_hint` says whether
NULLs come after or before all other values, and whether NaNs come after or before all
values but these; whether two values compare equal does not depend on it.
-/
import ClickHouse.Lib.LexCompare
import ClickHouse.Core.Types

set_option autoImplicit false

namespace ClickHouse.Column

/-- A value of a column: NULL, NaN and integers are told apart by the comparisons. -/
inductive Value (V : Type) where
  | null
  | nan
  | int (z : ℤ)
  | other (v : V)
deriving DecidableEq, Repr

/-- The result of a comparison in C++. -/
def sign : Ordering → ℤ
  | .lt => -1
  | .eq => 0
  | .gt => 1

/-- `IColumn::compareAt` of a column that may be nullable. Values of different types are
not in one column. -/
def compareAt {V : Type} [Ord V] (x y : Value V) (nan_direction_hint : ℤ) : ℤ :=
  match x, y with
  | .null, .null => 0
  | .null, _ => nan_direction_hint
  | _, .null => -nan_direction_hint
  | .nan, .nan => 0
  | .nan, _ => nan_direction_hint
  | _, .nan => -nan_direction_hint
  | .int a, .int b => sign (compare a b)
  | .int _, .other _ => -1
  | .other _, .int _ => 1
  | .other a, .other b => sign (compare a b)

section

variable {V : Type} [Ord V] [Std.TransOrd V] {hint : ℤ}

lemma sign_swap (o : Ordering) : sign o.swap = -sign o := by
  cases o <;> rfl

lemma sign_nonpos {o : Ordering} : sign o ≤ 0 ↔ o.isLE = true := by
  cases o <;> decide

lemma sign_nonneg {o : Ordering} : 0 ≤ sign o ↔ o.isGE = true := by
  cases o <;> decide

lemma compareAt_swap (x y : Value V) (hint : ℤ) : compareAt y x hint = -compareAt x y hint := by
  cases x <;> cases y <;> simp only [compareAt, neg_neg, neg_zero]
  · rw [← sign_swap, ← Std.OrientedCmp.eq_swap]
  · rw [← sign_swap, ← Std.OrientedCmp.eq_swap]

lemma compareAt_trans {x y z : Value V} (hhint : hint = 1 ∨ hint = -1)
    (hxy : compareAt x y hint ≤ 0) (hyz : compareAt y z hint ≤ 0) : compareAt x z hint ≤ 0 := by
  rcases hhint with rfl | rfl <;> cases x <;> cases y <;> cases z <;>
    simp only [compareAt, sign_nonpos] at hxy hyz ⊢ <;>
    first
      | exact Std.TransCmp.isLE_trans hxy hyz
      | omega

/-- **A column has an order**, with the NULLs at either end. -/
theorem isComparison_compareAt (hhint : hint = 1 ∨ hint = -1) :
    Lib.IsComparison fun x y : Value V => compareAt x y hint :=
  ⟨fun x y => compareAt_swap x y hint, fun hxy hyz => compareAt_trans hhint hxy hyz⟩

omit [Std.TransOrd V] in
/-- Equal values are the same for every place of the NULLs. -/
lemma compareAt_eq_zero_iff (hhint : hint = 1 ∨ hint = -1) (x y : Value V) :
    compareAt x y hint = 0 ↔ compareAt x y 1 = 0 := by
  rcases hhint with rfl | rfl
  · rfl
  · cases x <;> cases y <;> simp [compareAt]

end

end ClickHouse.Column
