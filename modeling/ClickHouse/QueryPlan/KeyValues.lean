/-
Values of the primary key and their order (`compareValues` in
`src/Processors/QueryPlan/PartsSplitter.cpp`).

The values of a mark or of a row in the first columns of the key are compared column by
column, from the least to the greatest or the other way round. The direction is the same
for a whole call, so it is a part of the type here: values are then a linear order, in the
direction in which the parts are sorted, and what follows does not look at the direction
again.
-/
import ClickHouse.Core.Range
import ClickHouse.Lib.LexInterval

set_option autoImplicit false

namespace ClickHouse.PartsSplitter

open Lib

variable {α : Type*} [LinearOrder α]

/-- `Values`: those of the first `columns` columns of the key. -/
@[ext] structure Values (α : Type*) (columns : ℕ) (in_reverse_order : Bool) where
  fields : List (Field α)
  size : fields.length = columns

variable {columns : ℕ} {rev : Bool}

/-- The loop of `compareValues`, which goes up to the shorter of the two. -/
def compareFields (in_reverse_order : Bool) : List (Field α) → List (Field α) → Ordering
  | l :: lhs, r :: rhs =>
    if in_reverse_order then
      if r < l then .lt else if ¬ r = l then .gt else compareFields in_reverse_order lhs rhs
    else
      if l < r then .lt else if ¬ l = r then .gt else compareFields in_reverse_order lhs rhs
  | _, _ => .eq

/-- `compareValues`; -1, 0 and 1 are the three values of `Ordering`. -/
def compareValues (lhs rhs : Values α columns rev) : Ordering :=
  compareFields rev lhs.fields rhs.fields

/-! ## The order -/

namespace Values

omit [LinearOrder α] in
lemma fields_injective : Function.Injective (fields : Values α columns rev → List (Field α)) :=
  fun _ _ => Values.ext

instance linearOrder : LinearOrder (Values α columns rev) :=
  match rev with
  | false => LinearOrder.lift' fields fields_injective
  | true => LinearOrder.lift' (fun v => OrderDual.toDual v.fields)
      (fun _ _ h => fields_injective (OrderDual.toDual.injective h))

/-- What the key expressions of a row or a mark are, column by column, cut to the first
`columns` of them. -/
def ofKey (key : ℕ → Field α) : Values α columns rev :=
  ⟨tuple 0 columns key, by rw [tuple, List.length_map, List.length_range']⟩

end Values

/-- The other direction is the same loop with the two sides exchanged. -/
lemma compareFields_true (l r : List (Field α)) :
    compareFields true l r = compareFields false r l := by
  induction l generalizing r with
  | nil => cases r <;> rfl
  | cons x l ih =>
    cases r with
    | nil => rfl
    | cons y r =>
      rw [compareFields, compareFields, ih]
      rfl

lemma compareFields_compares {l r : List (Field α)} (h : l.length = r.length) :
    (compareFields false l r).Compares l r := by
  induction l generalizing r with
  | nil =>
    cases r with
    | nil => exact rfl
    | cons => cases h
  | cons x l ih =>
    cases r with
    | nil => cases h
    | cons y r =>
      rw [compareFields, if_neg Bool.false_ne_true]
      split_ifs with hlt heq
      · exact List.Lex.rel hlt
      · -- Equal in this column: the rest of the columns decide.
        subst heq
        have hrest := ih (Nat.succ.inj h)
        cases hc : compareFields false l r with
        | lt => exact List.Lex.cons (hrest.eq_lt.1 hc)
        | eq => exact congrArg _ (hrest.eq_eq.1 hc)
        | gt => exact List.Lex.cons (hrest.eq_gt.1 hc)
      · exact List.Lex.rel (lt_of_le_of_ne (not_lt.1 hlt) (Ne.symm heq))

/-- `compareValues` tells how two values stand in the order of their direction. -/
lemma compareValues_compares (a b : Values α columns rev) : (compareValues a b).Compares a b := by
  have hsize : a.fields.length = b.fields.length := a.size.trans b.size.symm
  rw [compareValues]
  cases rev with
  | false =>
    have hc := compareFields_compares hsize
    cases ho : compareFields false a.fields b.fields with
    | lt => exact hc.eq_lt.1 ho
    | eq => exact Values.ext (hc.eq_eq.1 ho)
    | gt => exact hc.eq_gt.1 ho
  | true =>
    have hc := compareFields_compares hsize.symm
    rw [compareFields_true]
    cases ho : compareFields false b.fields a.fields with
    | lt => exact hc.eq_lt.1 ho
    | eq => exact Values.ext (hc.eq_eq.1 ho).symm
    | gt => exact hc.eq_gt.1 ho

variable {a b : Values α columns rev}

lemma compareValues_eq_lt : compareValues a b = .lt ↔ a < b := (compareValues_compares a b).eq_lt

lemma compareValues_eq_eq : compareValues a b = .eq ↔ a = b := (compareValues_compares a b).eq_eq

lemma compareValues_eq_gt : compareValues a b = .gt ↔ b < a := (compareValues_compares a b).eq_gt

/-! ## Fewer columns -/

variable {f g : ℕ → Field α}

/-- Keys in order in some columns are in order in fewer of them. -/
lemma Values.ofKey_le_of_le {m n : ℕ} (hmn : m ≤ n)
    (h : (ofKey f : Values α n rev) ≤ ofKey g) : (ofKey f : Values α m rev) ≤ ofKey g := by
  cases rev with
  | false => exact tuple_le_of_le hmn h
  | true => exact tuple_le_of_le hmn h

omit [LinearOrder α] in
lemma Values.ofKey_eq_iff :
    (ofKey f : Values α columns rev) = ofKey g ↔ ∀ i < columns, f i = g i := by
  rw [Values.ext_iff]
  change (List.range' 0 columns).map f = (List.range' 0 columns).map g ↔ _
  simp only [List.map_inj_left, ← List.range_eq_range', List.mem_range]

end ClickHouse.PartsSplitter
