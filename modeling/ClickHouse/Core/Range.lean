/-
`Field`, `FieldRef` and `Range` (`src/Core/Field.h`, `src/Core/Range.{h,cpp}`):
the values an index compares, and ranges of them with open or closed ends.

A key column is compared as one linear order: `NEGATIVE_INFINITY` below every
value, `POSITIVE_INFINITY` above, and a `NULL` of the column read as
`POSITIVE_INFINITY` (NULLS LAST). On these `Range::less` and `Range::equals` are
`<` and `=`; values are any linear order, so NaN is outside the model.

`Range` closes an open end when the value is an integer (`(0, 2)` becomes `[1, 1]`).
What this changes depends on the column the range is about: `DataType` carries the
law that makes it harmless, and `mem_shrinkToIncludedIfPossible` is the only place
that uses it.
-/
import ClickHouse.Core.Types

set_option autoImplicit false

namespace ClickHouse

/-! ## Fields -/

/-- `Field`, as ranges use it, with the two infinities. -/
inductive Field (α : Type*) where
  | NEGATIVE_INFINITY
  | value (a : α)
  | POSITIVE_INFINITY
  deriving DecidableEq, Repr

namespace Field

variable {α : Type*}

/-- The order of fields is that of the values between the infinities. -/
def toWithBot : Field α → WithBot (WithTop α)
  | NEGATIVE_INFINITY => ⊥
  | value a => ((a : WithTop α) : WithBot (WithTop α))
  | POSITIVE_INFINITY => ((⊤ : WithTop α) : WithBot (WithTop α))

lemma toWithBot_injective : Function.Injective (toWithBot (α := α)) := by
  intro x y h
  have htop : (⊥ : WithBot (WithTop α)) ≠ ((⊤ : WithTop α) : WithBot (WithTop α)) :=
    WithBot.bot_ne_coe
  cases x <;> cases y <;> simp_all [toWithBot]

instance linearOrder [LinearOrder α] : LinearOrder (Field α) :=
  LinearOrder.lift' toWithBot toWithBot_injective

variable [LinearOrder α] {x y : Field α}

lemma le_def : x ≤ y ↔ x.toWithBot ≤ y.toWithBot := Iff.rfl

lemma lt_def : x < y ↔ x.toWithBot < y.toWithBot := Iff.rfl

@[simp] lemma value_le_value {a b : α} : value a ≤ value b ↔ a ≤ b := by
  simp [le_def, toWithBot]

@[simp] lemma value_lt_value {a b : α} : value a < value b ↔ a < b := by
  simp [lt_def, toWithBot]

@[simp] lemma negInf_le (x : Field α) : NEGATIVE_INFINITY ≤ x := by
  simp [le_def, toWithBot]

@[simp] lemma le_posInf (x : Field α) : x ≤ POSITIVE_INFINITY := by
  cases x <;> simp [le_def, toWithBot]

@[simp] lemma negInf_lt_value (a : α) : NEGATIVE_INFINITY < value a := by
  simp [lt_def, toWithBot]

@[simp] lemma value_lt_posInf (a : α) : value a < POSITIVE_INFINITY :=
  WithBot.coe_lt_coe.2 (WithTop.coe_lt_top a)

@[simp] lemma negInf_lt_posInf : (NEGATIVE_INFINITY : Field α) < POSITIVE_INFINITY := by
  simp [lt_def, toWithBot]

@[simp] lemma not_lt_negInf (x : Field α) : ¬ x < NEGATIVE_INFINITY := not_lt.2 (negInf_le x)

@[simp] lemma not_posInf_lt (x : Field α) : ¬ POSITIVE_INFINITY < x := not_lt.2 (le_posInf x)

lemma negInf_lt_iff {x : Field α} : NEGATIVE_INFINITY < x ↔ x ≠ NEGATIVE_INFINITY := by
  cases x <;> simp

end Field

/-- A field, either standalone (explicit) or read from a block. -/
structure FieldRef (α : Type*) where
  field : Field α
  isExplicit : Bool := true
  deriving DecidableEq, Repr

/-- The increment and decrement of the "loose" value types, `UInt64` and `Int64`;
`none` at the ends of the type and for every other type. -/
class LooseField (α : Type*) where
  next? : α → Option α
  prev? : α → Option α

/-! ## Ranges -/

/-- `Range`: with an end that is not included, the range is open there. -/
structure Range (α : Type*) where
  left : FieldRef α
  right : FieldRef α
  left_included : Bool
  right_included : Bool
  deriving DecidableEq, Repr

namespace Range

variable {α : Type*}

/-- One point. -/
def point (x : FieldRef α) : Range α := ⟨x, x, true, true⟩

/-- An excluded left end that has a next value moves there. -/
def shrinkLeft [LooseField α] (r : Range α) : Range α :=
  match r.left, r.left_included with
  | ⟨.value a, true⟩, false =>
    match LooseField.next? a with
    | some b => { r with left := ⟨.value b, true⟩, left_included := true }
    | none => r
  | _, _ => r

/-- An excluded right end that has a previous value moves there. -/
def shrinkRight [LooseField α] (r : Range α) : Range α :=
  match r.right, r.right_included with
  | ⟨.value a, true⟩, false =>
    match LooseField.prev? a with
    | some b => { r with right := ⟨.value b, true⟩, right_included := true }
    | none => r
  | _, _ => r

/-- Some cases where an excluded end can be made included. -/
def shrinkToIncludedIfPossible [LooseField α] (r : Range α) : Range α :=
  r.shrinkLeft.shrinkRight

/-- A bounded two-sided range. -/
def bounded [LooseField α] (left : FieldRef α) (left_included : Bool) (right : FieldRef α)
    (right_included : Bool) : Range α :=
  shrinkToIncludedIfPossible ⟨left, right, left_included, right_included⟩

/-- All values, and NULL at an infinity. -/
def createWholeUniverse : Range α :=
  ⟨⟨.NEGATIVE_INFINITY, true⟩, ⟨.POSITIVE_INFINITY, true⟩, true, true⟩

/-- All values without NULL. -/
def createWholeUniverseWithoutNull : Range α :=
  ⟨⟨.NEGATIVE_INFINITY, true⟩, ⟨.POSITIVE_INFINITY, true⟩, false, false⟩

def wholeUniverse (with_null : Bool) : Range α :=
  if with_null then createWholeUniverse else createWholeUniverseWithoutNull

/-- A range up to a point. With NULL, minus infinity is included. -/
def createRightBounded [LooseField α] [DecidableEq α] (right_point : FieldRef α)
    (right_included with_null : Bool) : Range α :=
  let r := shrinkToIncludedIfPossible
    { wholeUniverse with_null with right := right_point, right_included := right_included }
  -- special case for [-Inf, -Inf]
  if r.right.field = .NEGATIVE_INFINITY ∧ right_included = true then
    { r with left_included := true }
  else r

/-- A range from a point on. With NULL, plus infinity is included. -/
def createLeftBounded [LooseField α] [DecidableEq α] (left_point : FieldRef α)
    (left_included with_null : Bool) : Range α :=
  let r := shrinkToIncludedIfPossible
    { wholeUniverse with_null with left := left_point, left_included := left_included }
  -- special case for [+Inf, +Inf]
  if r.left.field = .POSITIVE_INFINITY ∧ left_included = true then { r with right_included := true }
  else r

section Order

variable [LinearOrder α]

def intersectsRange (s r : Range α) : Bool :=
  -- r to the left of me, r to the right of me
  !(decide (r.right.field < s.left.field)
      || ((!s.left_included || !r.right_included) && decide (r.right.field = s.left.field)))
    && !(decide (s.right.field < r.left.field)
      || ((!s.right_included || !r.left_included) && decide (r.left.field = s.right.field)))

def containsRange (s r : Range α) : Bool :=
  -- r starts to the left of me, r ends right of me
  !(decide (r.left.field < s.left.field)
      || ((r.left_included && !s.left_included) && decide (r.left.field = s.left.field)))
    && !(decide (s.right.field < r.right.field)
      || ((r.right_included && !s.right_included) && decide (r.right.field = s.right.field)))

def empty (r : Range α) : Bool :=
  decide (r.right.field < r.left.field)
    || ((!r.left_included || !r.right_included) && !decide (r.left.field < r.right.field))

/-- The larger left end and the smaller right end; at equal ends both have to be included. -/
def intersect (a b : Range α) : Range α :=
  let (left, left_included) :=
    if a.left.field < b.left.field then (b.left, b.left_included)
    else if a.left.field = b.left.field then (a.left, a.left_included && b.left_included)
    else (a.left, a.left_included)
  let (right, right_included) :=
    if a.right.field < b.right.field then (a.right, a.right_included)
    else if a.right.field = b.right.field then (a.right, a.right_included && b.right_included)
    else (b.right, b.right_included)
  let res : Range α := ⟨left, right, left_included, right_included⟩
  if res.empty then ⟨res.left, res.left, false, false⟩ else res

end Order

/-- Invert left and right. -/
def invert [DecidableEq α] (r : Range α) : Range α :=
  ⟨if r.right.field = .POSITIVE_INFINITY then ⟨.NEGATIVE_INFINITY, true⟩ else r.right,
    if r.left.field = .NEGATIVE_INFINITY then ⟨.POSITIVE_INFINITY, true⟩ else r.left,
    r.right_included, r.left_included⟩

/-! ## What a range means -/

section Mem

variable [LinearOrder α]

/-- The point is not to the left of the range. -/
def AboveLeft (r : Range α) (x : Field α) : Prop :=
  r.left.field < x ∨ (r.left_included = true ∧ x = r.left.field)

/-- The point is not to the right of the range. -/
def BelowRight (r : Range α) (x : Field α) : Prop :=
  x < r.right.field ∨ (r.right_included = true ∧ x = r.right.field)

/-- The points of a range. -/
def Mem (r : Range α) (x : Field α) : Prop := r.AboveLeft x ∧ r.BelowRight x

instance decidableMem (r : Range α) (x : Field α) : Decidable (r.Mem x) :=
  inferInstanceAs (Decidable ((_ ∨ (_ ∧ _)) ∧ (_ ∨ (_ ∧ _))))

lemma mem_point {x : FieldRef α} {y : Field α} : (point x).Mem y ↔ y = x.field := by
  constructor
  · rintro ⟨h | ⟨-, h⟩, h' | ⟨-, h'⟩⟩
    · exact absurd (h.trans h') (lt_irrefl _)
    · exact h'
    · exact h
    · exact h
  · intro h
    exact ⟨.inr ⟨rfl, h⟩, .inr ⟨rfl, h⟩⟩

variable {x : Field α} {r : Range α}

lemma aboveLeft_iff :
    r.AboveLeft x ↔ r.left.field ≤ x ∧ (x = r.left.field → r.left_included = true) := by
  constructor
  · rintro (h | ⟨hinc, h⟩)
    · exact ⟨h.le, fun heq => absurd h (heq ▸ lt_irrefl _)⟩
    · exact ⟨h.ge, fun _ => hinc⟩
  · rintro ⟨hle, hinc⟩
    rcases hle.lt_or_eq with h | h
    · exact .inl h
    · exact .inr ⟨hinc h.symm, h.symm⟩

lemma belowRight_iff :
    r.BelowRight x ↔ x ≤ r.right.field ∧ (x = r.right.field → r.right_included = true) := by
  constructor
  · rintro (h | ⟨hinc, h⟩)
    · exact ⟨h.le, fun heq => absurd h (heq ▸ lt_irrefl _)⟩
    · exact ⟨h.le, fun _ => hinc⟩
  · rintro ⟨hle, hinc⟩
    rcases hle.lt_or_eq with h | h
    · exact .inl h
    · exact .inr ⟨hinc h, h⟩

variable {s r : Range α}

lemma intersectsRange_iff :
    s.intersectsRange r = true ↔
      (s.left.field ≤ r.right.field ∧
        (r.right.field = s.left.field → s.left_included = true ∧ r.right_included = true)) ∧
      (r.left.field ≤ s.right.field ∧
        (r.left.field = s.right.field → s.right_included = true ∧ r.left_included = true)) := by
  simp only [intersectsRange, Bool.and_eq_true, Bool.not_eq_true', Bool.or_eq_false_iff,
    decide_eq_false_iff_not, not_lt, Bool.and_eq_false_iff, Bool.not_eq_false']
  grind

lemma containsRange_iff :
    s.containsRange r = true ↔
      (s.left.field ≤ r.left.field ∧
        (r.left.field = s.left.field → r.left_included = true → s.left_included = true)) ∧
      (r.right.field ≤ s.right.field ∧
        (r.right.field = s.right.field → r.right_included = true → s.right_included = true)) := by
  simp only [containsRange, Bool.and_eq_true, Bool.not_eq_true', Bool.or_eq_false_iff,
    decide_eq_false_iff_not, not_lt, Bool.and_eq_false_iff, Bool.not_eq_false']
  grind

/-- **A range that meets another one in a point** is reported to intersect it. -/
theorem intersectsRange_of_mem (hs : s.Mem x) (hr : r.Mem x) : s.intersectsRange r = true := by
  obtain ⟨hsl, hsr⟩ := hs
  obtain ⟨hrl, hrr⟩ := hr
  rw [aboveLeft_iff] at hsl hrl
  rw [belowRight_iff] at hsr hrr
  rw [intersectsRange_iff]
  refine ⟨⟨hsl.1.trans hrr.1, ?_⟩, hrl.1.trans hsr.1, ?_⟩
  -- where the ends touch, the point is that end of both ranges
  · intro heq
    have hx : x = s.left.field := le_antisymm (heq ▸ hrr.1) hsl.1
    exact ⟨hsl.2 hx, hrr.2 (hx.trans heq.symm)⟩
  · intro heq
    have hx : x = s.right.field := le_antisymm hsr.1 (heq ▸ hrl.1)
    exact ⟨hsr.2 hx, hrl.2 (hx.trans heq.symm)⟩

/-- **A range reported to contain another one** has all its points. -/
theorem mem_of_containsRange (h : s.containsRange r = true) (hr : r.Mem x) : s.Mem x := by
  obtain ⟨hrl, hrr⟩ := hr
  rw [aboveLeft_iff] at hrl
  rw [belowRight_iff] at hrr
  obtain ⟨⟨hl, hli⟩, hr, hri⟩ := containsRange_iff.1 h
  refine ⟨aboveLeft_iff.2 ⟨hl.trans hrl.1, ?_⟩, belowRight_iff.2 ⟨hrr.1.trans hr, ?_⟩⟩
  · intro hx
    have heq : r.left.field = s.left.field := le_antisymm (hx ▸ hrl.1) hl
    exact hli heq (hrl.2 (hx.trans heq.symm))
  · intro hx
    have heq : r.right.field = s.right.field := le_antisymm hr (hx ▸ hrr.1)
    exact hri heq (hrr.2 (hx.trans heq.symm))

end Mem

end Range

/-! ## Key columns -/

/-- The type of a key column: whether it is Nullable, and its values. Of these the
law of the loose types holds: the increment leaves no value out. -/
structure DataType (α : Type*) [LinearOrder α] [LooseField α] where
  nullable : Bool
  values : α → Prop
  next_le : ∀ a b x, values a → LooseField.next? a = some b → values x → (a < x ↔ b ≤ x)
  le_prev : ∀ a b x, values a → LooseField.prev? a = some b → values x → (x < a ↔ x ≤ b)

namespace DataType

variable {α : Type*} [LinearOrder α] [LooseField α]

/-- What a row can hold in the column: a value, or NULL if it is Nullable. -/
def Holds (d : DataType α) : Field α → Prop
  | .NEGATIVE_INFINITY => False
  | .value a => d.values a
  | .POSITIVE_INFINITY => d.nullable = true

/-- What a key of the index can hold for the column: also an infinity, for a column
that is not loaded and for the end of the part. -/
def Bounds (d : DataType α) : Field α → Prop
  | .value a => d.values a
  | _ => True

end DataType

namespace Range

variable {α : Type*} [LinearOrder α] [LooseField α]

variable {x : Field α} {r : Range α}

variable (d : DataType α)

variable (hx : d.Holds x)

include hx in
/-- Moving an excluded left end to the next value keeps the points. -/
lemma aboveLeft_shrinkLeft (hleft : d.Bounds r.left.field) :
    r.shrinkLeft.AboveLeft x ↔ r.AboveLeft x := by
  unfold shrinkLeft
  split
  · rename_i a hl hinc
    cases hnext : LooseField.next? a with
    | none => rfl
    | some b =>
      rw [hl] at hleft
      unfold AboveLeft
      simp only [hl, hinc, Bool.false_eq_true, false_and, or_false, true_and]
      cases x with
      | NEGATIVE_INFINITY => exact hx.elim
      | POSITIVE_INFINITY => simp
      | value y =>
        rw [Field.value_lt_value, Field.value_lt_value, Field.value.injEq,
          d.next_le a b y hleft hnext hx, le_iff_lt_or_eq, eq_comm]
  · rfl

include hx in
/-- Moving an excluded right end to the previous value keeps the points. -/
lemma belowRight_shrinkRight (hright : d.Bounds r.right.field) :
    r.shrinkRight.BelowRight x ↔ r.BelowRight x := by
  unfold shrinkRight
  split
  · rename_i a hr hinc
    cases hprev : LooseField.prev? a with
    | none => rfl
    | some b =>
      rw [hr] at hright
      unfold BelowRight
      simp only [hr, hinc, Bool.false_eq_true, false_and, or_false, true_and]
      cases x with
      | NEGATIVE_INFINITY => exact hx.elim
      | POSITIVE_INFINITY => simp
      | value y =>
        rw [Field.value_lt_value, Field.value_lt_value, Field.value.injEq,
          d.le_prev a b y hright hprev hx, le_iff_lt_or_eq]
  · rfl

/-! Closing an end leaves the other one alone. -/

lemma belowRight_shrinkLeft : r.shrinkLeft.BelowRight x ↔ r.BelowRight x := by
  unfold shrinkLeft
  split
  · split <;> rfl
  · rfl

omit [LinearOrder α] in
lemma shrinkLeft_right (r : Range α) : r.shrinkLeft.right = r.right := by
  unfold shrinkLeft
  split
  · split <;> rfl
  · rfl

lemma aboveLeft_shrinkRight : r.shrinkRight.AboveLeft x ↔ r.AboveLeft x := by
  unfold shrinkRight
  split
  · split <;> rfl
  · rfl

include hx in
/-- **Closing open ends** changes no range as a set of what rows can hold. -/
theorem mem_shrinkToIncludedIfPossible
    (hleft : d.Bounds r.left.field) (hright : d.Bounds r.right.field) :
    r.shrinkToIncludedIfPossible.Mem x ↔ r.Mem x := by
  unfold shrinkToIncludedIfPossible Mem
  rw [aboveLeft_shrinkRight, aboveLeft_shrinkLeft d hx hleft,
    belowRight_shrinkRight d hx (by rwa [shrinkLeft_right]), belowRight_shrinkLeft]

variable {l r : FieldRef α}

section

include hx

lemma mem_bounded_iff (hl : d.Bounds l.field) (hr : d.Bounds r.field)
    (left_included right_included : Bool) :
    (bounded l left_included r right_included).Mem x ↔
      (if left_included then l.field ≤ x else l.field < x) ∧
        if right_included then x ≤ r.field else x < r.field := by
  rw [bounded, mem_shrinkToIncludedIfPossible d hx hl hr, Mem, AboveLeft, BelowRight]
  cases left_included <;> cases right_included <;> simp [le_iff_lt_or_eq, eq_comm]

end

omit [LinearOrder α] [LooseField α] in
lemma wholeUniverse_eq (with_null : Bool) : (wholeUniverse with_null : Range α) =
    ⟨⟨.NEGATIVE_INFINITY, true⟩, ⟨.POSITIVE_INFINITY, true⟩, with_null, with_null⟩ := by
  cases with_null <;> rfl

section

include hx

lemma mem_wholeUniverse : (wholeUniverse d.nullable).Mem x := by
  rw [wholeUniverse_eq, Mem, aboveLeft_iff, belowRight_iff]
  refine ⟨⟨Field.negInf_le x, ?_⟩, Field.le_posInf x, ?_⟩
  · rintro rfl
    exact hx.elim
  · rintro rfl
    exact hx

/-- A range unbounded on the right is what its left end says; the right end keeps
NULL out only where a row cannot hold it. -/
lemma mem_createLeftBounded {included : Bool} (hl : d.Bounds l.field) :
    (createLeftBounded l included d.nullable).Mem x ↔
      l.field < x ∨ (included = true ∧ x = l.field) := by
  have hall := (mem_wholeUniverse d hx).2
  rw [wholeUniverse_eq] at hall
  unfold createLeftBounded
  rw [wholeUniverse_eq]
  have hmem := mem_shrinkToIncludedIfPossible d (r := ⟨l, ⟨.POSITIVE_INFINITY, true⟩, included,
    d.nullable⟩) hx hl trivial
  dsimp only
  split
  · constructor
    · rintro ⟨habove, -⟩
      exact (aboveLeft_shrinkLeft d hx hl).1 (aboveLeft_shrinkRight.1 habove)
    · intro h
      have hr := hmem.2 ⟨h, hall⟩
      refine ⟨hr.1, ?_⟩
      rcases hr.2 with hlt | ⟨-, heq⟩
      · exact .inl hlt
      · exact .inr ⟨rfl, heq⟩
  · rw [hmem]
    exact ⟨fun h => h.1, fun h => ⟨h, hall⟩⟩

lemma mem_createRightBounded {included : Bool} (hr : d.Bounds r.field) :
    (createRightBounded r included d.nullable).Mem x ↔
      x < r.field ∨ (included = true ∧ x = r.field) := by
  have hall := (mem_wholeUniverse d hx).1
  rw [wholeUniverse_eq] at hall
  unfold createRightBounded
  rw [wholeUniverse_eq]
  have hmem := mem_shrinkToIncludedIfPossible d (r := ⟨⟨.NEGATIVE_INFINITY, true⟩, r, d.nullable,
    included⟩) hx trivial hr
  dsimp only
  split
  · constructor
    · rintro ⟨-, hbelow⟩
      exact belowRight_shrinkLeft.1 ((belowRight_shrinkRight d hx
        (by rwa [shrinkLeft_right])).1 hbelow)
    · intro h
      have hm := hmem.2 ⟨hall, h⟩
      refine ⟨?_, hm.2⟩
      rcases hm.1 with hlt | ⟨-, heq⟩
      · exact .inl hlt
      · exact .inr ⟨rfl, heq⟩
  · rw [hmem]
    exact ⟨fun h => h.2, fun h => ⟨hall, h⟩⟩

end

end Range

/-! ## Int64 and UInt64 -/

/-- `Int64` fields as integers. -/
instance looseFieldInt : LooseField ℤ where
  next? a := if a = 2 ^ 63 - 1 then none else some (a + 1)
  prev? a := if a = -2 ^ 63 then none else some (a - 1)

/-- The column types `Int64` and `Nullable(Int64)`. -/
def DataType.int64 (nullable : Bool) : DataType ℤ where
  nullable := nullable
  values a := -2 ^ 63 ≤ a ∧ a < 2 ^ 63
  next_le a b x _ hnext _ := by
    simp only [LooseField.next?, Option.ite_none_left_eq_some, Option.some.injEq] at hnext
    omega
  le_prev a b x _ hprev _ := by
    simp only [LooseField.prev?, Option.ite_none_left_eq_some, Option.some.injEq] at hprev
    omega

/-- `UInt64` fields as natural numbers. -/
instance looseFieldNat : LooseField ℕ where
  next? a := if a = 2 ^ 64 - 1 then none else some (a + 1)
  prev? a := if a = 0 then none else some (a - 1)

/-- The column types `UInt64` and `Nullable(UInt64)`. -/
def DataType.uint64 (nullable : Bool) : DataType ℕ where
  nullable := nullable
  values a := a < 2 ^ 64
  next_le a b x _ hnext _ := by
    simp only [LooseField.next?, Option.ite_none_left_eq_some, Option.some.injEq] at hnext
    omega
  le_prev a b x _ hprev _ := by
    simp only [LooseField.prev?, Option.ite_none_left_eq_some, Option.some.injEq] at hprev
    omega

/-! ## Strings -/

/-- Strings are no loose type. -/
instance looseFieldBytes : LooseField Bytes := ⟨fun _ => none, fun _ => none⟩

/-- The column types `String` and `Nullable(String)`. -/
def DataType.string (nullable : Bool) : DataType Bytes where
  nullable := nullable
  values _ := True
  next_le _ _ _ _ h := nomatch h
  le_prev _ _ _ _ h := nomatch h

end ClickHouse
