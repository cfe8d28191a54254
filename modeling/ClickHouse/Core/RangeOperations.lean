/-
The set operations on `Range` (`src/Core/Range.cpp`): `contains`, `invertRange`,
`intersectWith`, `unionWith` and `nearByWith`.

A range is what lies between two cuts of the order of fields (`Lib.Cut`), and each
function is one comparison of cuts: `leftThan`, `intersectsRange`, `containsRange` and
`empty` are the right one. Four functions are not:

* `contains` asks whether the point is beyond both ends, which no point is
  (`contains_eq_false`): `leftThan` and `rightThan` of a point mean the opposite of what
  they mean of a range.
* `intersectWith` and `unionWith` take the wrong one of two left ends that differ only in
  whether they are included (`LeftTie`), the closed one for the intersection and the open
  one for the union. The right ends are right.
* `nearByWith` tests one of the four ways to touch twice and another one not at all
  (`MissedTouch`), and `unionWith` then finds no union.

The relations are about a dense order: `a.intersectsRange(b)` cannot know whether there is
a value between two ends. So they are read in any dense order that the values embed into.
What the results of operations hold is about the values of a column, whose integer ends
the constructor of `Range` may have moved.
-/
import ClickHouse.Core.Range
import ClickHouse.Lib.Cut

set_option autoImplicit false

namespace ClickHouse

open Lib Cut
open Option (ite_none_left_eq_some some)

namespace Range

/-! ## The functions -/

section Model

variable {α : Type*} [LinearOrder α]

/-- `rightThan` of a point. -/
def rightThanField (r : Range α) (x : Field α) : Bool :=
  decide (r.left.field < x) || (r.left_included && decide (x = r.left.field))

/-- `leftThan` of a point. -/
def leftThanField (r : Range α) (x : Field α) : Bool :=
  decide (x < r.right.field) || (r.right_included && decide (x = r.right.field))

/-- x contained in the range. -/
def contains (r : Range α) (x : Field α) : Bool := !r.leftThanField x && !r.rightThanField x

/-- Completely right than x. -/
def rightThan (r x : Range α) : Bool :=
  decide (x.right.field < r.left.field)
    || (!(r.left_included && x.right_included) && decide (r.left.field = x.right.field))

/-- Completely left than x. -/
def leftThan (r x : Range α) : Bool :=
  decide (r.right.field < x.left.field)
    || (!(x.left_included && r.right_included) && decide (r.right.field = x.left.field))

/-- Range like [1, 2]. -/
def fullBounded (r : Range α) : Bool :=
  match r.left.field, r.right.field with
  | .value _, .value _ => true
  | _, _ => false

/-- (-inf, +inf). -/
def isInfinite (r : Range α) : Bool :=
  decide (r.left.field = .NEGATIVE_INFINITY) && decide (r.right.field = .POSITIVE_INFINITY)

/-- `invertRange`: at most two ranges, on either side. -/
def invertRange [LooseField α] (r : Range α) : List (Range α) :=
  -- [1, 3] -> (-inf, 1), (3, +inf)
  if r.fullBounded then
    [bounded ⟨.NEGATIVE_INFINITY, true⟩ false r.left (!r.left_included),
      bounded r.right (!r.right_included) ⟨.POSITIVE_INFINITY, true⟩ false]
  else if r.isInfinite then []
  -- [1, +inf)
  else if r.right.field = .POSITIVE_INFINITY then
    [⟨⟨.NEGATIVE_INFINITY, true⟩, r.left, false, !r.left_included⟩]
  -- (-inf, 1]
  else if r.left.field = .NEGATIVE_INFINITY then
    [⟨r.right, ⟨.POSITIVE_INFINITY, true⟩, !r.right_included, false⟩]
  else [⟨r.right, r.left, r.left_included, r.right_included⟩]

/-- The test for left ends that `intersectWith` and `unionWith` share. -/
def leftBoundBefore (a r : Range α) : Bool :=
  decide (a.left.field < r.left.field)
    || ((!a.left_included && r.left_included) && decide (a.left.field = r.left.field))

/-- The test for right ends that `intersectWith` and `unionWith` share. -/
def rightBoundBefore (r a : Range α) : Bool :=
  decide (r.right.field < a.right.field)
    || ((!r.right_included && a.right_included) && decide (r.right.field = a.right.field))

/-- The range with the left end of one range and the right end of another. -/
def ofEnds [LooseField α] (l r : Range α) : Range α :=
  bounded l.left l.left_included r.right r.right_included

/-- `intersectWith`. -/
def intersectWith [LooseField α] (a r : Range α) : Option (Range α) :=
  if !a.intersectsRange r then none
  else some (ofEnds (if a.leftBoundBefore r then r else a) (if r.rightBoundBefore a then r else a))

/-- `nearByWith`: one range begins where the other ends, and one of them has the point. -/
def nearByWith (a r : Range α) : Bool :=
  -- me locates at left
  (((a.right_included && !r.left_included) || (!a.right_included && r.left_included))
      && decide (a.right.field = r.left.field))
    -- r locate left
    || (((r.right_included && !a.left_included) || (r.right_included && !a.left_included))
      && decide (r.right.field = a.left.field))

/-- `unionWith`: only ranges that meet or touch have a union. -/
def unionWith [LooseField α] (a r : Range α) : Option (Range α) :=
  if !a.intersectsRange r && !a.nearByWith r then none
  else some (ofEnds (if a.leftBoundBefore r then a else r) (if r.rightBoundBefore a then a else r))

end Model

/-! ## Ranges as cuts -/

section Cuts

variable {α : Type*} [LinearOrder α] {a b r : Range α} {x : Field α}

/-- The place where the range begins. -/
def leftCut (r : Range α) : Cut (Field α) := Cut.mk r.left.field (!r.left_included)

/-- The place where the range ends. -/
def rightCut (r : Range α) : Cut (Field α) := Cut.mk r.right.field r.right_included

omit [LinearOrder α] in
lemma leftCut_inj : a.leftCut = b.leftCut ↔
    a.left.field = b.left.field ∧ a.left_included = b.left_included := by
  rw [leftCut, leftCut, mk_inj]
  simp

lemma aboveLeft_iff_cut : r.AboveLeft x ↔ r.leftCut ≤ before x := by
  rw [AboveLeft, leftCut, before, mk_le_mk]
  cases r.left_included <;> simp [eq_comm]

lemma belowRight_iff_cut : r.BelowRight x ↔ before x < r.rightCut := by
  rw [BelowRight, rightCut, before, mk_lt_mk]
  cases r.right_included <;> simp

lemma mem_iff_inside : r.Mem x ↔ Inside r.leftCut r.rightCut x :=
  and_congr aboveLeft_iff_cut belowRight_iff_cut

/-- A left end is before a right end. -/
lemma ends_lt_iff {x y : Field α} (left_included right_included : Bool) :
    (!(decide (y < x) || ((!left_included || !right_included) && decide (y = x)))) = true ↔
      Cut.mk x (!left_included) < Cut.mk y right_included := by
  rw [mk_lt_mk]
  rcases lt_trichotomy x y with h | rfl | h
  · simp [h, h.not_gt, h.ne']
  · cases left_included <;> cases right_included <;> simp
  · simp [h, h.not_gt, h.ne']

lemma empty_eq_false_iff : r.empty = false ↔ r.leftCut < r.rightCut := by
  rw [empty, leftCut, rightCut, mk_lt_mk]
  rcases lt_trichotomy r.left.field r.right.field with h | h | h
  · simp [h, h.not_gt]
  · cases r.left_included <;> cases r.right_included <;> simp [h]
  · simp [h, h.not_gt, h.ne']

lemma leftThan_iff : a.leftThan b = true ↔ a.rightCut ≤ b.leftCut := by
  rw [leftThan, leftCut, rightCut, mk_le_mk]
  cases a.right_included <;> cases b.left_included <;> simp

lemma rightThan_iff : a.rightThan b = true ↔ b.rightCut ≤ a.leftCut := by
  have h : a.rightThan b = b.leftThan a := by
    rw [rightThan, leftThan]
    simp only [eq_comm]
  rw [h, leftThan_iff]

lemma intersectsRange_iff_cut :
    a.intersectsRange b = true ↔ a.leftCut < b.rightCut ∧ b.leftCut < a.rightCut := by
  rw [intersectsRange, Bool.and_eq_true, ends_lt_iff, leftCut, leftCut, rightCut, rightCut,
    ← ends_lt_iff b.left_included a.right_included]
  have h : decide (b.left.field = a.right.field) = decide (a.right.field = b.left.field) := by
    simp only [eq_comm]
  rw [h, Bool.or_comm (!a.right_included)]

lemma containsRange_iff_cut :
    a.containsRange b = true ↔ a.leftCut ≤ b.leftCut ∧ b.rightCut ≤ a.rightCut := by
  rw [containsRange, Bool.and_eq_true, leftCut, leftCut, rightCut, rightCut, mk_le_mk, mk_le_mk]
  refine and_congr ?_ ?_
  · rcases lt_trichotomy a.left.field b.left.field with h | h | h
    · simp [h, h.not_gt, h.ne']
    · cases a.left_included <;> cases b.left_included <;> simp [h]
    · simp [h, h.not_gt, h.ne']
  · rcases lt_trichotomy a.right.field b.right.field with h | h | h
    · simp [h, h.not_gt, h.ne']
    · cases a.right_included <;> cases b.right_included <;> simp [h]
    · simp [h, h.not_gt, h.ne]

/-- **`contains` is false of every point** of a range that is not empty. -/
theorem contains_eq_false (h : r.empty = false) (x : Field α) : r.contains x = false := by
  have hcut := empty_eq_false_iff.1 h
  have hleft : r.rightThanField x = true ↔ r.leftCut ≤ before x := by
    rw [← aboveLeft_iff_cut, rightThanField, AboveLeft]
    simp
  have hright : r.leftThanField x = true ↔ before x < r.rightCut := by
    rw [← belowRight_iff_cut, leftThanField, BelowRight]
    simp
  rw [contains, Bool.and_eq_false_iff, Bool.not_eq_false', Bool.not_eq_false', hleft, hright]
  rcases lt_or_ge (before x) r.rightCut with hlt | hge
  · exact .inl hlt
  · exact .inr (hcut.le.trans hge)

/-- The ends of `intersect`, before it is found to be empty. -/
lemma intersect_cuts (a b : Range α) : ∃ res : Range α,
    res.leftCut = max a.leftCut b.leftCut ∧ res.rightCut = min a.rightCut b.rightCut ∧
      intersect a b = if res.empty then ⟨res.left, res.left, false, false⟩ else res := by
  -- the ends as the code computes them, one after the other
  let l := if a.left.field < b.left.field then (b.left, b.left_included)
    else if a.left.field = b.left.field then (a.left, a.left_included && b.left_included)
    else (a.left, a.left_included)
  let r := if a.right.field < b.right.field then (a.right, a.right_included)
    else if a.right.field = b.right.field then (a.right, a.right_included && b.right_included)
    else (b.right, b.right_included)
  refine ⟨⟨l.1, r.1, l.2, r.2⟩, ?_, ?_, rfl⟩
  · change Cut.mk l.1.field (!l.2) = _
    rw [leftCut, leftCut]
    rcases lt_trichotomy a.left.field b.left.field with h | h | h
    · rw [max_eq_right (mk_le_mk.2 (.inl h))]
      simp [l, h]
    · -- equal ends: the flags decide
      cases hai : a.left_included <;> cases hbi : b.left_included <;>
        simp [l, h, hai, hbi, mk_le_mk]
    · rw [max_eq_left (mk_le_mk.2 (.inl h))]
      simp [l, h.not_gt, h.ne']
  · change Cut.mk r.1.field r.2 = _
    rw [rightCut, rightCut]
    rcases lt_trichotomy a.right.field b.right.field with h | h | h
    · rw [min_eq_left (mk_le_mk.2 (.inl h))]
      simp [r, h]
    · cases hai : a.right_included <;> cases hbi : b.right_included <;>
        simp [r, h, hai, hbi, mk_le_mk]
    · rw [min_eq_right (mk_le_mk.2 (.inl h))]
      simp [r, h.not_gt, h.ne']

/-- **`intersect`** of two ranges is their intersection. -/
theorem mem_intersect : (intersect a b).Mem x ↔ a.Mem x ∧ b.Mem x := by
  obtain ⟨res, hleft, hright, heq⟩ := intersect_cuts a b
  rw [heq, mem_iff_inside (r := a), mem_iff_inside (r := b), ← inside_max_min, ← hleft, ← hright]
  cases hempty : res.empty with
  | false => rw [if_neg (by decide), mem_iff_inside]
  | true =>
    -- there is nothing between the ends, in the one range as in the other
    rw [if_pos rfl, mem_iff_inside]
    refine iff_of_false (fun h => ?_) (fun h => ?_)
    · exact absurd (h.1.trans_lt h.2) (by simp [leftCut, rightCut, mk_lt_mk])
    · rw [empty_eq_false_iff.2 (h.1.trans_lt h.2)] at hempty
      exact absurd hempty (by decide)

/-! ## Operations -/

/-- The left ends of the two ranges are the same value, and one of them is included. -/
def LeftTie (a b : Range α) : Prop :=
  ∃ v, a.left.field = .value v ∧ b.left.field = .value v ∧ a.left_included ≠ b.left_included

/-- The second range ends, without its end, where the first starts with its end. -/
def MissedTouch (a b : Range α) : Prop :=
  b.right.field = a.left.field ∧ b.right_included = false ∧ a.left_included = true

lemma nearByWith_iff :
    a.nearByWith b = true ↔
      a.rightCut = b.leftCut ∨ (b.rightCut = a.leftCut ∧ ¬ MissedTouch a b) := by
  rw [nearByWith, leftCut, leftCut, rightCut, rightCut, mk_inj, mk_inj, MissedTouch]
  cases a.right_included <;> cases b.left_included <;> cases b.right_included <;>
    cases a.left_included <;> simp

omit [LinearOrder α] in
lemma MissedTouch.cut_eq (h : MissedTouch a b) : b.rightCut = a.leftCut := by
  obtain ⟨hfield, hright, hleft⟩ := h
  rw [leftCut, rightCut, hfield, hright, hleft]
  rfl

/-- Left ends of which neither is before the other: a tie, or the same cut, or there is
nothing to the left of them. -/
lemma left_cases (ha : a.empty = false) (hb : b.empty = false) (h : a.left.field = b.left.field) :
    LeftTie a b ∨ a.leftCut = b.leftCut ∨ a.left.field = .NEGATIVE_INFINITY := by
  by_cases hflags : a.left_included = b.left_included
  · exact .inr (.inl (by rw [leftCut, leftCut, h, hflags]))
  cases hfield : a.left.field with
  | NEGATIVE_INFINITY => exact .inr (.inr rfl)
  | value v => exact .inl ⟨v, hfield, h ▸ hfield, hflags⟩
  | POSITIVE_INFINITY =>
    -- nothing lies behind `+inf`, so both ends are included
    have hincluded : ∀ {r : Range α}, r.empty = false →
        r.left.field = .POSITIVE_INFINITY → r.left_included = true := by
      intro r hr hinf
      rw [empty_eq_false_iff, leftCut, rightCut, hinf, mk_lt_mk] at hr
      rcases hr with hlt | ⟨-, hlt⟩
      · exact absurd hlt (Field.not_posInf_lt _)
      · revert hlt
        cases r.left_included <;> simp
    exact absurd ((hincluded ha hfield).trans (hincluded hb (h ▸ hfield)).symm) hflags

lemma leftCut_le_of_negInf (h : r.left.field = .NEGATIVE_INFINITY)
    (hx : x ≠ .NEGATIVE_INFINITY) : r.leftCut ≤ before x := by
  rw [leftCut, h, before, mk_le_mk]
  exact .inl (Field.negInf_lt_iff.2 hx)

lemma leftBoundBefore_of_lt (h : a.left.field < b.left.field) :
    a.leftBoundBefore b = true ∧ a.leftCut < b.leftCut := by
  rw [leftBoundBefore, leftCut, leftCut, mk_lt_mk]
  simp [h]

lemma leftBoundBefore_of_gt (h : b.left.field < a.left.field) :
    a.leftBoundBefore b = false ∧ b.leftCut < a.leftCut := by
  rw [leftBoundBefore, leftCut, leftCut, mk_lt_mk]
  simp [h, h.not_gt, h.ne']

variable (ha : a.empty = false) (hb : b.empty = false) (h : ¬ LeftTie a b)
  (hx : x ≠ .NEGATIVE_INFINITY)

include ha hb h hx in
/-- The left end of an intersection. -/
lemma intersect_left_iff :
    (if a.leftBoundBefore b then b else a).leftCut ≤ before x ↔
      a.leftCut ≤ before x ∧ b.leftCut ≤ before x := by
  rcases lt_trichotomy a.left.field b.left.field with hlt | heq | hgt
  · obtain ⟨hbefore, hcut⟩ := leftBoundBefore_of_lt hlt
    rw [if_pos hbefore]
    exact ⟨fun hle => ⟨hcut.le.trans hle, hle⟩, fun hle => hle.2⟩
  · rcases left_cases ha hb heq with htie | hcut | hinf
    · exact absurd htie h
    · split_ifs <;> simp [hcut]
    · have hleft := leftCut_le_of_negInf hinf hx
      have hleft' := leftCut_le_of_negInf (heq ▸ hinf) hx
      split_ifs <;> simp [hleft, hleft']
  · obtain ⟨hbefore, hcut⟩ := leftBoundBefore_of_gt hgt
    rw [if_neg (by simp [hbefore])]
    exact ⟨fun hle => ⟨hle, hcut.le.trans hle⟩, fun hle => hle.1⟩

include ha hb h hx in
/-- The left end of a union. -/
lemma union_left_iff :
    (if a.leftBoundBefore b then a else b).leftCut ≤ before x ↔
      min a.leftCut b.leftCut ≤ before x := by
  -- it is the end that the intersection does not have
  have hother := intersect_left_iff ha hb h hx
  rw [min_le_iff]
  split_ifs at hother ⊢ <;> tauto

lemma rightBoundBefore_iff : b.rightBoundBefore a = true ↔ b.rightCut < a.rightCut := by
  rw [rightBoundBefore, rightCut, rightCut, mk_lt_mk]
  cases a.right_included <;> cases b.right_included <;> simp

/-- The right end of an intersection. -/
lemma intersect_right :
    (if b.rightBoundBefore a then b else a).rightCut = min a.rightCut b.rightCut := by
  split_ifs with h
  · rw [min_eq_right (rightBoundBefore_iff.1 h).le]
  · rw [min_eq_left (not_lt.1 (mt rightBoundBefore_iff.2 h))]

/-- The right end of a union. -/
lemma union_right :
    (if b.rightBoundBefore a then a else b).rightCut = max a.rightCut b.rightCut := by
  split_ifs with h
  · rw [max_eq_left (rightBoundBefore_iff.1 h).le]
  · rw [max_eq_right (not_lt.1 (mt rightBoundBefore_iff.2 h))]

include ha in
lemma before_left_lt : before a.left.field < a.rightCut := by
  refine lt_of_le_of_lt ?_ (empty_eq_false_iff.1 ha)
  rw [leftCut, before, mk_le_mk]
  exact .inr ⟨rfl, Bool.false_le _⟩

include ha in
lemma mem_left_iff : a.Mem a.left.field ↔ a.left_included = true := by
  rw [mem_iff_inside, Cut.Inside, and_iff_left (before_left_lt ha), leftCut, before, mk_le_mk]
  cases a.left_included <;> simp

/-- Ranges that start at the same value have no gap between them. -/
lemma leftCut_le_of_leftTie (htie : LeftTie a b) (hb : b.empty = false) :
    a.leftCut ≤ b.rightCut := by
  obtain ⟨v, hav, hbv, -⟩ := htie
  have hlt := before_left_lt hb
  rw [hbv, ← hav] at hlt
  exact mk_le_of_before_lt hlt

omit [LinearOrder α] in
lemma LeftTie.symm (h : LeftTie a b) : LeftTie b a := by
  obtain ⟨v, hav, hbv, hne⟩ := h
  exact ⟨v, hbv, hav, hne.symm⟩

/-- With a tie, the intersection starts at the end that is included, and the union at
the one that is not. -/
lemma leftCut_of_leftTie {v : α} (ha : a.left.field = .value v) (hb : b.left.field = .value v)
    (h : a.left_included ≠ b.left_included) :
    (if a.leftBoundBefore b then b else a).leftCut = Cut.mk (.value v) false ∧
      (if a.leftBoundBefore b then a else b).leftCut = Cut.mk (.value v) true := by
  rw [leftBoundBefore]
  cases hai : a.left_included <;> cases hbi : b.left_included <;>
    simp_all [leftCut]

end Cuts

/-! ## Values of a column -/

section Values

variable {α : Type*} [LinearOrder α] [LooseField α] (d : DataType α) {a b : Range α}

/-- The ends of the range are of the type of the column. -/
def EndsIn (r : Range α) : Prop := d.Bounds r.left.field ∧ d.Bounds r.right.field

variable {d} {x : Field α}

lemma ne_negInf_of_holds (hx : d.Holds x) : x ≠ .NEGATIVE_INFINITY := by
  rintro rfl
  exact hx

lemma holds_of_left {v : α} (hda : EndsIn d a) (hav : a.left.field = .value v) :
    d.Holds (.value v) := by
  have hbounds := hda.1
  rw [hav] at hbounds
  exact hbounds

lemma mem_bounded {l r : FieldRef α} {left_included right_included : Bool}
    (hx : d.Holds x) (hl : d.Bounds l.field) (hr : d.Bounds r.field) :
    (bounded l left_included r right_included).Mem x ↔
      Inside (Cut.mk l.field (!left_included)) (Cut.mk r.field right_included) x := by
  rw [bounded, mem_shrinkToIncludedIfPossible d hx hl hr, mem_iff_inside]
  rfl

lemma mem_ofEnds {l r : Range α} (hx : d.Holds x) (hl : EndsIn d l)
    (hr : EndsIn d r) : (ofEnds l r).Mem x ↔ Inside l.leftCut r.rightCut x :=
  mem_bounded hx hl.1 hr.2

lemma endsIn_ite {c : Bool} (ha : EndsIn d a) (hb : EndsIn d b) :
    EndsIn d (if c then a else b) := by
  split_ifs
  · exact ha
  · exact hb

/-- **The intersection**, unless the left ends are a tie. -/
theorem mem_intersectWith {r : Range α} (hr : a.intersectWith b = some r)
    (ha : a.empty = false) (hb : b.empty = false) (hda : EndsIn d a) (hdb : EndsIn d b)
    (htie : ¬ LeftTie a b) (hx : d.Holds x) : r.Mem x ↔ a.Mem x ∧ b.Mem x := by
  rw [intersectWith, ite_none_left_eq_some, some.injEq] at hr
  rw [← hr.2, mem_ofEnds hx (endsIn_ite hdb hda) (endsIn_ite hdb hda), Cut.Inside,
    intersect_left_iff ha hb htie (ne_negInf_of_holds hx), intersect_right, lt_min_iff,
    mem_iff_inside, mem_iff_inside, Cut.Inside, Cut.Inside]
  tauto

/-- There is a union if there is no gap, but for the touch that is missed. -/
lemma unionWith_isSome_iff (ha : a.empty = false) (hb : b.empty = false) :
    (a.unionWith b).isSome = true ↔
      (a.leftCut ≤ b.rightCut ∧ b.leftCut ≤ a.rightCut) ∧ ¬ MissedTouch a b := by
  have hsome : (a.unionWith b).isSome = true ↔
      a.intersectsRange b = true ∨ a.nearByWith b = true := by
    rw [unionWith]
    cases a.intersectsRange b <;> cases a.nearByWith b <;> simp
  rw [hsome, intersectsRange_iff_cut, nearByWith_iff]
  rw [empty_eq_false_iff] at ha hb
  constructor
  · -- they overlap, or `b` begins where `a` ends, or `a` begins where `b` ends
    rintro (⟨h, h'⟩ | h | ⟨h, hnot⟩)
    · exact ⟨⟨h.le, h'.le⟩, fun hmissed => absurd h (hmissed.cut_eq ▸ lt_irrefl _)⟩
    · refine ⟨⟨(ha.le.trans h.le).trans hb.le, h.ge⟩, fun hmissed => ?_⟩
      exact absurd (hb.trans (hmissed.cut_eq ▸ ha)) (h ▸ lt_irrefl _)
    · exact ⟨⟨h.ge, (hb.le.trans h.le).trans ha.le⟩, hnot⟩
  · rintro ⟨⟨h, h'⟩, hnot⟩
    rcases h.lt_or_eq with hlt | heq
    · rcases h'.lt_or_eq with hlt' | heq'
      · exact .inl ⟨hlt, hlt'⟩
      · exact .inr (.inl heq'.symm)
    · exact .inr (.inr ⟨heq.symm, hnot⟩)

/-- **The union**, unless the left ends are a tie. -/
theorem mem_unionWith {r : Range α} (hr : a.unionWith b = some r)
    (ha : a.empty = false) (hb : b.empty = false) (hda : EndsIn d a) (hdb : EndsIn d b)
    (htie : ¬ LeftTie a b) (hx : d.Holds x) : r.Mem x ↔ a.Mem x ∨ b.Mem x := by
  obtain ⟨hgap, -⟩ := (unionWith_isSome_iff ha hb).1 (by rw [hr]; rfl)
  rw [unionWith, ite_none_left_eq_some, some.injEq] at hr
  rw [← hr.2, mem_ofEnds hx (endsIn_ite hda hdb) (endsIn_ite hda hdb), Cut.Inside,
    union_left_iff ha hb htie (ne_negInf_of_holds hx), union_right, mem_iff_inside,
    mem_iff_inside, ← inside_min_max hgap.1 hgap.2, Cut.Inside]

omit [LooseField α] in
lemma negInf_cut_le (b : Bool) (v : α) :
    Cut.mk (.NEGATIVE_INFINITY : Field α) b ≤ before (.value v) :=
  mk_le_mk.2 (.inl (Field.negInf_lt_value v))

omit [LooseField α] in
lemma lt_posInf_cut (b : Bool) (v : α) :
    before (.value v) < Cut.mk (.POSITIVE_INFINITY : Field α) b :=
  mk_lt_mk.2 (.inl (Field.value_lt_posInf v))

/-- **The complement**, of a range that is not empty. -/
theorem mem_invertRange (ha : a.empty = false) (hda : EndsIn d a) {v : α} (hv : d.values v) :
    (∃ r ∈ a.invertRange, r.Mem (.value v)) ↔ ¬ a.Mem (.value v) := by
  have hholds : d.Holds (.value v) := hv
  have hcuts := empty_eq_false_iff.1 ha
  rw [mem_iff_inside, not_inside_iff, invertRange]
  split_ifs with hfull hinf hright hleft
  · -- both ends are proper, and two ranges are left
    simp only [List.mem_cons, List.not_mem_nil, or_false, exists_eq_or_imp, exists_eq_left]
    rw [mem_bounded (l := ⟨.NEGATIVE_INFINITY, true⟩) hholds trivial hda.1,
      mem_bounded (r := ⟨.POSITIVE_INFINITY, true⟩) hholds hda.2 trivial, Bool.not_not]
    simp only [Cut.Inside, negInf_cut_le, lt_posInf_cut, true_and, and_true]
    rfl
  · -- nothing is left of the whole line
    rw [isInfinite, Bool.and_eq_true, decide_eq_true_iff, decide_eq_true_iff] at hinf
    have hl : a.leftCut ≤ before (.value v) := by
      rw [leftCut, hinf.1]
      exact negInf_cut_le _ v
    have hr : before (.value v) < a.rightCut := by
      rw [rightCut, hinf.2]
      exact lt_posInf_cut _ v
    simp [not_lt.2 hl, not_le.2 hr]
  · -- only the range before the left end is left
    have hr : before (.value v) < a.rightCut := by
      rw [rightCut, hright]
      exact lt_posInf_cut _ v
    simp only [List.mem_singleton, exists_eq_left, mem_iff_inside, Cut.Inside, not_le.2 hr,
      or_false]
    exact and_iff_right (negInf_cut_le _ v)
  · -- only the range behind the right end is left
    have hl : a.leftCut ≤ before (.value v) := by
      rw [leftCut, hleft]
      exact negInf_cut_le _ v
    simp only [List.mem_singleton, exists_eq_left, mem_iff_inside, Cut.Inside, not_lt.2 hl,
      false_or]
    rw [leftCut, Bool.not_not]
    exact and_iff_left (lt_posInf_cut _ v)
  · -- a range that starts at `+inf` or ends at `-inf`, and is empty
    exfalso
    rw [leftCut, rightCut, mk_lt_mk] at hcuts
    cases hl : a.left.field <;> cases hr : a.right.field <;> simp_all [fullBounded]

end Values

end Range

/-! ## Points of a dense order -/

section Dense

variable {α δ : Type*}

def Field.map (f : α → δ) : Field α → Field δ
  | .NEGATIVE_INFINITY => .NEGATIVE_INFINITY
  | .value a => .value (f a)
  | .POSITIVE_INFINITY => .POSITIVE_INFINITY

/-- The range with its ends in another order. -/
def Range.map (f : α → δ) (r : Range α) : Range δ :=
  ⟨⟨r.left.field.map f, r.left.isExplicit⟩, ⟨r.right.field.map f, r.right.isExplicit⟩,
    r.left_included, r.right_included⟩

instance Field.denselyOrdered [LinearOrder δ] [DenselyOrdered δ] [NoMinOrder δ] [NoMaxOrder δ]
    [Nonempty δ] : DenselyOrdered (Field δ) where
  dense x y h := by
    obtain ⟨v⟩ := ‹Nonempty δ›
    cases x with
    | NEGATIVE_INFINITY =>
      cases y with
      | NEGATIVE_INFINITY => exact absurd h (lt_irrefl _)
      | value b =>
        obtain ⟨c, hc⟩ := exists_lt b
        exact ⟨.value c, Field.negInf_lt_value c, Field.value_lt_value.mpr hc⟩
      | POSITIVE_INFINITY => exact ⟨.value v, Field.negInf_lt_value v, Field.value_lt_posInf v⟩
    | value a =>
      cases y with
      | NEGATIVE_INFINITY => exact absurd h (Field.not_lt_negInf _)
      | value b =>
        obtain ⟨c, hac, hcb⟩ := exists_between (Field.value_lt_value.mp h)
        exact ⟨.value c, Field.value_lt_value.mpr hac, Field.value_lt_value.mpr hcb⟩
      | POSITIVE_INFINITY =>
        obtain ⟨c, hc⟩ := exists_gt a
        exact ⟨.value c, Field.value_lt_value.mpr hc, Field.value_lt_posInf c⟩
    | POSITIVE_INFINITY => exact absurd h (Field.not_posInf_lt _)

variable [LinearOrder α] [LinearOrder δ] (e : α ↪o δ) {x y : Field α}

lemma Field.map_lt_map : x.map e < y.map e ↔ x < y := by
  cases x <;> cases y <;> simp [Field.map]

lemma Field.map_inj : x.map e = y.map e ↔ x = y := by
  cases x <;> cases y <;> simp [Field.map]

namespace Range

lemma cut_map_lt {b c : Bool} :
    Cut.mk (x.map e) b < Cut.mk (y.map e) c ↔ Cut.mk x b < Cut.mk y c := by
  rw [mk_lt_mk, mk_lt_mk, Field.map_lt_map, Field.map_inj]

lemma cut_map_le {b c : Bool} :
    Cut.mk (x.map e) b ≤ Cut.mk (y.map e) c ↔ Cut.mk x b ≤ Cut.mk y c := by
  rw [← not_lt, cut_map_lt, not_lt]

variable {a b : Range α}

lemma map_lt_of_nonempty (ha : a.empty = false) : (a.map e).leftCut < (a.map e).rightCut :=
  (cut_map_lt e).2 (empty_eq_false_iff.1 ha)

variable [DenselyOrdered δ] [NoMinOrder δ] [NoMaxOrder δ] [Nonempty δ]

variable (ha : a.empty = false) (hb : b.empty = false)

include ha hb in
lemma intersectsRange_iff_exists :
    a.intersectsRange b = true ↔ ∃ y, (a.map e).Mem y ∧ (b.map e).Mem y := by
  simp only [mem_iff_inside]
  rw [exists_common_iff (map_lt_of_nonempty e ha) (map_lt_of_nonempty e hb),
    intersectsRange_iff_cut]
  exact and_congr (cut_map_lt e).symm (cut_map_lt e).symm

include hb in
lemma containsRange_iff_subset :
    a.containsRange b = true ↔ ∀ y, (b.map e).Mem y → (a.map e).Mem y := by
  simp only [mem_iff_inside]
  rw [subset_iff (map_lt_of_nonempty e hb), containsRange_iff_cut]
  exact and_congr (cut_map_le e).symm (cut_map_le e).symm

/-- The points of one of the two ranges are an interval. -/
def UnionIsInterval (a b : Range α) : Prop :=
  Set.OrdConnected {y | (a.map e).Mem y ∨ (b.map e).Mem y}

include ha hb in
lemma unionIsInterval_iff :
    UnionIsInterval e a b ↔ a.leftCut ≤ b.rightCut ∧ b.leftCut ≤ a.rightCut := by
  unfold UnionIsInterval
  simp only [mem_iff_inside]
  rw [ordConnected_union_iff (map_lt_of_nonempty e ha) (map_lt_of_nonempty e hb)]
  exact and_congr (cut_map_le e) (cut_map_le e)

/-- The ranges have no point in common, and an end of one of them is an end of the other
and included in exactly one of them. -/
def Touches (a b : Range α) : Prop :=
  (¬ ∃ y, (a.map e).Mem y ∧ (b.map e).Mem y) ∧
    ((a.right.field = b.left.field ∧ a.right_included ≠ b.left_included) ∨
      (b.right.field = a.left.field ∧ b.right_included ≠ a.left_included))

include ha hb in
lemma touches_iff :
    Touches e a b ↔ a.rightCut = b.leftCut ∨ b.rightCut = a.leftCut := by
  rw [Touches, ← intersectsRange_iff_exists e ha hb, intersectsRange_iff_cut]
  have hends : ∀ r s : Range α,
      (r.right.field = s.left.field ∧ r.right_included ≠ s.left_included) ↔
      r.rightCut = s.leftCut := by
    intro r s
    rw [leftCut, rightCut, mk_inj]
    cases r.right_included <;> cases s.left_included <;> simp
  rw [hends, hends]
  refine and_iff_right_of_imp ?_
  rintro (h | h) ⟨hab, hba⟩
  · exact absurd hba (h ▸ lt_irrefl _)
  · exact absurd hab (h ▸ lt_irrefl _)

/-! ## Main result -/

section Main

variable [LooseField α] (d : DataType α)

/-- `intersectWith` is exactly the intersection, or none when that is empty. -/
def IntersectExact (a b : Range α) : Prop :=
  match a.intersectWith b with
  | none => ¬ ∃ y, (a.map e).Mem y ∧ (b.map e).Mem y
  | some r => (∃ y, (a.map e).Mem y ∧ (b.map e).Mem y) ∧
      ∀ x, d.Holds x → (r.Mem x ↔ a.Mem x ∧ b.Mem x)

/-- `unionWith` is exactly the union whenever it is an interval, and none otherwise. -/
def UnionExact (a b : Range α) : Prop :=
  match a.unionWith b with
  | none => ¬ UnionIsInterval e a b
  | some r => UnionIsInterval e a b ∧ ∀ x, d.Holds x → (r.Mem x ↔ a.Mem x ∨ b.Mem x)

variable {d}

include ha hb in
/-- Only an intersection of ranges that tie on the left is not exact. -/
lemma intersectExact_iff (hda : EndsIn d a)
    (hdb : EndsIn d b) : IntersectExact e d a b ↔ ¬ (LeftTie a b ∧ a.intersectsRange b = true) := by
  rw [IntersectExact, ← intersectsRange_iff_exists e ha hb]
  cases hres : a.intersectWith b with
  | none =>
    have hnot : a.intersectsRange b = false := by
      simpa [intersectWith] using hres
    simp [hnot]
  | some r =>
    have hyes : a.intersectsRange b = true := by
      rw [intersectWith, ite_none_left_eq_some] at hres
      simpa using hres.1
    simp only [hyes, true_and, and_true]
    constructor
    · -- with a tie, the value at the ends is in the result and not in both ranges
      rintro hexact ⟨v, hav, hbv, hne⟩
      have hholds := holds_of_left hda hav
      have hmem : r.Mem (.value v) := by
        rw [intersectWith, ite_none_left_eq_some, some.injEq] at hres
        rw [← hres.2, mem_ofEnds hholds (endsIn_ite hdb hda) (endsIn_ite hdb hda), Cut.Inside,
          (leftCut_of_leftTie hav hbv hne).1, intersect_right, lt_min_iff]
        exact ⟨le_rfl, hav ▸ before_left_lt ha, hbv ▸ before_left_lt hb⟩
      obtain ⟨hma, hmb⟩ := (hexact _ hholds).1 hmem
      rw [← hav, mem_left_iff ha] at hma
      rw [← hbv, mem_left_iff hb] at hmb
      exact hne (hma.trans hmb.symm)
    · intro htie x hx
      exact mem_intersectWith hres ha hb hda hdb htie hx

include ha hb in
/-- A union is not exact at a tie on the left, and where touching ranges are not seen to touch. -/
lemma unionExact_iff (hda : EndsIn d a)
    (hdb : EndsIn d b) : UnionExact e d a b ↔ ¬ LeftTie a b ∧ ¬ MissedTouch a b := by
  have hgap : LeftTie a b ∨ MissedTouch a b →
      a.leftCut ≤ b.rightCut ∧ b.leftCut ≤ a.rightCut := by
    rintro (htie | hmissed)
    · exact ⟨leftCut_le_of_leftTie htie hb, leftCut_le_of_leftTie htie.symm ha⟩
    · have hcut := hmissed.cut_eq
      rw [empty_eq_false_iff] at ha hb
      exact ⟨hcut.ge, (hb.le.trans hcut.le).trans ha.le⟩
  have hsome := unionWith_isSome_iff ha hb
  rw [UnionExact, unionIsInterval_iff e ha hb]
  cases hres : a.unionWith b with
  | none =>
    rw [hres] at hsome
    tauto
  | some r =>
    rw [hres] at hsome
    obtain ⟨hcuts, hmissed⟩ := hsome.1 rfl
    simp only [hcuts, hmissed, true_and, and_true, not_false_eq_true, and_self]
    constructor
    · -- with a tie, the value at the ends is in one of the ranges and not in the result
      rintro hexact ⟨v, hav, hbv, hne⟩
      have hholds := holds_of_left hda hav
      have hmem : ¬ r.Mem (.value v) := by
        rw [unionWith, ite_none_left_eq_some, some.injEq] at hres
        rw [← hres.2, mem_ofEnds hholds (endsIn_ite hda hdb) (endsIn_ite hda hdb), Cut.Inside,
          (leftCut_of_leftTie hav hbv hne).2]
        intro h
        exact absurd h.1 (by simp [before, mk_le_mk])
      have hnone := mt (hexact _ hholds).2 hmem
      rw [not_or] at hnone
      obtain ⟨hma, hmb⟩ := hnone
      rw [← hav, mem_left_iff ha] at hma
      rw [← hbv, mem_left_iff hb] at hmb
      exact hne ((Bool.eq_false_of_not_eq_true hma).trans (Bool.eq_false_of_not_eq_true hmb).symm)
    · intro htie x hx
      exact mem_unionWith hres ha hb hda hdb htie hx

omit [LooseField α] in
lemma nearByWith_exact_iff (ha : a.empty = false) (hb : b.empty = false) :
    (a.nearByWith b = true ↔ Touches e a b) ↔ ¬ MissedTouch a b := by
  rw [touches_iff e ha hb, nearByWith_iff]
  rw [empty_eq_false_iff] at ha hb
  constructor
  · intro h hmissed
    have hcut := hmissed.cut_eq
    rcases h.2 (.inr hcut) with hnear | ⟨-, hnot⟩
    · exact absurd (hb.trans (hcut ▸ ha)) (hnear ▸ lt_irrefl _)
    · exact hnot hmissed
  · intro hnot
    simp [hnot]

/-- **Which operations are the set operations they name.** The relations, and whether
there is a result, are about the points of a dense order; results are about the values
of a column. -/
theorem operations_exact_iff (d : DataType α) (x : Field α) (ha : a.empty = false)
    (hb : b.empty = false) (hda : EndsIn d a) (hdb : EndsIn d b) :
    ((a.contains x = true ↔ a.Mem x) ↔ ¬ a.Mem x) ∧
    (a.intersectsRange b = true ↔ ∃ y, (a.map e).Mem y ∧ (b.map e).Mem y) ∧
    (a.containsRange b = true ↔ ∀ y, (b.map e).Mem y → (a.map e).Mem y) ∧
    (∀ v, d.values v → ((∃ r ∈ a.invertRange, r.Mem (.value v)) ↔ ¬ a.Mem (.value v))) ∧
    (IntersectExact e d a b ↔ ¬ (LeftTie a b ∧ a.intersectsRange b = true)) ∧
    (UnionExact e d a b ↔ ¬ LeftTie a b ∧ ¬ MissedTouch a b) ∧
    ((a.nearByWith b = true ↔ Touches e a b) ↔ ¬ MissedTouch a b) := by
  refine ⟨?_, intersectsRange_iff_exists e ha hb, containsRange_iff_subset e hb,
    fun v hv => mem_invertRange ha hda hv, intersectExact_iff e ha hb hda hdb,
    unionExact_iff e ha hb hda hdb, nearByWith_exact_iff e ha hb⟩
  simp [contains_eq_false ha x]

/-- The integers in a dense order. -/
def intInRat : ℤ ↪o ℚ := OrderEmbedding.ofStrictMono (fun n => (n : ℚ)) Int.cast_strictMono

theorem operations_exact_iff_at_integers :
    let a : Range ℤ := bounded ⟨.value 0, true⟩ false ⟨.value 3, true⟩ true
    let b : Range ℤ := bounded ⟨.value 2, true⟩ true ⟨.value 6, true⟩ false
    (∃ y, (a.map intInRat).Mem y ∧ (b.map intInRat).Mem y) ∧
      UnionExact intInRat (DataType.int64 false) a b := by
  intro a b
  have hda : EndsIn (DataType.int64 false) a :=
    ⟨show -2 ^ 63 ≤ (1 : ℤ) ∧ (1 : ℤ) < 2 ^ 63 by norm_num,
      show -2 ^ 63 ≤ (3 : ℤ) ∧ (3 : ℤ) < 2 ^ 63 by norm_num⟩
  have hdb : EndsIn (DataType.int64 false) b :=
    ⟨show -2 ^ 63 ≤ (2 : ℤ) ∧ (2 : ℤ) < 2 ^ 63 by norm_num,
      show -2 ^ 63 ≤ (5 : ℤ) ∧ (5 : ℤ) < 2 ^ 63 by norm_num⟩
  obtain ⟨-, hintersects, -, -, -, hunion, -⟩ := operations_exact_iff intInRat
    (DataType.int64 false) (.value 0) (show a.empty = false by decide)
    (show b.empty = false by decide) hda hdb
  refine ⟨hintersects.1 (by decide), hunion.2 ⟨?_, by unfold MissedTouch; decide⟩⟩
  rintro ⟨v, hav, hbv, -⟩
  have hne : a.left.field ≠ b.left.field := by decide
  exact hne (hav.trans hbv.symm)

end Main

/-- `["a", "c"]` contains `"b"`; `("a", "c"]` and `["a", "c"]` differ in `"a"`; and `["b", "c"]`
starts where `("a", "b")` ends. -/
theorem operations_wrong :
    let a : Field Bytes := .value [ch 'a']
    let b : Field Bytes := .value [ch 'b']
    let c : Field Bytes := .value [ch 'c']
    let closed := fun l r : Field Bytes => bounded ⟨l, true⟩ true ⟨r, true⟩ true
    let leftOpen := fun l r : Field Bytes => bounded ⟨l, true⟩ false ⟨r, true⟩ true
    let allOpen := fun l r : Field Bytes => bounded ⟨l, true⟩ false ⟨r, true⟩ false
    ((closed a c).Mem b ∧ (closed a c).contains b = false) ∧
    (¬ (leftOpen a c).Mem a ∧ (leftOpen a c).intersectWith (closed a c) = some (closed a c)) ∧
    ((closed a c).Mem a ∧ (closed a c).unionWith (leftOpen a c) = some (leftOpen a c)) ∧
    (¬ (allOpen a b).Mem b ∧ (closed b c).Mem b ∧ (closed b c).nearByWith (allOpen a b) = false ∧
      (closed b c).unionWith (allOpen a b) = none) := by
  decide

end Range

end Dense

end ClickHouse
