/-
`KeyCondition::findHyperrectanglesForArgumentsOfSpaceFillingCurves`
(`src/Storages/MergeTree/KeyCondition.cpp`): conditions on the arguments of a
space-filling curve are replaced by rectangles, and rectangles joined by AND by their
intersection.

A row has the arguments of its curves besides its key. On a row with a NULL among them the
key is NULL, and the index knows nothing about a rectangle.

What one element is replaced by is compared with it on a row, in two ways: by the truth
value (`curveInstr`), and by the mask of what it allows for (`maskInstr`), as a condition
that could not be replaced allows for everything. That the AND of two rectangles may then
be taken out of the program is `run_collapsed`, in the one evaluation as in the other.

An atom can be about a function of an argument, `x + 10 >= 15`. The functions are not
looked at, and the rectangle is made from the range as if they were not there: so the
program is right exactly if they make no difference (`ChainIgnorable`).
-/
import ClickHouse.Core.RangeOperations
import ClickHouse.MergeTree.AlwaysFalse

set_option autoImplicit false

namespace ClickHouse

open Lib List
open BoolMask (Admits admits_full)
open Instr (Rel run step)
open Option (some)

namespace KeyCondition

variable {α : Type*} [LinearOrder α]

instance decidableHyperrectangleMem (h : Hyperrectangle α) (t : ℕ → Field α) :
    Decidable (h.Mem t) :=
  decidable_of_iff (∀ i : Fin h.length, (h.get i).Mem (t i)) <| by
    constructor
    · intro hall i r hr
      obtain ⟨hi, rfl⟩ := List.getElem?_eq_some_iff.mp hr
      exact hall ⟨i, hi⟩
    · intro hall i
      exact hall i _ (List.getElem?_eq_getElem i.isLt)

/-! ## Rows with arguments -/

/-- A row, with the arguments of the curves in its key columns. -/
structure CurveRow (α : Type*) [LinearOrder α] extends Row α where
  arguments : ℕ → ℕ → Field α

/-- The truth value of an element; an atom on an argument is about the argument instead of
the key column. -/
def curveInstr (row : CurveRow α) (element : RPNElement α) : Instr Bool :=
  if element.function = .FUNCTION_ARGS_IN_HYPERRECTANGLE then
    .push (decide (element.space_filling_curve_args_hyperrectangle.Mem
      (row.arguments element.key_column)))
  else match element.argument_num_of_space_filling_curve with
    | none => truthInstr row.toRow element
    | some arg_num =>
      truthInstr { row.toRow with key := fun _ => row.arguments element.key_column arg_num }
        { element with argument_num_of_space_filling_curve := none }

/-- The truth value of a condition on a row. -/
def curveTruth (row : CurveRow α) (rpn : List (RPNElement α)) : Option Bool :=
  match Instr.run (rpn.map (curveInstr row)) [] with
  | some [b] => some b
  | _ => none

def isValue : Field α → Bool
  | .value _ => true
  | _ => false

/-- What an element allows for on a row: a rectangle says nothing if an argument is NULL. -/
def maskInstr (row : CurveRow α) (element : RPNElement α) : Instr BoolMask :=
  match element.function with
  | .FUNCTION_UNKNOWN => .push ⟨true, true⟩
  | .FUNCTION_NOT => .unary BoolMask.not
  | .FUNCTION_AND => .binary BoolMask.and
  | .FUNCTION_OR => .binary BoolMask.or
  | _ =>
    match curveInstr row element with
    | .push b =>
      if element.function = .FUNCTION_ARGS_IN_HYPERRECTANGLE
          ∧ (List.range element.space_filling_curve_args_hyperrectangle.length).all
            (fun i => isValue (row.arguments element.key_column i)) = false then
        .push ⟨true, true⟩
      else .push ⟨b, !b⟩
    | _ => .push ⟨true, true⟩

/-- What a condition allows for on a row. -/
def allowedMask (row : CurveRow α) (rpn : List (RPNElement α)) : Option BoolMask :=
  match Instr.run (rpn.map (maskInstr row)) [] with
  | some [mask] => some mask
  | _ => none

/-! ## Atoms -/

variable {curves : List SpaceFillingCurveDescription} {row : CurveRow α} {element : RPNElement α}

/-- An atom before the pass: no rectangle, and about an argument that the curve has. -/
structure Extracted (curves : List SpaceFillingCurveDescription) (element : RPNElement α) :
    Prop where
  atom : element.IsAtom
  no_rectangle : element.function ≠ .FUNCTION_ARGS_IN_HYPERRECTANGLE
  argument : ∀ arg_num, element.argument_num_of_space_filling_curve = some arg_num →
    num_arguments_of_a_curve curves element.key_column ≠ 0 →
    arg_num < num_arguments_of_a_curve curves element.key_column

/-- A range of an argument of a known curve. -/
def Collapsible (curves : List SpaceFillingCurveDescription) (element : RPNElement α)
    (arg_num : ℕ) : Prop :=
  element.function = .FUNCTION_IN_RANGE ∧
    element.argument_num_of_space_filling_curve = some arg_num ∧
    num_arguments_of_a_curve curves element.key_column ≠ 0

/-- The functions around the argument make no difference to whether it is in the range. -/
def ChainIgnorable (curves : List SpaceFillingCurveDescription) (element : RPNElement α) : Prop :=
  ∀ arg_num, Collapsible curves element arg_num → ∀ v : α,
    (element.range.Mem (applyChain element.monotonic_functions_chain (.value v)) ↔
      element.range.Mem (.value v))

/-! ### What an atom is replaced by -/

variable {arg_num : ℕ}

lemma replaced_of_collapsible (h : Collapsible curves element arg_num) :
    replaced curves element =
      { function := .FUNCTION_ARGS_IN_HYPERRECTANGLE
        key_column := element.key_column
        space_filling_curve_args_hyperrectangle :=
          (List.replicate (num_arguments_of_a_curve curves element.key_column)
            Range.createWholeUniverseWithoutNull).set arg_num element.range } := by
  obtain ⟨hf, harg, hne⟩ := h
  rw [replaced, hf, harg]
  exact if_neg hne

/-- An element is replaced by a rectangle, or by an unknown one, or not at all. -/
lemma replaced_cases (curves : List SpaceFillingCurveDescription) (element : RPNElement α) :
    (∃ arg_num, Collapsible curves element arg_num) ∨
      (element.function = .FUNCTION_IN_RANGE ∧
        element.argument_num_of_space_filling_curve ≠ none ∧
        num_arguments_of_a_curve curves element.key_column = 0 ∧
        replaced curves element = { function := .FUNCTION_UNKNOWN }) ∨
      replaced curves element = element := by
  by_cases hf : element.function = .FUNCTION_IN_RANGE
  · cases harg : element.argument_num_of_space_filling_curve with
    | none => exact .inr (.inr (by rw [replaced, hf, harg]))
    | some arg_num =>
      by_cases hzero : num_arguments_of_a_curve curves element.key_column = 0
      · refine .inr (.inl ⟨hf, Option.some_ne_none arg_num, hzero, ?_⟩)
        rw [replaced, hf, harg]
        exact if_pos hzero
      · exact .inl ⟨arg_num, hf, harg, hzero⟩
  · refine .inr (.inr ?_)
    rw [replaced]
    split
    next hrange _ => exact absurd hrange hf
    next => rfl

/-- All arguments of the curve are values. -/
def HasValues (row : CurveRow α) (key_column n : ℕ) : Prop :=
  ∀ i < n, ∃ v, row.arguments key_column i = .value v

lemma all_isValue_iff {key_column n : ℕ} :
    (range n).all (fun i => isValue (row.arguments key_column i)) = true ↔
      HasValues row key_column n := by
  simp only [all_eq_true, mem_range, HasValues]
  refine forall_congr' fun i => forall_congr' fun _ => ?_
  cases row.arguments key_column i <;> simp [isValue]

/-- **The rectangle of one range** has the rows whose argument is in the range. -/
theorem mem_argumentRectangle {n : ℕ} {r : Range α} {key_column : ℕ} (hlt : arg_num < n)
    (hvalues : HasValues row key_column n) :
    Hyperrectangle.Mem ((replicate n Range.createWholeUniverseWithoutNull).set arg_num r)
      (row.arguments key_column) ↔ r.Mem (row.arguments key_column arg_num) := by
  constructor
  · intro h
    refine h arg_num r ?_
    rw [getElem?_set_self (by simpa using hlt)]
  intro h i r' hr'
  by_cases hi : arg_num = i
  · subst hi
    rw [getElem?_set_self (by simpa using hlt), some.injEq] at hr'
    rwa [← hr']
  -- the other arguments are in the whole universe, because they are not NULL
  rw [getElem?_set_ne hi, getElem?_replicate] at hr'
  split_ifs at hr' with hin
  obtain rfl := some.inj hr'
  obtain ⟨v, hv⟩ := hvalues i hin
  rw [hv]
  exact ⟨.inl (Field.negInf_lt_value v), .inl (Field.value_lt_posInf v)⟩

lemma curveInstr_of_collapsible (h : Collapsible curves element arg_num) :
    curveInstr row element = .push (decide (element.range.Mem
      (applyChain element.monotonic_functions_chain
        (row.arguments element.key_column arg_num)))) := by
  obtain ⟨hf, harg, -⟩ := h
  rw [curveInstr, if_neg (by simp [hf]), harg]
  simp only [truthInstr, hf]
  rfl

/-- On a row with values the rectangle is true where the range is. -/
lemma curveInstr_replaced (hextracted : Extracted curves element)
    (hignorable : ChainIgnorable curves element) (h : Collapsible curves element arg_num)
    (hvalues : HasValues row element.key_column
      (num_arguments_of_a_curve curves element.key_column)) :
    curveInstr row (replaced curves element) = curveInstr row element := by
  have hlt := hextracted.argument arg_num h.2.1 h.2.2
  obtain ⟨v, hv⟩ := hvalues arg_num hlt
  rw [curveInstr_of_collapsible h, replaced_of_collapsible h, curveInstr, if_pos rfl]
  congr 1
  rw [decide_eq_decide, mem_argumentRectangle hlt hvalues, hv]
  exact (hignorable arg_num h v).symm

/-! ### What an element allows for -/

lemma curveInstr_atom (row : CurveRow α) (h : element.IsAtom) :
    ∃ b, curveInstr row element = .push b := by
  obtain ⟨hnot, hand, hor⟩ := h
  rw [curveInstr]
  split_ifs
  · exact ⟨_, rfl⟩
  split
  · rw [truthInstr]
    split_ifs
    · exact ⟨_, rfl⟩
    · cases hf : element.function <;> first | exact ⟨_, rfl⟩ | contradiction
  · rw [truthInstr]
    split_ifs
    · exact ⟨_, rfl⟩
    · cases hf : element.function <;> first | exact ⟨_, rfl⟩ | contradiction

lemma maskInstr_rectangle (row : CurveRow α)
    (h : element.function = .FUNCTION_ARGS_IN_HYPERRECTANGLE) :
    (HasValues row element.key_column element.space_filling_curve_args_hyperrectangle.length ∧
      maskInstr row element = .push
        ⟨decide (element.space_filling_curve_args_hyperrectangle.Mem
          (row.arguments element.key_column)),
        !decide (element.space_filling_curve_args_hyperrectangle.Mem
          (row.arguments element.key_column))⟩) ∨
    (¬ HasValues row element.key_column element.space_filling_curve_args_hyperrectangle.length ∧
      maskInstr row element = .push ⟨true, true⟩) := by
  rw [← all_isValue_iff]
  have hinstr : curveInstr row element = .push
      (decide (element.space_filling_curve_args_hyperrectangle.Mem
        (row.arguments element.key_column))) := if_pos h
  simp only [maskInstr, h, hinstr]
  cases (range element.space_filling_curve_args_hyperrectangle.length).all
    (fun i => isValue (row.arguments element.key_column i)) <;> simp

lemma admits_exact (b : Bool) : (⟨b, !b⟩ : BoolMask).Admits b := by
  cases b <;> simp

lemma and_exact (a b : Bool) : BoolMask.and ⟨b, !b⟩ ⟨a, !a⟩ = ⟨a && b, !(a && b)⟩ := by
  cases a <;> cases b <;> rfl

/-- The mask of an atom allows for its value on the row. -/
lemma maskInstr_atom {b : Bool} (hatom : element.IsAtom) (hb : curveInstr row element = .push b) :
    ∃ mask, maskInstr row element = .push mask ∧ mask.Admits b := by
  obtain ⟨hnot, hand, hor⟩ := hatom
  by_cases hunknown : element.function = .FUNCTION_UNKNOWN
  · exact ⟨_, by simp only [maskInstr, hunknown], admits_full b⟩
  have hmask : maskInstr row element =
      if element.function = .FUNCTION_ARGS_IN_HYPERRECTANGLE
          ∧ (range element.space_filling_curve_args_hyperrectangle.length).all
            (fun i => isValue (row.arguments element.key_column i)) = false then
        .push ⟨true, true⟩
      else .push ⟨b, !b⟩ := by
    rw [maskInstr, hb]
    split <;> first | contradiction | rfl
  rw [hmask]
  split_ifs
  · exact ⟨_, rfl, admits_full b⟩
  · exact ⟨_, rfl, admits_exact b⟩

/-- What an operator does does not depend on the row. -/
lemma curveInstr_operator (row : CurveRow α) (element : RPNElement α) :
    (element.function = .FUNCTION_NOT → curveInstr row element = .unary Bool.not) ∧
      (element.function = .FUNCTION_AND → curveInstr row element = .binary Bool.and) ∧
      (element.function = .FUNCTION_OR → curveInstr row element = .binary Bool.or) := by
  refine ⟨fun hf => ?_, fun hf => ?_, fun hf => ?_⟩ <;>
    cases harg : element.argument_num_of_space_filling_curve <;>
    simp [curveInstr, truthInstr, hf, harg]

/-- **Every element** allows for its truth value. -/
theorem maskInstr_rel (row : CurveRow α) (element : RPNElement α) :
    Rel (fun b mask => Admits mask b) (curveInstr row element)
      (maskInstr row element) := by
  obtain ⟨hnot, hand, hor⟩ := curveInstr_operator row element
  by_cases hatom : element.IsAtom
  · obtain ⟨b, hb⟩ := curveInstr_atom row hatom
    obtain ⟨mask, hmask, hadmits⟩ := maskInstr_atom hatom hb
    rw [hb, hmask]
    exact .push hadmits
  rw [RPNElement.IsAtom, not_and_or, not_and_or, not_not, not_not, not_not] at hatom
  rcases hatom with hf | hf | hf
  · rw [hnot hf, maskInstr, hf]
    exact .unary fun _ _ h => h.not
  · rw [hand hf, maskInstr, hf]
    exact .binary fun _ _ _ _ h h' => h.and h'
  · rw [hor hf, maskInstr, hf]
    exact .binary fun _ _ _ _ h h' => h.or h'

/-- **What an element is replaced by** allows for its truth value. -/
theorem maskInstr_replaced_rel (row : CurveRow α)
    (hextracted : element.IsAtom → Extracted curves element)
    (hignorable : element.IsAtom → ChainIgnorable curves element) :
    Rel (fun b mask => Admits mask b) (curveInstr row element)
      (maskInstr row (replaced curves element)) := by
  rcases replaced_cases curves element with ⟨arg_num, h⟩ | ⟨hf, -, -, hunknown⟩ | hsame
  · have hatom : element.IsAtom := by
      rw [RPNElement.IsAtom, h.1]
      exact ⟨nofun, nofun, nofun⟩
    have hfunction : (replaced curves element).function = .FUNCTION_ARGS_IN_HYPERRECTANGLE := by
      rw [replaced_of_collapsible h]
    have hrectangle : HasValues row (replaced curves element).key_column
        (replaced curves element).space_filling_curve_args_hyperrectangle.length ↔
        HasValues row element.key_column (num_arguments_of_a_curve curves element.key_column) := by
      rw [replaced_of_collapsible h, length_set, length_replicate]
    -- the rectangle is looked at only on a row with a value for each argument
    rcases maskInstr_rectangle row hfunction with ⟨hvalues, -⟩ | ⟨-, hmask⟩
    · rw [← curveInstr_replaced (hextracted hatom) (hignorable hatom) h (hrectangle.1 hvalues)]
      exact maskInstr_rel row _
    · obtain ⟨b, hb⟩ := curveInstr_atom row hatom
      rw [hb, hmask]
      exact .push (admits_full b)
  · -- the atom becomes an unknown one, which allows for both
    have hatom : element.IsAtom := by
      rw [RPNElement.IsAtom, hf]
      exact ⟨nofun, nofun, nofun⟩
    obtain ⟨b, hb⟩ := curveInstr_atom row hatom
    rw [hb, hunknown]
    exact .push (admits_full b)
  · -- every other element stays as it is
    rw [hsame]
    exact maskInstr_rel row element

/-! ## Merging -/

/-- The sides of a rectangle are the arguments of its curve. -/
def Sided (curves : List SpaceFillingCurveDescription) (element : RPNElement α) : Prop :=
  element.function = .FUNCTION_ARGS_IN_HYPERRECTANGLE →
    element.space_filling_curve_args_hyperrectangle.length =
      num_arguments_of_a_curve curves element.key_column

lemma sided_replaced (hextracted : element.IsAtom → Extracted curves element) :
    Sided curves (replaced curves element) := by
  intro hf
  rcases replaced_cases curves element with ⟨arg_num, h⟩ | ⟨-, -, -, hunknown⟩ | hsame
  · rw [replaced_of_collapsible h, length_set, length_replicate]
  · rw [hunknown] at hf
    exact absurd hf nofun
  · rw [hsame] at hf
    refine absurd hf (hextracted ?_).no_rectangle
    rw [RPNElement.IsAtom, hf]
    exact ⟨nofun, nofun, nofun⟩

lemma mem_merged {cond1 cond2 : RPNElement α} {t : ℕ → Field α}
    (hlen : cond1.space_filling_curve_args_hyperrectangle.length =
      cond2.space_filling_curve_args_hyperrectangle.length) :
    (merged cond1 cond2).space_filling_curve_args_hyperrectangle.Mem t ↔
      cond1.space_filling_curve_args_hyperrectangle.Mem t ∧
        cond2.space_filling_curve_args_hyperrectangle.Mem t := by
  rw [merged]
  generalize cond1.space_filling_curve_args_hyperrectangle = a at hlen ⊢
  generalize cond2.space_filling_curve_args_hyperrectangle = b at hlen ⊢
  constructor
  · intro h
    refine ⟨fun i r hr => ?_, fun i r hr => ?_⟩
    · have hi := (List.getElem?_eq_some_iff.1 hr).1
      have hb : b[i]? = some b[i] := getElem?_eq_getElem (hlen ▸ hi)
      exact (Range.mem_intersect.1 (h i _ (by rw [getElem?_zipWith, hr, hb]))).1
    · have hi := (List.getElem?_eq_some_iff.1 hr).1
      have ha : a[i]? = some a[i] := getElem?_eq_getElem (hlen ▸ hi)
      exact (Range.mem_intersect.1 (h i _ (by rw [getElem?_zipWith, ha, hr]))).2
  · rintro ⟨h1, h2⟩ i r hr
    -- a place of the merged rectangle is one of both rectangles
    rw [getElem?_zipWith] at hr
    cases ha : a[i]? with
    | none => simp [ha] at hr
    | some ra =>
      cases hb : b[i]? with
      | none => simp [ha, hb] at hr
      | some rb =>
        rw [ha, hb] at hr
        obtain rfl := some.inj hr
        exact Range.mem_intersect.2 ⟨h1 i ra ha, h2 i rb hb⟩

section Merge

variable {cond1 cond2 and_ : RPNElement α}

variable (h1 : Sided curves cond1) (h2 : Sided curves cond2) (h : Mergeable cond1 cond2)

include h1 h2 h in
lemma sided_merged
    : Sided curves (merged cond1 cond2) := by
  intro _
  obtain ⟨hkey, hf1, hf2⟩ := h
  rw [merged, length_zipWith, h1 hf1, h2 hf2, hkey, min_self]

include h1 h2 h in
lemma length_eq_of_sided : cond1.space_filling_curve_args_hyperrectangle.length =
      cond2.space_filling_curve_args_hyperrectangle.length := by
  rw [h1 h.2.1, h2 h.2.2, h.1]

/-- Two rectangles and their `and` have the truth value of the one that replaces them. -/
lemma run_curveInstr_merged (row : CurveRow α) (h1 : Sided curves cond1)
    (h2 : Sided curves cond2) (h : Mergeable cond1 cond2) (hand : and_.function = .FUNCTION_AND)
    (s : List Bool) :
    run ([cond1, cond2, and_].map (curveInstr row)) s =
      run ([merged cond1 cond2].map (curveInstr row)) s := by
  have hmem := mem_merged (t := row.arguments cond1.key_column) (length_eq_of_sided h1 h2 h)
  have hmerged : curveInstr row (merged cond1 cond2) = .push (decide
      ((merged cond1 cond2).space_filling_curve_args_hyperrectangle.Mem
        (row.arguments cond1.key_column))) := if_pos rfl
  simp only [map_cons, map_nil, (curveInstr_operator row and_).2.1 hand, hmerged]
  rw [curveInstr, if_pos h.2.1, curveInstr, if_pos h.2.2, ← h.1]
  simp only [hmem, Bool.decide_and, Bool.and_comm (decide (Hyperrectangle.Mem
    cond1.space_filling_curve_args_hyperrectangle _))]
  rfl

/-- The same for what they allow for. -/
lemma run_maskInstr_merged (row : CurveRow α) (h1 : Sided curves cond1)
    (h2 : Sided curves cond2) (h : Mergeable cond1 cond2) (hand : and_.function = .FUNCTION_AND)
    (s : List BoolMask) :
    run ([cond1, cond2, and_].map (maskInstr row)) s =
      run ([merged cond1 cond2].map (maskInstr row)) s := by
  have hlen := length_eq_of_sided h1 h2 h
  have hmem := mem_merged (t := row.arguments cond1.key_column) hlen
  have hlength : (merged cond1 cond2).space_filling_curve_args_hyperrectangle.length =
      cond1.space_filling_curve_args_hyperrectangle.length := by
    rw [merged, length_zipWith, ← hlen, min_self]
  have hand' : maskInstr row and_ = .binary BoolMask.and := by rw [maskInstr, hand]
  have hkey : (merged cond1 cond2).key_column = cond1.key_column := rfl
  have hmask1 := maskInstr_rectangle row h.2.1
  have hmask2 := maskInstr_rectangle row h.2.2
  have hmask := maskInstr_rectangle row (rfl : (merged cond1 cond2).function = _)
  rw [← h.1, ← hlen] at hmask2
  rw [hlength, hkey] at hmask
  simp only [map_cons, map_nil, hand']
  by_cases hvalues : HasValues row cond1.key_column
      cond1.space_filling_curve_args_hyperrectangle.length
  · rw [(hmask1.resolve_right (fun h => h.1 hvalues)).2,
      (hmask2.resolve_right (fun h => h.1 hvalues)).2,
      (hmask.resolve_right (fun h => h.1 hvalues)).2]
    simp only [hmem, Bool.decide_and, ← and_exact]
    rfl
  · -- without the values each of the three masks allows for both
    rw [(hmask1.resolve_left (fun h => hvalues h.1)).2,
      (hmask2.resolve_left (fun h => hvalues h.1)).2, (hmask.resolve_left (fun h => hvalues h.1)).2]
    rfl

end Merge

/-! ## The pass -/

/-- The ranges of arguments in the condition can be told exactly by a rectangle on the row:
their curve is known, and its arguments are values. -/
def Representable (curves : List SpaceFillingCurveDescription) (row : CurveRow α)
    (rpn : List (RPNElement α)) : Prop :=
  ∀ element ∈ rpn, element.function = .FUNCTION_IN_RANGE →
    element.argument_num_of_space_filling_curve ≠ none →
    num_arguments_of_a_curve curves element.key_column ≠ 0 ∧
      HasValues row element.key_column (num_arguments_of_a_curve curves element.key_column)

section Pass

variable {rpn : List (RPNElement α)}

variable (hextracted : ∀ e ∈ rpn, e.IsAtom → Extracted curves e)
  (hignorable : ∀ e ∈ rpn, e.IsAtom → ChainIgnorable curves e)

include hextracted hignorable in
/-- On a row where the condition is representable, replacing elements keeps its value. -/
lemma map_curveInstr_replaced (hrow : Representable curves row rpn) :
    (rpn.map (replaced curves)).map (curveInstr row) = rpn.map (curveInstr row) := by
  rw [map_map]
  refine map_congr_left fun e he => ?_
  rw [Function.comp_apply]
  rcases replaced_cases curves e with ⟨arg_num, h⟩ | ⟨hf, harg, hzero, -⟩ | hsame
  · have hatom : e.IsAtom := by
      rw [RPNElement.IsAtom, h.1]
      exact ⟨nofun, nofun, nofun⟩
    have harg : e.argument_num_of_space_filling_curve ≠ none := by
      rw [h.2.1]
      exact nofun
    exact curveInstr_replaced (hextracted e he hatom) (hignorable e he hatom) h
      (hrow e he h.1 harg).2
  · exact absurd hzero (hrow e he hf harg).1
  · rw [hsame]

/-- The truth value of the result is that of the elements replaced one by one. -/
lemma curveTruth_findHyperrectangles (row : CurveRow α)
    (hextracted : ∀ e ∈ rpn, e.IsAtom → Extracted curves e) :
    curveTruth row (findHyperrectanglesForArgumentsOfSpaceFillingCurves curves rpn) =
      curveTruth row (rpn.map (replaced curves)) := by
  rw [curveTruth, curveTruth, run_collapsed (Q := Sided curves) ?_
    (fun e he => sided_replaced (hextracted e he))]
  intro cond1 cond2 and_ h1 h2 h hand
  exact ⟨sided_merged h1 h2 h, run_curveInstr_merged row h1 h2 h hand⟩

lemma allowedMask_findHyperrectangles (row : CurveRow α)
    (hextracted : ∀ e ∈ rpn, e.IsAtom → Extracted curves e) :
    allowedMask row (findHyperrectanglesForArgumentsOfSpaceFillingCurves curves rpn) =
      allowedMask row (rpn.map (replaced curves)) := by
  rw [allowedMask, allowedMask, run_collapsed (Q := Sided curves) ?_
    (fun e he => sided_replaced (hextracted e he))]
  intro cond1 cond2 and_ h1 h2 h hand
  exact ⟨sided_merged h1 h2 h, run_maskInstr_merged row h1 h2 h hand⟩

include hextracted hignorable in
/-- **The result allows for the truth value** of the condition, on every row. -/
theorem admits_findHyperrectangles {b : Bool} (htruth : curveTruth row rpn = some b) :
    ∃ mask, allowedMask row (findHyperrectanglesForArgumentsOfSpaceFillingCurves curves rpn) =
      some mask ∧ mask.Admits b := by
  rw [allowedMask_findHyperrectangles row hextracted]
  have hrun : run (rpn.map (curveInstr row)) [] = some [b] := by
    rw [curveTruth] at htruth
    split at htruth
    next hrun => rwa [some.inj htruth] at hrun
    next => exact absurd htruth nofun
  have hrel : List.Forall₂ (Rel fun b mask => Admits mask b)
      (rpn.map (curveInstr row)) ((rpn.map (replaced curves)).map (maskInstr row)) := by
    rw [map_map, forall₂_map_left_iff, forall₂_map_right_iff, forall₂_same]
    exact fun e he => maskInstr_replaced_rel row (hextracted e he) (hignorable e he)
  obtain ⟨r, hr, hrs⟩ := Instr.run_rel hrel .nil hrun
  cases hrs with
  | cons hmask htail =>
    cases htail
    exact ⟨_, by rw [allowedMask, hr], hmask⟩

end Pass

/-- The one way in which a single range can be told wrongly. -/
lemma mem_chain_of_curveTruth_eq {v : α} (hextracted : Extracted curves element)
    (h : Collapsible curves element arg_num) (hrow : ∀ c i, row.arguments c i = .value v)
    (htruth : curveTruth row [replaced curves element] = curveTruth row [element]) :
    element.range.Mem (applyChain element.monotonic_functions_chain (.value v)) ↔
      element.range.Mem (.value v) := by
  have hvalues : HasValues row element.key_column
      (num_arguments_of_a_curve curves element.key_column) := fun i _ => ⟨v, hrow _ i⟩
  have hrectangle := mem_argumentRectangle (r := element.range)
    (hextracted.argument arg_num h.2.1 h.2.2) hvalues
  have hreplaced : curveInstr row (replaced curves element) =
      .push (decide (element.range.Mem (row.arguments element.key_column arg_num))) := by
    rw [replaced_of_collapsible h, curveInstr, if_pos rfl]
    exact congrArg _ (decide_eq_decide.2 hrectangle)
  simp only [curveTruth, map_cons, map_nil, hreplaced, curveInstr_of_collapsible h,
    Instr.run_cons, step] at htruth
  rw [hrow] at htruth
  exact (decide_eq_decide.1 (some.inj htruth)).symm

/-- **When the pass is right.** Conditions are built from the atoms `A` with any nesting of
`and`, `or` and `not`. The pass allows for the truth value of each of them on each row, and
keeps it on the rows where they are representable, exactly if no atom it makes a rectangle
of has functions that make a difference. -/
theorem findHyperrectangles_correct_iff {A : RPNElement α → Prop}
    (hA : ∀ e, A e → Extracted curves e) :
    (∀ rpn : List (RPNElement α), (∀ e ∈ rpn, e.IsAtom → A e) → ∀ row : CurveRow α,
      (∀ b, curveTruth row rpn = some b →
        ∃ mask, allowedMask row
          (findHyperrectanglesForArgumentsOfSpaceFillingCurves curves rpn) = some mask ∧
            mask.Admits b) ∧
      (Representable curves row rpn →
        curveTruth row (findHyperrectanglesForArgumentsOfSpaceFillingCurves curves rpn) =
          curveTruth row rpn)) ↔
    ∀ e, A e → ChainIgnorable curves e := by
  constructor
  · intro hright e he arg_num h v
    -- a row on which the arguments and the key all have the value `v`
    let row : CurveRow α :=
      { key := fun _ => .value v, tuples := fun _ => [], other := fun _ => false,
        arguments := fun _ _ => .value v }
    have hvalues : Representable curves row [e] := by
      intro e' he' _ _
      rw [mem_singleton.1 he']
      exact ⟨h.2.2, fun i _ => ⟨v, rfl⟩⟩
    have hsingle : ∀ e' ∈ [e], e'.IsAtom → A e' := by
      intro e' he' _
      rwa [mem_singleton.1 he']
    have htruth := (hright [e] hsingle row).2 hvalues
    rw [curveTruth_findHyperrectangles row fun e' he' hatom => hA e' (hsingle e' he' hatom)]
      at htruth
    exact mem_chain_of_curveTruth_eq (hA e he) h (fun _ _ => rfl) htruth
  · intro hignorable rpn hrpn row
    have hextracted : ∀ e ∈ rpn, e.IsAtom → Extracted curves e :=
      fun e he hatom => hA e (hrpn e he hatom)
    have hignorable : ∀ e ∈ rpn, e.IsAtom → ChainIgnorable curves e :=
      fun e he hatom => hignorable e (hrpn e he hatom)
    refine ⟨fun b => admits_findHyperrectangles hextracted hignorable, fun hrow => ?_⟩
    rw [curveTruth_findHyperrectangles row hextracted, curveTruth, curveTruth,
      map_curveInstr_replaced hextracted hignorable hrow]

/-- The atom for `function(argument) >= bound`, and for `argument >= bound` with no
functions. -/
def argumentAtLeast (key_column arg_num bound : ℕ) (functions : List (MonotonicFunction ℕ)) :
    RPNElement ℕ :=
  { function := .FUNCTION_IN_RANGE
    range := ⟨⟨.value bound, true⟩, ⟨.POSITIVE_INFINITY, true⟩, true, false⟩
    key_column := key_column
    argument_num_of_space_filling_curve := some arg_num
    monotonic_functions_chain := functions }

lemma extracted_argumentAtLeast {bound : ℕ} {functions : List (MonotonicFunction ℕ)}
    (h : arg_num < 2) :
    Extracted [⟨0, 2, .Morton⟩] (argumentAtLeast 0 arg_num bound functions) where
  atom := ⟨nofun, nofun, nofun⟩
  no_rectangle := nofun
  argument := fun _ harg _ => some.inj harg ▸ h

/-- The row with `x = 6` and `y = 0`. -/
def rowAtSix : CurveRow ℕ :=
  { key := fun _ => .value 20
    tuples := fun _ => []
    other := fun _ => false
    arguments := fun _ arg_num => if arg_num = 0 then .value 6 else .value 0 }

lemma representable_rowAtSix {rpn : List (RPNElement ℕ)} (h : ∀ e ∈ rpn, e.key_column = 0) :
    Representable [⟨0, 2, .Morton⟩] rowAtSix rpn := by
  intro e he _ _
  rw [h e he]
  refine ⟨by decide, fun i _ => ?_⟩
  by_cases hi : i = 0
  · exact ⟨6, if_pos hi⟩
  · exact ⟨0, if_neg hi⟩

/-- `NOT (x >= 10 AND y >= 20)` with the key `mortonEncode(x, y)`. -/
theorem findHyperrectangles_correct_at_plain_arguments :
    curveTruth rowAtSix (findHyperrectanglesForArgumentsOfSpaceFillingCurves [⟨0, 2, .Morton⟩]
      [argumentAtLeast 0 0 10 [], argumentAtLeast 0 1 20 [], { function := .FUNCTION_AND },
        { function := .FUNCTION_NOT }]) = some true := by
  have hright := (@findHyperrectangles_correct_iff ℕ _ [⟨0, 2, .Morton⟩]
    (fun e => e = argumentAtLeast 0 0 10 [] ∨ e = argumentAtLeast 0 1 20 []) ?_).2 ?_
  · refine ((hright _ ?_ rowAtSix).2 ?_).trans (by decide)
    · intro e he hatom
      fin_cases he
      · exact .inl rfl
      · exact .inr rfl
      · exact absurd rfl hatom.2.1
      · exact absurd rfl hatom.1
    · exact representable_rowAtSix (by simp [argumentAtLeast])
  · rintro e (rfl | rfl)
    · exact extracted_argumentAtLeast (by decide)
    · exact extracted_argumentAtLeast (by decide)
  · rintro e (rfl | rfl) arg_num _ v
    · exact Iff.rfl
    · exact Iff.rfl

/-- `plus(x, 10)`. -/
def plusTen : MonotonicFunction ℕ where
  apply := fun x => x + 10
  getMonotonicityForRange := fun _ _ => ⟨true, true⟩
  positive := fun _ _ _ _ _ _ hle _ => Nat.add_le_add_right hle 10
  negative := fun _ _ _ _ h _ _ _ => by simp at h

/-- `x + 10 >= 15` is true of the row, and the condition it is replaced by says it cannot
be. -/
theorem findHyperrectangles_drops_functions :
    Extracted [⟨0, 2, .Morton⟩] (argumentAtLeast 0 0 15 [plusTen]) ∧
      Representable [⟨0, 2, .Morton⟩] rowAtSix [argumentAtLeast 0 0 15 [plusTen]] ∧
      curveTruth rowAtSix [argumentAtLeast 0 0 15 [plusTen]] = some true ∧
      allowedMask rowAtSix (findHyperrectanglesForArgumentsOfSpaceFillingCurves
        [⟨0, 2, .Morton⟩] [argumentAtLeast 0 0 15 [plusTen]]) = some ⟨false, true⟩ := by
  exact ⟨extracted_argumentAtLeast (by decide),
    representable_rowAtSix (by simp [argumentAtLeast]), by decide, by decide⟩

end KeyCondition

end ClickHouse
