/-
`KeyCondition` (`src/Storages/MergeTree/KeyCondition.{h,cpp}`): the condition of a
query in postfix form, and its evaluation on a hyperrectangle of key ranges.

`RPNElement` is the record of the source, a function and the data of all functions.
Left out of it are `relaxed`, which is read only when exact ranges are asked for, the
Bloom filters, which only the Parquet reader sets, and the polygon. The evaluations of
`FUNCTION_ARGS_IN_HYPERRECTANGLE` and `FUNCTION_POINT_IN_POLYGON` are parameters.

The meaning of a condition on a row is the same postfix program run on truth values.
Both runs go through `Instr.run_rel`, so what is left to prove is one statement per
element: its mask allows for its truth value on every row with its key in the
hyperrectangle. `atomMask_admits` is that statement for the atoms that compare ranges,
`InSet.sound_of_hits` the one for sets, and the operators are the algebra of masks.
-/
import ClickHouse.IO.Text
import ClickHouse.Interpreters.SetIndex
import ClickHouse.Lib.Postfix

set_option autoImplicit false

namespace ClickHouse

open Lib List
open BoolMask (Admits admits_false admits_full)
open Instr (Rel push run)

/-- `RPNElement::Function`. -/
inductive RPNFunction where
  | FUNCTION_IN_RANGE
  | FUNCTION_NOT_IN_RANGE
  | FUNCTION_IN_SET
  | FUNCTION_NOT_IN_SET
  | FUNCTION_IS_NULL
  | FUNCTION_IS_NOT_NULL
  | FUNCTION_ARGS_IN_HYPERRECTANGLE
  | FUNCTION_POINT_IN_POLYGON
  | FUNCTION_UNKNOWN
  | FUNCTION_NOT
  | FUNCTION_AND
  | FUNCTION_OR
  | ALWAYS_FALSE
  | ALWAYS_TRUE
  deriving DecidableEq, Repr

/-- `SpaceFillingCurveType`. -/
inductive SpaceFillingCurveType where
  | Unknown
  | Morton
  | Hilbert
  deriving DecidableEq, Repr

/-- A key column that is a space-filling curve. -/
structure SpaceFillingCurveDescription where
  key_column_pos : ℕ
  num_arguments : ℕ
  type : SpaceFillingCurveType

variable {α : Type*} [LinearOrder α]

/-- `RPNElement`. `set_tuple` says which tuple of a row the set is about, and
`description` is what `toString` prints in messages. -/
structure RPNElement (α : Type*) [LinearOrder α] where
  function : RPNFunction := .FUNCTION_UNKNOWN
  range : Range α := Range.createWholeUniverse
  key_column : ℕ := 0
  argument_num_of_space_filling_curve : Option ℕ := none
  set_index : Option (InSet α) := none
  set_tuple : ℕ := 0
  space_filling_curve_args_hyperrectangle : Hyperrectangle α := []
  monotonic_functions_chain : List (MonotonicFunction α) := []
  relaxed : Bool := false
  description : Bytes := []

/-- The evaluations that are modelled elsewhere. -/
structure SpecialAtoms (α : Type*) [LinearOrder α] where
  argsInHyperrectangle : Hyperrectangle α → RPNElement α → Eval BoolMask
  pointInPolygon : Hyperrectangle α → RPNElement α → Eval BoolMask

/-- Evaluations of them that say nothing. -/
def SpecialAtoms.unknown : SpecialAtoms α :=
  ⟨fun _ _ => .ok ⟨true, true⟩, fun _ _ => .ok ⟨true, true⟩⟩

namespace KeyCondition

section Model

variable (special : SpecialAtoms α) (hyperrectangle : Hyperrectangle α) (single_point : Bool)

/-- The mask of a range of the condition against a range of the key. -/
def atomMask (condition key_range : Range α) : BoolMask :=
  ⟨condition.intersectsRange key_range, !condition.containsRange key_range⟩

variable (element : RPNElement α)

/-- `FUNCTION_IN_RANGE`. -/
def rangeMask : Eval BoolMask :=
  match hyperrectangle[element.key_column]? with
  | none => throwException .LOGICAL_ERROR (str "Hyperrectangle size is " ++
      natText hyperrectangle.length ++ str ", but requested element at posittion " ++
      natText element.key_column ++ str " (" ++ element.description ++ str ")")
  | some key_range =>
    match applyMonotonicFunctionsChainToRange key_range element.monotonic_functions_chain
        single_point with
    | none => .ok ⟨true, true⟩
    | some transformed_range => .ok (atomMask element.range transformed_range)

/-- `FUNCTION_IS_NOT_NULL`: NULLs are kept by functions, so they are not applied. -/
def isNotNullMask : Eval BoolMask :=
  match hyperrectangle[element.key_column]? with
  | none => .error .undefined_behaviour
  | some key_range => .ok (atomMask element.range key_range)

/-- `FUNCTION_IN_SET`. -/
def inSetMask : Eval BoolMask :=
  match element.set_index with
  | none => throwException .LOGICAL_ERROR (str "Set for IN is not created yet")
  | some s => .ok (s.index.checkInRange hyperrectangle single_point)

/-- What the evaluation does with its stack at one element. -/
def elementInstr : Eval (Instr BoolMask) :=
  -- a condition on an argument of a curve that was not collapsed cannot be processed
  if element.argument_num_of_space_filling_curve.isSome then .ok (.push ⟨true, true⟩)
  else match element.function with
    | .FUNCTION_UNKNOWN => .ok (.push ⟨true, true⟩)
    | .FUNCTION_IN_RANGE => (rangeMask hyperrectangle single_point element).map .push
    | .FUNCTION_NOT_IN_RANGE =>
      (rangeMask hyperrectangle single_point element).map (fun m => .push m.not)
    | .FUNCTION_ARGS_IN_HYPERRECTANGLE =>
      (special.argsInHyperrectangle hyperrectangle element).map .push
    | .FUNCTION_POINT_IN_POLYGON => (special.pointInPolygon hyperrectangle element).map .push
    | .FUNCTION_IS_NULL => (isNotNullMask hyperrectangle element).map (fun m => .push m.not)
    | .FUNCTION_IS_NOT_NULL => (isNotNullMask hyperrectangle element).map .push
    | .FUNCTION_IN_SET => (inSetMask hyperrectangle single_point element).map .push
    | .FUNCTION_NOT_IN_SET =>
      (inSetMask hyperrectangle single_point element).map (fun m => .push m.not)
    | .FUNCTION_NOT => .ok (.unary BoolMask.not)
    | .FUNCTION_AND => .ok (.binary BoolMask.and)
    | .FUNCTION_OR => .ok (.binary BoolMask.or)
    | .ALWAYS_FALSE => .ok (.push ⟨false, true⟩)
    | .ALWAYS_TRUE => .ok (.push ⟨true, false⟩)

/-- The end of an evaluation: the stack holds the result. A missing operand is guarded
by an `assert` only. -/
def stackResult {V : Type*} (message : Bytes) : Option (List V) → Eval V
  | none => .error .undefined_behaviour
  | some [v] => .ok v
  | some _ => throwException .LOGICAL_ERROR message

/-- `checkInHyperrectangle`. -/
def checkInHyperrectangle (rpn : List (RPNElement α)) : Eval BoolMask :=
  (rpn.mapM (elementInstr special hyperrectangle single_point)).bind fun instrs =>
    stackResult (str "Unexpected stack size in KeyCondition::checkInHyperrectangle")
      (Instr.run instrs [])

end Model

/-! ## What a condition means -/

/-- A row: its key, the tuples its sets are about, and the truth of what the key says
nothing about. -/
structure Row (α : Type*) [LinearOrder α] where
  key : ℕ → Field α
  tuples : ℕ → List (Field α)
  other : RPNElement α → Bool

/-- The truth value of an atom on a row, and the operators. -/
def truthInstr (row : Row α) (element : RPNElement α) : Instr Bool :=
  -- the atom is about an argument of the curve, not about the key column
  if element.argument_num_of_space_filling_curve.isSome then .push (row.other element)
  else match element.function with
    | .FUNCTION_UNKNOWN => .push (row.other element)
    | .FUNCTION_ARGS_IN_HYPERRECTANGLE => .push (row.other element)
    | .FUNCTION_POINT_IN_POLYGON => .push (row.other element)
    | .FUNCTION_IN_RANGE => .push (decide (element.range.Mem
        (applyChain element.monotonic_functions_chain (row.key element.key_column))))
    | .FUNCTION_NOT_IN_RANGE => .push (!decide (element.range.Mem
        (applyChain element.monotonic_functions_chain (row.key element.key_column))))
    | .FUNCTION_IS_NULL => .push (decide (row.key element.key_column = .POSITIVE_INFINITY))
    | .FUNCTION_IS_NOT_NULL => .push (!decide (row.key element.key_column = .POSITIVE_INFINITY))
    | .FUNCTION_IN_SET => .push (element.set_index.any
        (fun s => decide (row.tuples element.set_tuple ∈ s.elements)))
    | .FUNCTION_NOT_IN_SET => .push (!element.set_index.any
        (fun s => decide (row.tuples element.set_tuple ∈ s.elements)))
    | .FUNCTION_NOT => .unary Bool.not
    | .FUNCTION_AND => .binary Bool.and
    | .FUNCTION_OR => .binary Bool.or
    | .ALWAYS_FALSE => .push false
    | .ALWAYS_TRUE => .push true

/-- The truth value of the condition on a row; `none` if the program is no condition. -/
def truth (rpn : List (RPNElement α)) (row : Row α) : Option Bool :=
  match Instr.run (rpn.map (truthInstr row)) [] with
  | some [b] => some b
  | _ => none

/-! ## Atoms that compare ranges -/

/-- A range that includes neither NULL nor an infinity, as the atoms of the
constructor have them. -/
def NoInfinity (r : Range α) : Prop :=
  ¬ (r.left.field = .NEGATIVE_INFINITY ∧ r.left_included = true) ∧
    ¬ (r.right.field = .POSITIVE_INFINITY ∧ r.right_included = true)

lemma atomMask_admits {c key_range : Range α} {x : Field α} (hx : key_range.Mem x) :
    (atomMask c key_range).Admits (decide (c.Mem x)) := by
  by_cases hmem : c.Mem x
  · rw [decide_eq_true hmem, BoolMask.admits_true]
    exact Range.intersectsRange_of_mem hmem hx
  · rw [decide_eq_false hmem, admits_false, atomMask, Bool.not_eq_true']
    by_contra hcon
    exact hmem (Range.mem_of_containsRange (by simpa using hcon) hx)

/-- A NULL that a function has turned over is still a row on which the atom fails. -/
lemma atomMask_admits_false {condition key_range : Range α} (hcond : NoInfinity condition)
    (hinf : HasInfiniteEnd key_range) : (atomMask condition key_range).Admits false := by
  rw [admits_false, atomMask, Bool.not_eq_true']
  by_contra hcon
  have hcon : condition.containsRange key_range = true := by simpa using hcon
  rcases hinf with hnull | ⟨hl, hinc, -⟩
  · exact hcond.2 (posInf_mem_iff.1 (Range.mem_of_containsRange hcon hnull)).2
  · obtain ⟨⟨hle, hli⟩, -⟩ := Range.containsRange_iff.1 hcon
    rw [hl] at hle hli
    have heq : condition.left.field = .NEGATIVE_INFINITY := le_antisymm hle (Field.negInf_le _)
    exact hcond.1 ⟨heq, hli heq.symm hinc⟩

section Atoms

variable {hyperrectangle : Hyperrectangle α} {single_point : Bool} {row : Row α}
  {element : RPNElement α} {key_range : Range α}

variable (hget : hyperrectangle[element.key_column]? = some key_range)

include hget in
/-- **Range atoms** are sound, chains of functions included. -/
theorem rangeMask_admits
    (hcond : NoInfinity element.range) (hpoint : single_point = true → IsSinglePoint key_range)
    (hrow : row.key element.key_column ≠ .NEGATIVE_INFINITY)
    (hmem : key_range.Mem (row.key element.key_column)) :
    ∃ mask, rangeMask hyperrectangle single_point element = .ok mask ∧
      mask.Admits (decide (element.range.Mem
        (applyChain element.monotonic_functions_chain (row.key element.key_column)))) := by
  unfold rangeMask
  rw [hget]
  dsimp only
  cases hchain : applyMonotonicFunctionsChainToRange key_range element.monotonic_functions_chain
      single_point with
  | none => exact ⟨_, rfl, admits_full _⟩
  | some transformed =>
    refine ⟨_, rfl, ?_⟩
    cases hx : row.key element.key_column with
    | NEGATIVE_INFINITY => exact absurd hx hrow
    | value a =>
      -- a value is mapped into the transformed range
      rw [hx] at hmem
      exact atomMask_admits (value_mem_of_chain hchain hpoint hmem)
    | POSITIVE_INFINITY =>
      -- a NULL is in no range of a condition, and the range that is transformed has an infinite end
      rw [hx] at hmem
      have hnot : ¬ element.range.Mem .POSITIVE_INFINITY :=
        fun h => hcond.2 (posInf_mem_iff.1 h).2
      rw [applyChain_posInf, decide_eq_false hnot]
      exact atomMask_admits_false hcond (hasInfiniteEnd_of_chain hchain hmem)

lemma mem_withoutNull_iff {x : Field α} (hx : x ≠ .NEGATIVE_INFINITY) :
    (Range.createWholeUniverseWithoutNull : Range α).Mem x ↔ x ≠ .POSITIVE_INFINITY := by
  cases x <;> simp_all [Range.createWholeUniverseWithoutNull, Range.Mem, Range.AboveLeft,
    Range.BelowRight]

include hget in
/-- **Null atoms** are sound. -/
theorem isNotNullMask_admits (hrange : element.range = Range.createWholeUniverseWithoutNull)
    (hrow : row.key element.key_column ≠ .NEGATIVE_INFINITY)
    (hmem : key_range.Mem (row.key element.key_column)) :
    ∃ mask, isNotNullMask hyperrectangle element = .ok mask ∧
      mask.Admits (!decide (row.key element.key_column = .POSITIVE_INFINITY)) := by
  unfold isNotNullMask
  rw [hget]
  refine ⟨_, rfl, ?_⟩
  have h := atomMask_admits (c := element.range) hmem
  rw [hrange] at h ⊢
  have hdec : decide ((Range.createWholeUniverseWithoutNull : Range α).Mem
      (row.key element.key_column)) =
        !decide (row.key element.key_column = .POSITIVE_INFINITY) := by
    rw [← decide_not, decide_eq_decide]
    exact mem_withoutNull_iff hrow
  rwa [hdec] at h

end Atoms

/-! ## Soundness -/

/-- The elements a condition is built from, with sets that satisfy `A`. -/
def Built (key_size : ℕ) (A : InSet α → Prop) (element : RPNElement α) : Prop :=
  match element.function with
  | .FUNCTION_IN_RANGE | .FUNCTION_NOT_IN_RANGE =>
    element.key_column < key_size ∧ NoInfinity element.range
  | .FUNCTION_IS_NULL | .FUNCTION_IS_NOT_NULL =>
    element.key_column < key_size ∧ element.range = Range.createWholeUniverseWithoutNull
  | .FUNCTION_IN_SET | .FUNCTION_NOT_IN_SET => ∃ s, element.set_index = some s ∧ A s
  | .FUNCTION_ARGS_IN_HYPERRECTANGLE | .FUNCTION_POINT_IN_POLYGON => False
  | _ => True

/-- The tuples of the row that the sets are about are functions of its key as far as
the mappings say so. -/
def TuplesExtend (row : Row α) (element : RPNElement α) : Prop :=
  ∀ s, element.set_index = some s → s.Extends (row.tuples element.set_tuple) row.key

/-- The evaluation allows for the truth value of the condition on every row with its key
in the hyperrectangle. -/
def SoundAt (special : SpecialAtoms α) (hyperrectangle : Hyperrectangle α) (single_point : Bool)
    (rpn : List (RPNElement α)) : Prop :=
  ∀ row b, IsRow row.key → hyperrectangle.Mem row.key →
    (∀ element ∈ rpn, TuplesExtend row element) → truth rpn row = some b →
    ∃ mask, checkInHyperrectangle special hyperrectangle single_point rpn = .ok mask ∧
      mask.Admits b

section Sound

variable {special : SpecialAtoms α} {hyperrectangle : Hyperrectangle α} {single_point : Bool}
  {A : InSet α → Prop} {m : Eval BoolMask}

lemma map_push_rel {b : Bool} (h : ∃ mask, m = .ok mask ∧ mask.Admits b) :
    ∃ i, m.map push = .ok i ∧ Rel (fun b mask => Admits mask b) (.push b) i := by
  obtain ⟨mask, rfl, hb⟩ := h
  exact ⟨_, rfl, .push hb⟩

lemma map_push_not_rel {b : Bool} (h : ∃ mask, m = .ok mask ∧ mask.Admits b) :
    ∃ i, m.map (fun m => push m.not) = .ok i ∧
      Rel (fun b mask => Admits mask b) (.push (!b)) i := by
  obtain ⟨mask, rfl, hb⟩ := h
  exact ⟨_, rfl, .push hb.not⟩

variable (hpoint : single_point = true → ∀ r ∈ hyperrectangle, IsSinglePoint r)
  (hsets : ∀ s, A s → s.Sound hyperrectangle single_point)

include hpoint hsets in
/-- **One element** does to the stack of masks what it does to the stack of truth values. -/
theorem elementInstr_rel {row : Row α} {element : RPNElement α}
    (hrow : IsRow row.key) (hmem : hyperrectangle.Mem row.key)
    (hbuilt : Built hyperrectangle.length A element) (htuple : TuplesExtend row element) :
    ∃ i, elementInstr special hyperrectangle single_point element = .ok i ∧
      Rel (fun b mask => Admits mask b) (truthInstr row element) i := by
  unfold elementInstr truthInstr
  split_ifs with harg
  · exact ⟨_, rfl, .push (admits_full _)⟩
  -- the range of the key column, where there is one
  have hkey : element.key_column < hyperrectangle.length →
      ∃ key_range, hyperrectangle[element.key_column]? = some key_range ∧
        (single_point = true → IsSinglePoint key_range) ∧
        key_range.Mem (row.key element.key_column) := by
    intro hlt
    have hget := getElem?_eq_getElem hlt
    exact ⟨_, hget, fun hsp => hpoint hsp _ (mem_of_getElem? hget), hmem _ _ hget⟩
  have hset : (∃ s, element.set_index = some s ∧ A s) →
      ∃ mask, inSetMask hyperrectangle single_point element = .ok mask ∧
        mask.Admits (element.set_index.any
          (fun s => decide (row.tuples element.set_tuple ∈ s.elements))) := by
    rintro ⟨s, hs, hA⟩
    rw [inSetMask, hs]
    exact ⟨_, rfl, hsets s hA _ _ hrow hmem (htuple s hs)⟩
  unfold Built at hbuilt
  cases hf : element.function with (rw [hf] at hbuilt)
  | FUNCTION_IN_RANGE =>
    obtain ⟨r, hget, hsp, hr⟩ := hkey hbuilt.1
    exact map_push_rel (rangeMask_admits hget hbuilt.2 hsp (hrow _) hr)
  | FUNCTION_NOT_IN_RANGE =>
    obtain ⟨r, hget, hsp, hr⟩ := hkey hbuilt.1
    exact map_push_not_rel (rangeMask_admits hget hbuilt.2 hsp (hrow _) hr)
  | FUNCTION_IN_SET => exact map_push_rel (hset hbuilt)
  | FUNCTION_NOT_IN_SET => exact map_push_not_rel (hset hbuilt)
  | FUNCTION_IS_NULL =>
    obtain ⟨r, hget, -, hr⟩ := hkey hbuilt.1
    simpa using map_push_not_rel (isNotNullMask_admits hget hbuilt.2 (hrow _) hr)
  | FUNCTION_IS_NOT_NULL =>
    obtain ⟨r, hget, -, hr⟩ := hkey hbuilt.1
    exact map_push_rel (isNotNullMask_admits hget hbuilt.2 (hrow _) hr)
  | FUNCTION_ARGS_IN_HYPERRECTANGLE | FUNCTION_POINT_IN_POLYGON => exact hbuilt.elim
  | FUNCTION_UNKNOWN => exact ⟨_, rfl, .push (admits_full _)⟩
  | FUNCTION_NOT => exact ⟨_, rfl, .unary (fun _ _ h => h.not)⟩
  | FUNCTION_AND => exact ⟨_, rfl, .binary (fun _ _ _ _ h h' => h.and h')⟩
  | FUNCTION_OR => exact ⟨_, rfl, .binary (fun _ _ _ _ h h' => h.or h')⟩
  | ALWAYS_FALSE => exact ⟨_, rfl, .push rfl⟩
  | ALWAYS_TRUE => exact ⟨_, rfl, .push rfl⟩

include hpoint hsets in
/-- **The evaluation is sound** if the sets of the condition are. -/
theorem soundAt_of_built {rpn : List (RPNElement α)}
    (hbuilt : ∀ element ∈ rpn, Built hyperrectangle.length A element) :
    SoundAt special hyperrectangle single_point rpn := by
  intro row b hrow hmem htuples htruth
  -- element by element, the masks allow for the truth values
  obtain ⟨instrs, hinstrs, hrel⟩ : ∃ instrs,
      rpn.mapM (elementInstr special hyperrectangle single_point) = .ok instrs ∧
      List.Forall₂ (Rel (fun b mask => Admits mask b)) (rpn.map (truthInstr row))
        instrs := by
    clear htruth
    induction rpn with
    | nil => exact ⟨[], rfl, List.Forall₂.nil⟩
    | cons e es ih =>
      obtain ⟨i, hi, hrel⟩ := elementInstr_rel hpoint hsets hrow hmem
        (hbuilt e mem_cons_self) (htuples e mem_cons_self)
      obtain ⟨is, his, hrels⟩ := ih (fun x hx => hbuilt x (mem_cons_of_mem _ hx))
        (fun x hx => htuples x (mem_cons_of_mem _ hx))
      refine ⟨i :: is, ?_, hrels.cons hrel⟩
      rw [mapM_cons, hi, his]
      rfl
  -- the two stacks grow and shrink together, and both end with one entry
  unfold truth at htruth
  cases hrun : run (rpn.map (truthInstr row)) [] with
  | none => simp [hrun] at htruth
  | some s =>
    obtain rfl : s = [b] := by
      rcases s with _ | ⟨x, _ | ⟨y, s⟩⟩ <;> simp_all
    obtain ⟨masks, hmasks, hrelmasks⟩ := Instr.run_rel hrel List.Forall₂.nil hrun
    obtain ⟨mask, hb, rfl⟩ : ∃ mask, Admits mask b ∧ masks = [mask] := by
      cases hrelmasks with
      | cons h hnil =>
        cases hnil
        exact ⟨_, h, rfl⟩
    refine ⟨mask, ?_, hb⟩
    unfold checkInHyperrectangle
    rw [hinstrs]
    show stackResult _ (run instrs []) = _
    rw [hmasks]
    rfl

end Sound

end KeyCondition

end ClickHouse
