/-
`KeyCondition::alwaysFalse` and `unknownOrAlwaysTrue`
(`src/Storages/MergeTree/KeyCondition.cpp`), on the programs the constructor makes.

The constructor turns a filter into postfix form (`RPNBuilder::traverseTree`,
`src/Storages/MergeTree/RPNBuilder.h`) and then collapses conditions on the arguments
of a space-filling curve into one atom. What an atom of the filter becomes is left
open here: any element that is not an operator, or none at all.

The abstract value of a program is the abstract value of the filter it comes from
(`run_traverseTree`), collapsing or not (`run_findHyperrectangles`); that it is sound is
then an induction over the filter, in the logic of three truth values, where NULL is
not satisfied either. `alwaysFalse` does not know `FUNCTION_POINT_IN_POLYGON`, which
its siblings do, and throws; on every other program it is total and sound.
-/
import ClickHouse.MergeTree.KeyCondition

set_option autoImplicit false

namespace ClickHouse

open Lib List Instr

variable {α : Type*} [LinearOrder α]

/-! ## The filter and its program -/

/-- An element that is not an operator. -/
def RPNElement.IsAtom (element : RPNElement α) : Prop :=
  element.function ≠ .FUNCTION_NOT ∧ element.function ≠ .FUNCTION_AND ∧
    element.function ≠ .FUNCTION_OR

/-- A filter as the builder sees it. An atom has a number, and what
`extractAtomFromTree` makes of it, if it can. -/
inductive FilterNode (α : Type*) [LinearOrder α] where
  | atom (id : ℕ) (extracted : Option { e : RPNElement α // e.IsAtom })
  | not (arg : FilterNode α)
  | and (first : FilterNode α) (rest : List (FilterNode α))
  | or (first : FilterNode α) (rest : List (FilterNode α))
  | indexHint (args : List (FilterNode α))

/-- What an atom leaves in the program. -/
def atomElement (extracted : Option { e : RPNElement α // e.IsAtom }) : RPNElement α :=
  match extracted with
  | some e => e.val
  | none => { function := .FUNCTION_UNKNOWN }

mutual

/-- `RPNBuilder::traverseTree`. -/
def traverseTree : FilterNode α → List (RPNElement α)
  | .atom _ extracted => [atomElement extracted]
  | .not arg => traverseTree arg ++ [{ function := .FUNCTION_NOT }]
  | .and first rest => traverseTree first ++ traverseRest .FUNCTION_AND rest
  | .or first rest => traverseTree first ++ traverseRest .FUNCTION_OR rest
  -- works as if it were `and`; without arguments it is true
  | .indexHint [] => [{ function := .ALWAYS_TRUE }]
  | .indexHint (first :: rest) => traverseTree first ++ traverseRest .FUNCTION_AND rest

/-- The arguments from the second on, each followed by the operator. -/
def traverseRest (function : RPNFunction) : List (FilterNode α) → List (RPNElement α)
  | [] => []
  | arg :: args => traverseTree arg ++ { function := function } :: traverseRest function args

end

variable (curves : List SpaceFillingCurveDescription)

/-- The curve at a key column has this many arguments; 0 if there is no curve. -/
def num_arguments_of_a_curve (key_column_pos : ℕ) : ℕ :=
  match curves.find? (fun curve => curve.key_column_pos = key_column_pos) with
  | some curve => curve.num_arguments
  | none => 0

/-- One element of the program; the collapsed program is kept with its end in front. -/
def collapseStep (new_rpn : List (RPNElement α))
    (elem : RPNElement α) : List (RPNElement α) :=
  match elem.function, elem.argument_num_of_space_filling_curve with
  | .FUNCTION_IN_RANGE, some arg_num =>
    let curve_total_args := num_arguments_of_a_curve curves elem.key_column
    if curve_total_args = 0 then { function := .FUNCTION_UNKNOWN } :: new_rpn
    else
      { function := .FUNCTION_ARGS_IN_HYPERRECTANGLE
        key_column := elem.key_column
        space_filling_curve_args_hyperrectangle :=
          (List.replicate curve_total_args Range.createWholeUniverseWithoutNull).set arg_num
            elem.range } :: new_rpn
  | .FUNCTION_AND, _ =>
    match new_rpn with
    | cond2 :: cond1 :: below =>
      -- two rectangles of one curve become their intersection
      if cond1.key_column = cond2.key_column
          ∧ cond1.function = .FUNCTION_ARGS_IN_HYPERRECTANGLE
          ∧ cond2.function = .FUNCTION_ARGS_IN_HYPERRECTANGLE then
        { function := .FUNCTION_ARGS_IN_HYPERRECTANGLE
          key_column := cond1.key_column
          space_filling_curve_args_hyperrectangle :=
            List.zipWith Range.intersect cond1.space_filling_curve_args_hyperrectangle
              cond2.space_filling_curve_args_hyperrectangle } :: below
      else elem :: new_rpn
    | _ => elem :: new_rpn
  | _, _ => elem :: new_rpn

/-- `findHyperrectanglesForArgumentsOfSpaceFillingCurves`. -/
def findHyperrectanglesForArgumentsOfSpaceFillingCurves
    (rpn : List (RPNElement α)) : List (RPNElement α) :=
  (rpn.foldl (collapseStep curves) []).reverse

namespace KeyCondition

/-- The program the constructor makes of a filter, or of none. -/
def constructRPN (curves : List SpaceFillingCurveDescription) :
    Option (FilterNode α) → List (RPNElement α)
  | none => [{ function := .FUNCTION_UNKNOWN }]
  | some predicate =>
    findHyperrectanglesForArgumentsOfSpaceFillingCurves curves (traverseTree predicate)

/-! ## The two abstract evaluations -/

/-- What `alwaysFalse` keeps on its stack: 0, 1 and 2. -/
inductive Constness where
  | always_false
  | always_true
  | non_const
  deriving DecidableEq, Repr

namespace Constness

def not : Constness → Constness
  | always_false => always_true
  | always_true => always_false
  | non_const => non_const

def and (arg1 arg2 : Constness) : Constness :=
  if arg1 = always_false ∨ arg2 = always_false then always_false
  else if arg1 = always_true ∧ arg2 = always_true then always_true
  else non_const

def or (arg1 arg2 : Constness) : Constness :=
  if arg1 = always_true ∨ arg2 = always_true then always_true
  else if arg1 = always_false ∧ arg2 = always_false then always_false
  else non_const

end Constness

/-- What an element does to the stack of `alwaysFalse`. -/
def constInstr (element : RPNElement α) : Eval (Instr Constness) :=
  match element.function with
  | .ALWAYS_TRUE => .ok (.push .always_true)
  | .ALWAYS_FALSE => .ok (.push .always_false)
  | .FUNCTION_NOT_IN_RANGE | .FUNCTION_IN_RANGE | .FUNCTION_IN_SET | .FUNCTION_NOT_IN_SET
  | .FUNCTION_ARGS_IN_HYPERRECTANGLE | .FUNCTION_IS_NULL | .FUNCTION_IS_NOT_NULL
  | .FUNCTION_UNKNOWN => .ok (.push .non_const)
  | .FUNCTION_NOT => .ok (.unary Constness.not)
  | .FUNCTION_AND => .ok (.binary Constness.and)
  | .FUNCTION_OR => .ok (.binary Constness.or)
  | .FUNCTION_POINT_IN_POLYGON =>
    throwException .LOGICAL_ERROR (str "Unexpected function type in KeyCondition::RPNElement")

/-- `KeyCondition::alwaysFalse`. -/
def alwaysFalse (rpn : List (RPNElement α)) : Eval Bool :=
  ((rpn.mapM constInstr).bind fun instrs =>
    stackResult (str "Unexpected stack size in KeyCondition::alwaysFalse")
      (Instr.run instrs [])).map
    (fun result => decide (result = .always_false))

/-- What `unknownOrAlwaysTrue` does with its stack; `FUNCTION_NOT` does nothing. -/
def unknownInstr (element : RPNElement α) : Option (Instr Bool) :=
  match element.function with
  | .FUNCTION_UNKNOWN | .ALWAYS_TRUE => some (.push true)
  | .FUNCTION_NOT_IN_RANGE | .FUNCTION_IN_RANGE | .FUNCTION_IN_SET | .FUNCTION_NOT_IN_SET
  | .FUNCTION_ARGS_IN_HYPERRECTANGLE | .FUNCTION_POINT_IN_POLYGON | .FUNCTION_IS_NULL
  | .FUNCTION_IS_NOT_NULL | .ALWAYS_FALSE => some (.push false)
  | .FUNCTION_NOT => none
  | .FUNCTION_AND => some (.binary Bool.and)
  | .FUNCTION_OR => some (.binary Bool.or)

/-- The loop of `unknownOrAlwaysTrue`. With `unknown_any` the first unknown element ends it,
after the elements in front of it have been run. -/
def unknownLoop (unknown_any : Bool) : List (RPNElement α) → List Bool → Eval Bool
  | [], rpn_stack =>
    stackResult (str "Unexpected stack size in KeyCondition::unknownOrAlwaysTrue") (some rpn_stack)
  | element :: rpn, rpn_stack =>
    if element.function = .FUNCTION_UNKNOWN ∧ unknown_any = true then .ok true
    else match unknownInstr element with
      | none => unknownLoop unknown_any rpn rpn_stack
      | some instr =>
        match step rpn_stack instr with
        | none => .error .undefined_behaviour
        | some rpn_stack => unknownLoop unknown_any rpn rpn_stack

/-- `KeyCondition::unknownOrAlwaysTrue`. -/
def unknownOrAlwaysTrue (unknown_any : Bool) (rpn : List (RPNElement α)) : Eval Bool :=
  unknownLoop unknown_any rpn []

end KeyCondition

/-! ## Filters in any logic -/

/-- The operations a filter is evaluated with. -/
structure Logic (α : Type*) [LinearOrder α] (V : Type*) where
  atom : ℕ → Option { e : RPNElement α // e.IsAtom } → V
  not : V → V
  and : V → V → V
  or : V → V → V
  true_ : V

namespace FilterNode

variable {V W : Type*}

mutual

/-- The value of a filter; arguments from the second on are folded from the left. -/
def eval (L : Logic α V) : FilterNode α → V
  | .atom id extracted => L.atom id extracted
  | .not arg => L.not (eval L arg)
  | .and first rest => evalRest L L.and (eval L first) rest
  | .or first rest => evalRest L L.or (eval L first) rest
  | .indexHint [] => L.true_
  | .indexHint (first :: rest) => evalRest L L.and (eval L first) rest

/-- The arguments from the second on, joined one by one to the value so far. -/
def evalRest (L : Logic α V) (op : V → V → V) (acc : V) : List (FilterNode α) → V
  | [] => acc
  | arg :: args => evalRest L op (op (eval L arg) acc) args

end

/-- The instructions of a logic: what the elements of a program do in it. -/
structure Interprets (L : Logic α V) (instr : RPNElement α → Instr V) : Prop where
  atom : ∀ id extracted, instr (atomElement extracted) = .push (L.atom id extracted)
  not : instr { function := .FUNCTION_NOT } = .unary L.not
  and : instr { function := .FUNCTION_AND } = .binary L.and
  or : instr { function := .FUNCTION_OR } = .binary L.or
  true_ : instr { function := .ALWAYS_TRUE } = .push L.true_

mutual

variable {instr : RPNElement α → Instr V}

/-- **A program computes its filter**: it leaves the value of the filter on the stack. -/
theorem run_traverseTree {L : Logic α V}
    (h : Interprets L instr) : (node : FilterNode α) → (s : List V) →
    run ((traverseTree node).map instr) s = some (node.eval L :: s)
  | .atom id extracted, s => by
    simp [traverseTree, eval, h.atom id extracted, step]
  | .not arg, s => by
    simp [traverseTree, eval, run_append, run_traverseTree h arg s, h.not, step]
  | .and first rest, s => by
    rw [traverseTree, map_append, run_append, run_traverseTree h first s,
      Option.bind_some, run_traverseRest h h.and rest, eval]
  | .or first rest, s => by
    rw [traverseTree, map_append, run_append, run_traverseTree h first s,
      Option.bind_some, run_traverseRest h h.or rest, eval]
  | .indexHint [], s => by
    simp [traverseTree, eval, h.true_, step]
  | .indexHint (first :: rest), s => by
    rw [traverseTree, map_append, run_append, run_traverseTree h first s,
      Option.bind_some, run_traverseRest h h.and rest, eval]

lemma run_traverseRest {L : Logic α V}
    (h : Interprets L instr) {function : RPNFunction} {op : V → V → V}
    (hop : instr { function := function } = .binary op) : (args : List (FilterNode α)) →
    (acc : V) → (s : List V) → run ((traverseRest function args).map instr) (acc :: s) =
      some (evalRest L op acc args :: s)
  | [], acc, s => rfl
  | arg :: args, acc, s => by
    rw [traverseRest, map_append, run_append, run_traverseTree h arg, Option.bind_some,
      map_cons, run_cons, hop]
    exact run_traverseRest h hop args (op (eval L arg) acc) s

end

/-- Logics whose atoms and operations are related. -/
structure Related (R : V → W → Prop) (L : Logic α V) (M : Logic α W) : Prop where
  atom : ∀ id extracted, R (L.atom id extracted) (M.atom id extracted)
  not : ∀ v w, R v w → R (L.not v) (M.not w)
  and : ∀ v w v' w', R v w → R v' w' → R (L.and v v') (M.and w w')
  or : ∀ v w v' w', R v w → R v' w' → R (L.or v v') (M.or w w')
  true_ : R L.true_ M.true_

mutual

lemma eval_rel {R : V → W → Prop} {L : Logic α V} {M : Logic α W} (h : Related R L M) :
    (node : FilterNode α) → R (node.eval L) (node.eval M)
  | .atom id extracted => h.atom id extracted
  | .not arg => h.not _ _ (eval_rel h arg)
  | .and first rest => evalRest_rel h h.and rest (eval_rel h first)
  | .or first rest => evalRest_rel h h.or rest (eval_rel h first)
  | .indexHint [] => h.true_
  | .indexHint (first :: rest) => evalRest_rel h h.and rest (eval_rel h first)

lemma evalRest_rel {R : V → W → Prop} {L : Logic α V} {M : Logic α W} (h : Related R L M)
    {op : V → V → V} {op' : W → W → W}
    (hop : ∀ v w v' w', R v w → R v' w' → R (op v v') (op' w w')) :
    (args : List (FilterNode α)) → {acc : V} → {acc' : W} → R acc acc' →
      R (evalRest L op acc args) (evalRest M op' acc' args)
  | [], _, _, hacc => hacc
  | arg :: args, _, _, hacc => evalRest_rel h hop args (hop _ _ _ _ (eval_rel h arg) hacc)

end

end FilterNode

/-! ## The truth of a filter on a row -/

/-- The truth values of the atoms on a row; `none` is NULL. An atom that was found to be
always false is not true, and one that was found to be always true is not false. -/
structure Valuation (α : Type*) [LinearOrder α] where
  truth : ℕ → Option { e : RPNElement α // e.IsAtom } → Option Bool
  always_false : ∀ id e, e.val.function = .ALWAYS_FALSE → truth id (some e) ≠ some true
  always_true : ∀ id e, e.val.function = .ALWAYS_TRUE → truth id (some e) ≠ some false

/-- The logic of three truth values. -/
def Valuation.logic (τ : Valuation α) : Logic α (Option Bool) where
  atom := τ.truth
  not := Option.map Bool.not
  and
    | some false, _ => some false
    | _, some false => some false
    | some true, some true => some true
    | _, _ => none
  or
    | some true, _ => some true
    | _, some true => some true
    | some false, some false => some false
    | _, _ => none
  true_ := some true

namespace KeyCondition

/-- The row satisfies the filter; without a filter every row does. -/
def Satisfies (τ : Valuation α) : Option (FilterNode α) → Prop
  | none => True
  | some predicate => predicate.eval τ.logic = some true

/-- What an element does to the stack of `alwaysFalse`, with polygons as any other atom. -/
def constInstr' (element : RPNElement α) : Instr Constness :=
  match element.function with
  | .ALWAYS_TRUE => .push .always_true
  | .ALWAYS_FALSE => .push .always_false
  | .FUNCTION_NOT => .unary Constness.not
  | .FUNCTION_AND => .binary Constness.and
  | .FUNCTION_OR => .binary Constness.or
  | _ => .push .non_const

/-- The filter as `alwaysFalse` sees it. -/
def constLogic : Logic α Constness where
  atom _ extracted := match (atomElement extracted).function with
    | .ALWAYS_TRUE => .always_true
    | .ALWAYS_FALSE => .always_false
    | _ => .non_const
  not := Constness.not
  and := Constness.and
  or := Constness.or
  true_ := .always_true

lemma constInstr'_interprets : FilterNode.Interprets (constLogic (α := α)) constInstr' where
  atom _ extracted := by
    have hatom : (atomElement extracted).IsAtom := by
      cases extracted with
      | none => exact ⟨nofun, nofun, nofun⟩
      | some e => exact e.property
    obtain ⟨hnot, hand, hor⟩ := hatom
    unfold constInstr' constLogic
    cases hf : (atomElement extracted).function <;> simp_all
  not := rfl
  and := rfl
  or := rfl
  true_ := rfl

/-- The truth values an abstract value allows for; NULL always. -/
def Constness.Allows : Constness → Option Bool → Prop
  | always_false, v => v ≠ some true
  | always_true, v => v ≠ some false
  | non_const, _ => True

/-- What is found to be constant has the opposite value on no row. -/
lemma allows_related (τ : Valuation α) :
    FilterNode.Related Constness.Allows constLogic τ.logic where
  atom id extracted := by
    cases extracted with
    | none => trivial
    | some e =>
      unfold constLogic
      -- of the atoms only the two constants say anything
      cases hf : e.val.function <;>
        simp only [atomElement, hf] <;>
        first
          | exact τ.always_false id e hf
          | exact τ.always_true id e hf
          | trivial
  not v w h := by
    cases v <;> rcases w with _ | _ | _ <;>
      simp_all [Constness.Allows, constLogic, Constness.not, Valuation.logic]
  and v w v' w' h h' := by
    cases v <;> cases v' <;> rcases w with _ | _ | _ <;> rcases w' with _ | _ | _ <;>
      simp_all [Constness.Allows, constLogic, Constness.and, Valuation.logic]
  or v w v' w' h h' := by
    cases v <;> cases v' <;> rcases w with _ | _ | _ <;> rcases w' with _ | _ | _ <;>
      simp_all [Constness.Allows, constLogic, Constness.or, Valuation.logic]
  true_ := by simp [Constness.Allows, constLogic, Valuation.logic]

/-! ## Collapsing -/

/-- A range of an argument as a rectangle, or as unknown without a curve. -/
def argumentRectangle (elem : RPNElement α)
    (arg_num : ℕ) : RPNElement α :=
  let curve_total_args := num_arguments_of_a_curve curves elem.key_column
  if curve_total_args = 0 then { function := .FUNCTION_UNKNOWN }
  else
    { function := .FUNCTION_ARGS_IN_HYPERRECTANGLE
      key_column := elem.key_column
      space_filling_curve_args_hyperrectangle :=
        (List.replicate curve_total_args Range.createWholeUniverseWithoutNull).set arg_num
          elem.range }

/-- What is left of one element before anything is merged. -/
def replaced (elem : RPNElement α) : RPNElement α :=
  match elem.function, elem.argument_num_of_space_filling_curve with
  | .FUNCTION_IN_RANGE, some arg_num => argumentRectangle curves elem arg_num
  | _, _ => elem

/-- The rectangle for two of them. -/
def merged (cond1 cond2 : RPNElement α) : RPNElement α where
  function := .FUNCTION_ARGS_IN_HYPERRECTANGLE
  key_column := cond1.key_column
  space_filling_curve_args_hyperrectangle :=
    List.zipWith Range.intersect cond1.space_filling_curve_args_hyperrectangle
      cond2.space_filling_curve_args_hyperrectangle

/-- Two rectangles of one curve. -/
def Mergeable (cond1 cond2 : RPNElement α) : Prop :=
  cond1.key_column = cond2.key_column ∧
    cond1.function = .FUNCTION_ARGS_IN_HYPERRECTANGLE ∧
    cond2.function = .FUNCTION_ARGS_IN_HYPERRECTANGLE

/-- One element is replaced, or it is an `and` that goes into two rectangles. -/
lemma collapseStep_cases (new_rpn : List (RPNElement α)) (elem : RPNElement α) :
    collapseStep curves new_rpn elem = replaced curves elem :: new_rpn ∨
      ∃ cond1 cond2 below, new_rpn = cond2 :: cond1 :: below ∧ Mergeable cond1 cond2 ∧
        elem.function = .FUNCTION_AND ∧
        collapseStep curves new_rpn elem = merged cond1 cond2 :: below := by
  unfold collapseStep
  split
  next arg_num hrange harg =>
    left
    rw [replaced, hrange, harg]
    dsimp only [argumentRectangle]
    split_ifs <;> rfl
  next hand =>
    -- an `and` stays, unless it has two rectangles of one curve before it
    have hreplaced : replaced curves elem = elem := by rw [replaced, hand]
    rw [hreplaced]
    split
    next cond2 cond1 below =>
      split
      next h => exact .inr ⟨cond1, cond2, below, rfl, h, hand, rfl⟩
      next => exact .inl rfl
    next => exact .inl rfl
  next _ hrange =>
    left
    rw [replaced]
    split
    next arg_num hf harg => exact absurd harg (hrange arg_num hf)
    next => rfl

variable {rpn : List (RPNElement α)}

/-- **Collapsing**, in any evaluation in which two rectangles and their `and` run as the
rectangle that replaces them. -/
theorem run_collapsed {V : Type*} {f : RPNElement α → Instr V} {Q : RPNElement α → Prop}
    {curves : List SpaceFillingCurveDescription}
    (hmerge : ∀ cond1 cond2 and_, Q cond1 → Q cond2 → Mergeable cond1 cond2 →
      and_.function = .FUNCTION_AND → Q (merged cond1 cond2) ∧
        ∀ s, run ([cond1, cond2, and_].map f) s = run ([merged cond1 cond2].map f) s)
    (hrpn : ∀ elem ∈ rpn, Q (replaced curves elem)) (s : List V) :
    run ((findHyperrectanglesForArgumentsOfSpaceFillingCurves curves rpn).map f) s =
      run ((rpn.map (replaced curves)).map f) s := by
  -- the elements collapsed so far run as those they come from
  suffices h : ∀ new_rpn : List (RPNElement α), (∀ elem ∈ new_rpn, Q elem) →
      run ((rpn.foldl (collapseStep curves) new_rpn).reverse.map f) s =
        run ((new_rpn.reverse ++ rpn.map (replaced curves)).map f) s from
    h [] (fun _ hnil => absurd hnil not_mem_nil)
  induction rpn with
  | nil => intro new_rpn _; simp
  | cons elem rpn ih =>
    obtain ⟨helem, hrpn⟩ := forall_mem_cons.1 hrpn
    intro new_rpn hnew
    rw [foldl_cons]
    rcases collapseStep_cases curves new_rpn elem with
      hstep | ⟨cond1, cond2, below, rfl, hmergeable, hand, hstep⟩
    · rw [hstep, ih hrpn _ (forall_mem_cons.2 ⟨helem, hnew⟩)]
      simp
    obtain ⟨hcond2, hrest⟩ := forall_mem_cons.1 hnew
    obtain ⟨hcond1, hbelow⟩ := forall_mem_cons.1 hrest
    have hreplaced : replaced curves elem = elem := by rw [replaced, hand]
    obtain ⟨hmerged, hrun⟩ := hmerge cond1 cond2 elem hcond1 hcond2 hmergeable hand
    rw [hstep, ih hrpn _ (forall_mem_cons.2 ⟨hmerged, hbelow⟩)]
    have hleft : ((merged cond1 cond2 :: below).reverse ++ rpn.map (replaced curves)).map f =
        below.reverse.map f ++ ([merged cond1 cond2].map f ++
          (rpn.map (replaced curves)).map f) := by simp
    have hright : ((cond2 :: cond1 :: below).reverse ++ (elem :: rpn).map (replaced curves)).map f =
        below.reverse.map f ++ ([cond1, cond2, elem].map f ++
          (rpn.map (replaced curves)).map f) := by simp [hreplaced]
    rw [hleft, hright, run_append, run_append]
    refine congrArg _ (funext fun t => ?_)
    rw [run_append, run_append, hrun t]

variable {element : RPNElement α}

lemma constInstr'_of_hyperrectangle (h : element.function = .FUNCTION_ARGS_IN_HYPERRECTANGLE) :
    constInstr' element = .push .non_const := by
  rw [constInstr', h]

lemma constInstr'_replaced (elem : RPNElement α) :
    constInstr' (replaced curves elem) = constInstr' elem := by
  rw [replaced]
  split
  next arg_num hrange harg =>
    -- one atom for another
    have helem : constInstr' elem = .push .non_const := by rw [constInstr', hrange]
    rw [helem, argumentRectangle]
    split_ifs <;> rfl
  next => rfl

/-- **Collapsing keeps the abstract value**. -/
theorem run_findHyperrectangles (rpn : List (RPNElement α)) (s : List Constness) :
    run ((findHyperrectanglesForArgumentsOfSpaceFillingCurves curves rpn).map constInstr') s =
      run (rpn.map constInstr') s := by
  rw [run_collapsed (Q := fun _ => True) ?_ (fun _ _ => trivial), map_map]
  · congr 1
    exact map_congr_left fun elem _ => constInstr'_replaced curves elem
  intro cond1 cond2 and_ _ _ hmergeable hand
  refine ⟨trivial, fun s => ?_⟩
  have hbinary : constInstr' and_ = .binary Constness.and := by rw [constInstr', hand]
  simp only [map_cons, map_nil, constInstr'_of_hyperrectangle hmergeable.2.1,
    constInstr'_of_hyperrectangle hmergeable.2.2, hbinary]
  rfl

/-! ## Totality and soundness -/

/-- No element is a polygon. -/
def NoPolygon (rpn : List (RPNElement α)) : Prop :=
  ∀ element ∈ rpn, element.function ≠ .FUNCTION_POINT_IN_POLYGON

lemma constInstr_eq (h : element.function ≠ .FUNCTION_POINT_IN_POLYGON) :
    constInstr element = .ok (constInstr' element) := by
  unfold constInstr constInstr'
  split <;> simp_all

lemma mapM_constInstr (h : NoPolygon rpn) : rpn.mapM constInstr = .ok (rpn.map constInstr') := by
  induction rpn with
  | nil => rfl
  | cons element rpn ih =>
    obtain ⟨helement, hrpn⟩ := forall_mem_cons.1 h
    rw [mapM_cons, constInstr_eq helement, ih hrpn]
    rfl

/-- A program with a polygon is not evaluated: its instructions are not even read to the end. -/
lemma mapM_constInstr_of_polygon (h : ¬ NoPolygon rpn) : ∃ e, rpn.mapM constInstr = .error e := by
  induction rpn with
  | nil => exact absurd (fun _ => nofun) h
  | cons element rpn ih =>
    rw [mapM_cons]
    by_cases helement : element.function = .FUNCTION_POINT_IN_POLYGON
    · exact ⟨_, by rw [constInstr, helement]; rfl⟩
    · have hrpn : ¬ NoPolygon rpn := fun hrpn => h (forall_mem_cons.2 ⟨helement, hrpn⟩)
      obtain ⟨e, he⟩ := ih hrpn
      exact ⟨e, by rw [constInstr_eq helement, he]; rfl⟩

/-- The abstract value of a filter, or of none. -/
def constness : Option (FilterNode α) → Constness
  | none => .non_const
  | some predicate => predicate.eval constLogic

lemma run_constructRPN (predicate : Option (FilterNode α)) :
    run ((constructRPN curves predicate).map constInstr') [] = some [constness predicate] := by
  cases predicate with
  | none => rfl
  | some predicate =>
    rw [constructRPN, run_findHyperrectangles, FilterNode.run_traverseTree constInstr'_interprets]
    rfl

lemma alwaysFalse_constructRPN
    (predicate : Option (FilterNode α)) (h : NoPolygon (constructRPN curves predicate)) :
    alwaysFalse (constructRPN curves predicate) =
      .ok (decide (constness predicate = .always_false)) := by
  unfold alwaysFalse
  rw [mapM_constInstr h]
  simp only [Except.bind, run_constructRPN]
  rfl

lemma not_satisfies_of_always_false {predicate : Option (FilterNode α)}
    (h : constness predicate = .always_false) (τ : Valuation α) : ¬ Satisfies τ predicate := by
  cases predicate with
  | none => exact absurd h nofun
  | some predicate =>
    have hallows := FilterNode.eval_rel (allows_related τ) predicate
    have hfalse : predicate.eval constLogic = .always_false := h
    rw [hfalse] at hallows
    exact hallows

/-- **`alwaysFalse` is total and sound** on the program of a filter exactly if the program
has no polygon. -/
theorem alwaysFalse_total_and_sound_iff (curves : List SpaceFillingCurveDescription)
    (predicate : Option (FilterNode α)) :
    (∃ b, alwaysFalse (constructRPN curves predicate) = .ok b ∧
      (b = true → ∀ τ : Valuation α, ¬ Satisfies τ predicate)) ↔
      NoPolygon (constructRPN curves predicate) := by
  constructor
  · rintro ⟨b, hb, -⟩
    by_contra h
    obtain ⟨e, he⟩ := mapM_constInstr_of_polygon h
    rw [alwaysFalse, he] at hb
    exact absurd hb nofun
  · intro h
    refine ⟨_, alwaysFalse_constructRPN curves predicate h, fun hb => ?_⟩
    exact not_satisfies_of_always_false (of_decide_eq_true hb)

/-- `pointInPolygon((x, y), …)` over key columns, as the constructor extracts it. -/
def polygonPredicate : FilterNode ℤ :=
  .atom 0 (some ⟨{ function := .FUNCTION_POINT_IN_POLYGON }, by
    exact ⟨nofun, nofun, nofun⟩⟩)

theorem alwaysFalse_throws_on_polygon :
    alwaysFalse (constructRPN [] (some polygonPredicate)) =
      throwException .LOGICAL_ERROR
        (str "Unexpected function type in KeyCondition::RPNElement") := by
  rfl

/-! ## The sibling evaluation -/

/-- Apart from `not`, which is skipped, `unknownOrAlwaysTrue` moves its stack as
`alwaysFalse` does. -/
lemma unknownInstr_rel (element : RPNElement α) :
    (unknownInstr element = none ∧ constInstr' element = .unary Constness.not) ∨
      ∃ i, unknownInstr element = some i ∧
        Rel (fun _ _ => True) (constInstr' element) i := by
  unfold unknownInstr constInstr'
  cases element.function
  case FUNCTION_NOT => exact .inl ⟨rfl, rfl⟩
  case FUNCTION_AND => exact .inr ⟨_, rfl, .binary fun _ _ _ _ _ _ => trivial⟩
  case FUNCTION_OR => exact .inr ⟨_, rfl, .binary fun _ _ _ _ _ _ => trivial⟩
  all_goals exact .inr ⟨_, rfl, .push trivial⟩

/-- Where `alwaysFalse` finds its operands from the stack `s` on and ends with one value, the
sibling does so from any stack of that height. -/
lemma unknownLoop_total (unknown_any : Bool) {s : List Constness} {t : List Bool} {c : Constness}
    (hs : Forall₂ (fun _ _ => True) s t) (h : run (rpn.map constInstr') s = some [c]) :
    ∃ b, unknownLoop unknown_any rpn t = .ok b := by
  induction rpn generalizing s t with
  | nil =>
    obtain rfl := Option.some.inj h
    obtain ⟨b, rfl⟩ := length_eq_one_iff.1 hs.length_eq.symm
    exact ⟨b, rfl⟩
  | cons element rpn ih =>
    rw [map_cons, run_cons, Option.bind_eq_some_iff] at h
    obtain ⟨s₁, hs₁, h⟩ := h
    rw [unknownLoop]
    split
    · exact ⟨true, rfl⟩
    rcases unknownInstr_rel element with ⟨hnone, hnot⟩ | ⟨i, hi, hrel⟩
    · -- `alwaysFalse` replaces the top value, so that there is one, and the sibling keeps it
      rw [hnone]
      rw [hnot] at hs₁
      cases hs with
      | nil => cases hs₁
      | cons _ hs =>
        obtain rfl := Option.some.inj hs₁
        exact ih (hs.cons trivial) h
    · obtain ⟨t₁, ht₁, hst⟩ := step_rel hrel hs hs₁
      simp only [hi, ht₁]
      exact ih hst h

/-- **`unknownOrAlwaysTrue` is total** on the program of every filter, polygons included: no
element it runs, up to the first unknown one or to the end, takes from an empty stack. -/
theorem unknownOrAlwaysTrue_total (unknown_any : Bool) (predicate : Option (FilterNode α)) :
    ∃ b, unknownOrAlwaysTrue unknown_any (constructRPN curves predicate) = .ok b :=
  unknownLoop_total unknown_any .nil (run_constructRPN curves predicate)

end KeyCondition

end ClickHouse
