/-
`cloneDAGWithInversionPushDown` (`src/Storages/MergeTree/KeyCondition.cpp`): the copy of
a filter in which NOT is pushed down to the relations.

The function calls itself on the children of a node without remembering the nodes it has
seen, so a shared node is copied once for every path to it, and a DAG is modelled by the
tree it unfolds to. The names and types of nodes are left out, but for the type that makes
a cast trivial. A function is resolved again where the types of its arguments have
changed; that finds the function of the same name, which is all that is kept of it here.

A predicate starts with a chain of `not`, aliases, `materialize` and trivial casts, which
the copy leaves out, and what the copy makes of the chain is one equation,
`eval_cloneDAG`. An argument of a logical function matters by its truth value, an argument
of any other function by its value: `TruthsClean` and `ValuesClean` are what the two need,
and recurse together. `materialize` and the trivial cast pass the inversion to their argument
and do not say that it is handled, so it is made up for once more by an explicit NOT:
`extraNot` counts these, and a predicate keeps its meaning exactly if they cancel out, or
if it is NULL. In value position, two `not` that cancel out leave a value that need not be
0 or 1.
-/
import ClickHouse.Core.Types

set_option autoImplicit false

namespace ClickHouse.InversionPushDown

open List

/-! ## Functions and nodes -/

/-- `and`, `or`, `xor`. -/
inductive LogicalFunction where
  | and
  | or
  | xor
  deriving DecidableEq, Repr

/-- The functions of the table of inverses, and `globalNotNullIn`. -/
inductive Relation where
  | equals
  | notEquals
  | less
  | greaterOrEquals
  | greater
  | lessOrEquals
  | in_
  | notIn
  | globalIn
  | globalNotIn
  | nullIn
  | notNullIn
  | globalNullIn
  | globalNotNullIn
  | isNull
  | isNotNull
  | like
  | notLike
  | ilike
  | notILike
  | empty
  | notEmpty
  deriving DecidableEq, Repr

/-- `inverse_relations`. The table has an entry for `globalNullNotIn`, which is not the
name of a function, and none for `globalNotNullIn`. -/
def inverse_relations : Relation → Option Relation
  | .equals => some .notEquals
  | .notEquals => some .equals
  | .less => some .greaterOrEquals
  | .greaterOrEquals => some .less
  | .greater => some .lessOrEquals
  | .lessOrEquals => some .greater
  | .in_ => some .notIn
  | .notIn => some .in_
  | .globalIn => some .globalNotIn
  | .globalNotIn => some .globalIn
  | .nullIn => some .notNullIn
  | .notNullIn => some .nullIn
  | .globalNullIn => some .globalNotNullIn
  | .globalNotNullIn => none
  | .isNull => some .isNotNull
  | .isNotNull => some .isNull
  | .like => some .notLike
  | .notLike => some .like
  | .ilike => some .notILike
  | .notILike => some .ilike
  | .empty => some .notEmpty
  | .notEmpty => some .empty

/-- The value of a COLUMN node: a string, or any other constant, NULL included. -/
inductive Constant (α : Type*) where
  | string (s : Bytes)
  | value (v : Option α)

/-- `ActionsDAG::Node`, with the functions that are treated by their names. -/
inductive Node (α : Type*) where
  | input (name : ℕ)
  | column (value : Constant α)
  | placeholder (name : ℕ)
  | alias (arg : Node α)
  | arrayJoin (arg : Node α)
  | not (arg : Node α)
  | indexHint (args : List (Node α))
  | materialize (arg : Node α)
  | cast (arg type_arg : Node α)
  | logical (f : LogicalFunction) (args : List (Node α))
  | relation (r : Relation) (args : List (Node α))
  | function (id : ℕ) (args : List (Node α))

variable {α : Type*}

/-- `isTrivialCast`: to the type that the argument has. -/
def isTrivialCast (result_type : Node α → Bytes) (arg type_arg : Node α) : Bool :=
  match type_arg with
  | .column (.string type_name) => decide (result_type arg = type_name)
  | _ => false

/-! ## The copy -/

section Model

variable (result_type : Node α → Bytes)

/-- An inversion that is not handled is an explicit `not`. -/
def addNot (need_inversion : Bool) (res : Node α) : Node α :=
  if need_inversion then .not res else res

mutual

/-- `cloneDAGWithInversionPushDown`. -/
def cloneDAG (need_inversion : Bool) : Node α → Node α
  | .input name => addNot need_inversion (.input name)
  | .column value => addNot need_inversion (.column value)
  | .placeholder name => addNot need_inversion (.placeholder name)
  | .alias arg => cloneDAG need_inversion arg
  | .arrayJoin arg => addNot need_inversion (.arrayJoin (cloneDAG false arg))
  | .not arg => cloneDAG (!need_inversion) arg
  | .indexHint args => .indexHint (cloneDAGs need_inversion args)
  -- the inversion is passed on, and is not marked as handled
  | .materialize arg => addNot need_inversion (cloneDAG need_inversion arg)
  | .cast arg type_arg =>
    if isTrivialCast result_type arg type_arg then
      addNot need_inversion (cloneDAG need_inversion arg)
    else addNot need_inversion (.cast (cloneDAG false arg) (cloneDAG false type_arg))
  | .logical .xor args => addNot need_inversion (.logical .xor (cloneDAGs false args))
  | .logical .and args =>
    if need_inversion then .logical .or (cloneDAGs need_inversion args)
    else .logical .and (cloneDAGs false args)
  | .logical .or args =>
    if need_inversion then .logical .and (cloneDAGs need_inversion args)
    else .logical .or (cloneDAGs false args)
  | .relation r args =>
    match inverse_relations r with
    | some inverse => .relation (if need_inversion then inverse else r) (cloneDAGs false args)
    | none => addNot need_inversion (.relation r (cloneDAGs false args))
  | .function id args => addNot need_inversion (.function id (cloneDAGs false args))

def cloneDAGs (need_inversion : Bool) : List (Node α) → List (Node α)
  | [] => []
  | arg :: args => cloneDAG need_inversion arg :: cloneDAGs need_inversion args

end

end Model

/-! ## What a predicate means -/

/-- The meaning of functions. The values are linearly ordered, and NULL is `none`; of the
relations that are not comparisons one of each pair is given, and so are all functions
without a name of their own. -/
structure Meaning (α : Type*) where
  isTrue : α → Bool
  ofBool : Bool → α
  isTrue_ofBool : ∀ b, isTrue (ofBool b) = b
  string : Bytes → α
  relation : Relation → List (Option α) → Option Bool
  function : ℕ → List (Option α) → Option α
  cast : Option α → Option α → Option α
  arrayJoin : Option α → Option α

/-- A comparison is NULL if an argument is. -/
def comparison (p : α → α → Bool) : List (Option α) → Option Bool
  | [some a, some b] => some (p a b)
  | _ => none

/-- The negation in the logic of three truth values. -/
def notTruth (t : Option Bool) : Option Bool := t.map (!·)

namespace LogicalFunction

/-- The other functions of the logic. -/
def apply2 : LogicalFunction → Option Bool → Option Bool → Option Bool
  | .and, some false, _ => some false
  | .and, _, some false => some false
  | .and, some true, some true => some true
  | .or, some true, _ => some true
  | .or, _, some true => some true
  | .or, some false, some false => some false
  | .xor, some a, some b => some (a ^^ b)
  | _, _, _ => none

/-- The value of the function without arguments. -/
def unit : LogicalFunction → Bool
  | .and => true
  | .or => false
  | .xor => false

def apply (f : LogicalFunction) (args : List (Option Bool)) : Option Bool :=
  args.foldr f.apply2 (some f.unit)

end LogicalFunction

section Eval

variable (M : Meaning α)

/-- The truth of a value. -/
def truth (v : Option α) : Option Bool := v.map M.isTrue

/-- A truth value as a value. -/
def ofTruth (t : Option Bool) : Option α := t.map M.ofBool

/-- `not` of a value. -/
def notValue (v : Option α) : Option α := ofTruth M (notTruth (truth M v))

variable [LinearOrder α]

/-- The truth of a relation. -/
def relationTruth (r : Relation) (args : List (Option α)) : Option Bool :=
  match r with
  | .equals => comparison (fun a b => decide (a = b)) args
  | .notEquals => comparison (fun a b => decide (a ≠ b)) args
  | .less => comparison (fun a b => decide (a < b)) args
  | .greaterOrEquals => comparison (fun a b => decide (a ≥ b)) args
  | .greater => comparison (fun a b => decide (a > b)) args
  | .lessOrEquals => comparison (fun a b => decide (a ≤ b)) args
  -- these are what their names say, in the logic with NULL
  | .notIn => notTruth (M.relation .in_ args)
  | .globalNotIn => notTruth (M.relation .globalIn args)
  | .notNullIn => notTruth (M.relation .nullIn args)
  | .globalNotNullIn => notTruth (M.relation .globalNullIn args)
  | .isNotNull => notTruth (M.relation .isNull args)
  | .notLike => notTruth (M.relation .like args)
  | .notILike => notTruth (M.relation .ilike args)
  | .notEmpty => notTruth (M.relation .empty args)
  | r => M.relation r args

variable (row : ℕ → Option α)

mutual

/-- The value of a node, with the values of inputs and placeholders given. -/
def eval : Node α → Option α
  | .input name => row name
  | .column (.string s) => some (M.string s)
  | .column (.value v) => v
  | .placeholder name => row name
  | .alias arg => eval arg
  | .arrayJoin arg => M.arrayJoin (eval arg)
  | .not arg => notValue M (eval arg)
  | .indexHint _ => some (M.ofBool true)
  | .materialize arg => eval arg
  | .cast arg type_arg => M.cast (eval arg) (eval type_arg)
  | .logical f args => ofTruth M (f.apply ((evals args).map (truth M)))
  | .relation r args => ofTruth M (relationTruth M r (evals args))
  | .function id args => M.function id (evals args)

def evals : List (Node α) → List (Option α)
  | [] => []
  | arg :: args => eval arg :: evals args

end

/-- A cast to the type that its argument has changes nothing. -/
def CastsTrivially (result_type : Node α → Bytes) : Prop :=
  ∀ arg type_arg, isTrivialCast result_type arg type_arg = true →
    M.cast (eval M row arg) (eval M row type_arg) = eval M row arg

end Eval

/-! ## Truth values -/

section Truth

variable {M : Meaning α}

/-- Negate if asked to. -/
def negateIf (b : Bool) (t : Option Bool) : Option Bool := if b then notTruth t else t

@[simp] lemma notTruth_notTruth (t : Option Bool) : notTruth (notTruth t) = t := by
  cases t <;> simp [notTruth]

lemma negateIf_not (b : Bool) (t : Option Bool) : negateIf (!b) t = negateIf b (notTruth t) := by
  cases b <;> simp [negateIf]

lemma notTruth_negateIf (b : Bool) (t : Option Bool) :
    notTruth (negateIf b t) = negateIf (!b) t := by
  cases b <;> simp [negateIf]

/-- Only NULL is its own negation. -/
lemma negateIf_eq_iff {a b : Bool} {t : Option Bool} :
    negateIf a t = negateIf b t ↔ a = b ∨ t = none := by
  rcases t with _ | t
  · cases a <;> cases b <;> simp [negateIf, notTruth]
  · cases a <;> cases b <;> cases t <;> simp [negateIf, notTruth]

@[simp] lemma truth_ofTruth (t : Option Bool) : truth M (ofTruth M t) = t := by
  cases t <;> simp [truth, ofTruth, M.isTrue_ofBool]

@[simp] lemma truth_notValue (v : Option α) : truth M (notValue M v) = notTruth (truth M v) := by
  rw [notValue, truth_ofTruth]

/-- A value that is NULL, 0 or 1. -/
def IsBool (M : Meaning α) (v : Option α) : Prop := ofTruth M (truth M v) = v

lemma isBool_ofTruth (t : Option Bool) : IsBool M (ofTruth M t) := by
  rw [IsBool, truth_ofTruth]

lemma isBool_notValue (v : Option α) : IsBool M (notValue M v) := isBool_ofTruth _

lemma IsBool.eq_of_truth_eq {v w : Option α} (hv : IsBool M v) (hw : IsBool M w)
    (h : truth M v = truth M w) : v = w := by
  rw [← hv, ← hw, h]

/-- De Morgan's law. -/
lemma or_apply_notTruth (args : List (Option Bool)) :
    LogicalFunction.or.apply (args.map notTruth) = notTruth (LogicalFunction.and.apply args) := by
  induction args with
  | nil => rfl
  | cons arg args ih =>
    have hstep : ∀ t u : Option Bool, LogicalFunction.or.apply2 (notTruth t) (notTruth u) =
        notTruth (LogicalFunction.and.apply2 t u) := by decide
    show LogicalFunction.or.apply2 (notTruth arg) (LogicalFunction.or.apply (args.map notTruth)) = _
    rw [ih, hstep]
    rfl

lemma and_apply_notTruth (args : List (Option Bool)) :
    LogicalFunction.and.apply (args.map notTruth) = notTruth (LogicalFunction.or.apply args) := by
  have h := or_apply_notTruth (args.map notTruth)
  rw [map_map, Function.comp_def] at h
  simp only [notTruth_notTruth, map_id'] at h
  rw [h, notTruth_notTruth]

lemma comparison_not {p q : α → α → Bool} (h : ∀ a b, q a b = !p a b)
    (args : List (Option α)) : comparison q args = notTruth (comparison p args) := by
  unfold comparison
  split <;> simp_all [notTruth]

/-- The table is right: the other relation is the negation. -/
lemma relationTruth_inverse [LinearOrder α] {r inverse : Relation}
    (h : inverse_relations r = some inverse) (args : List (Option α)) :
    relationTruth M inverse args = notTruth (relationTruth M r args) := by
  cases r <;> simp only [inverse_relations, Option.some.injEq, reduceCtorEq] at h <;> subst h
  case equals | notEquals | less | greaterOrEquals | greater | lessOrEquals =>
    exact comparison_not (fun a b => Bool.eq_iff_iff.2 (by simp)) args
  all_goals simp [relationTruth]

end Truth

/-! ## The chain at the top of a predicate -/

section Chain

variable (result_type : Node α → Bytes)

/-- Whether the copy of the chain has an odd number of surplus negations. -/
def extraNot (need_inversion : Bool) : Node α → Bool
  | .alias arg => extraNot need_inversion arg
  | .not arg => extraNot (!need_inversion) arg
  | .materialize arg => need_inversion ^^ extraNot need_inversion arg
  | .cast arg type_arg =>
    if isTrivialCast result_type arg type_arg then need_inversion ^^ extraNot need_inversion arg
    else false
  | _ => false

/-- The end of the chain, if the copy of it has no function in front. -/
def bare (need_inversion : Bool) : Node α → Option (Node α)
  | .alias arg => bare need_inversion arg
  | .not arg => bare (!need_inversion) arg
  | .materialize arg => if need_inversion then none else bare need_inversion arg
  | .cast arg type_arg =>
    if isTrivialCast result_type arg type_arg then
      if need_inversion then none else bare need_inversion arg
    else if need_inversion then none else some (.cast arg type_arg)
  | node => if need_inversion then none else some node

/-- There is a `not` in the chain. -/
def hasNot : Node α → Bool
  | .alias arg => hasNot arg
  | .not _ => true
  | .materialize arg => hasNot arg
  | .cast arg type_arg => if isTrivialCast result_type arg type_arg then hasNot arg else false
  | _ => false

variable [LinearOrder α] (M : Meaning α) (row : ℕ → Option α)

/-- The value of a copied chain, if what is below it has kept its meaning. -/
def chainValue (need_inversion : Bool) : Node α → Option α
  | .alias arg => chainValue need_inversion arg
  | .not arg => chainValue (!need_inversion) arg
  | .materialize arg =>
    if need_inversion then notValue M (chainValue need_inversion arg)
    else chainValue need_inversion arg
  | .cast arg type_arg =>
    if isTrivialCast result_type arg type_arg then
      if need_inversion then notValue M (chainValue need_inversion arg)
      else chainValue need_inversion arg
    else if need_inversion then notValue M (eval M row (.cast arg type_arg))
    else eval M row (.cast arg type_arg)
  | node => if need_inversion then notValue M (eval M row node) else eval M row node

/-- The surplus negations of the chain cancel out, or the predicate is NULL. -/
def TruthKept (need_inversion : Bool) (node : Node α) : Prop :=
  extraNot result_type need_inversion node = false ∨ truth M (eval M row node) = none

/-- In value position, where two `not` cancel out, what they are applied to is NULL, 0 or 1. -/
def ValueKept (node : Node α) : Prop :=
  TruthKept result_type M row false node ∧
    (hasNot result_type node = true →
      ∀ e, bare result_type false node = some e → IsBool M (eval M row e))

mutual

/-- What is below the chain keeps its meaning in the copy. -/
def ArgsClean : Bool → Node α → Prop
  | need_inversion, .alias arg => ArgsClean need_inversion arg
  | need_inversion, .not arg => ArgsClean (!need_inversion) arg
  | need_inversion, .materialize arg => ArgsClean need_inversion arg
  | need_inversion, .cast arg type_arg =>
    if isTrivialCast result_type arg type_arg then ArgsClean need_inversion arg
    else (ArgsClean false arg ∧ ValueKept result_type M row arg) ∧
      (ArgsClean false type_arg ∧ ValueKept result_type M row type_arg)
  | _, .arrayJoin arg => ArgsClean false arg ∧ ValueKept result_type M row arg
  -- always true, so it has no negation
  | need_inversion, .indexHint _ => need_inversion = false
  | _, .logical .xor args => TruthsClean false args
  | need_inversion, .logical .and args => TruthsClean need_inversion args
  | need_inversion, .logical .or args => TruthsClean need_inversion args
  | _, .relation _ args => ValuesClean args
  | _, .function _ args => ValuesClean args
  | _, _ => True

/-- Arguments that matter by their truth. -/
def TruthsClean : Bool → List (Node α) → Prop
  | _, [] => True
  | need_inversion, arg :: args =>
    (ArgsClean need_inversion arg ∧ TruthKept result_type M row need_inversion arg) ∧
      TruthsClean need_inversion args

/-- Arguments that matter by their value. -/
def ValuesClean : List (Node α) → Prop
  | [] => True
  | arg :: args => (ArgsClean false arg ∧ ValueKept result_type M row arg) ∧ ValuesClean args

end

end Chain

section ChainLemmas

variable {result_type : Node α → Bytes}

/-- A node that is not passed over. -/
def IsEnd (result_type : Node α → Bytes) : Node α → Prop
  | .alias _ => False
  | .not _ => False
  | .materialize _ => False
  | .cast arg type_arg => isTrivialCast result_type arg type_arg = false
  | _ => True

/-- Induction along the chain. -/
lemma chain_induction (result_type : Node α → Bytes) {motive : Node α → Prop}
    (last : ∀ node, IsEnd result_type node → motive node)
    (aliased : ∀ arg, motive arg → motive (.alias arg))
    (negated : ∀ arg, motive arg → motive (.not arg))
    (materialized : ∀ arg, motive arg → motive (.materialize arg))
    (recast : ∀ arg type_arg, isTrivialCast result_type arg type_arg = true → motive arg →
      motive (.cast arg type_arg)) : (node : Node α) → motive node
  | .alias arg =>
    aliased arg (chain_induction result_type last aliased negated materialized recast arg)
  | .not arg =>
    negated arg (chain_induction result_type last aliased negated materialized recast arg)
  | .materialize arg =>
    materialized arg (chain_induction result_type last aliased negated materialized recast arg)
  | .cast arg type_arg =>
    if h : isTrivialCast result_type arg type_arg = true then
      recast arg type_arg h
        (chain_induction result_type last aliased negated materialized recast arg)
    else last _ (Bool.eq_false_of_not_eq_true h)
  | .input _ => last _ trivial
  | .column _ => last _ trivial
  | .placeholder _ => last _ trivial
  | .arrayJoin _ => last _ trivial
  | .indexHint _ => last _ trivial
  | .logical _ _ => last _ trivial
  | .relation _ _ => last _ trivial
  | .function _ _ => last _ trivial

variable {node : Node α}

lemma isEnd_spec (h : IsEnd result_type node) (need_inversion : Bool) :
    hasNot result_type node = false ∧ extraNot result_type need_inversion node = false ∧
      bare result_type need_inversion node = if need_inversion then none else some node := by
  cases node <;> simp_all [IsEnd, hasNot, extraNot, bare]

variable [LinearOrder α] {M : Meaning α} {row : ℕ → Option α}

lemma chainValue_of_isEnd (node : Node α) (h : IsEnd result_type node) (need_inversion : Bool) :
    chainValue result_type M row need_inversion node =
      if need_inversion then notValue M (eval M row node) else eval M row node := by
  cases node <;> simp_all [IsEnd, chainValue]

/-- A copied chain is bare, and has the value of its end, or is NULL, 0 or 1. -/
lemma chainValue_cases (node : Node α) (need_inversion : Bool) :
    (∃ e, bare result_type need_inversion node = some e ∧
      chainValue result_type M row need_inversion node = eval M row e) ∨
    IsBool M (chainValue result_type M row need_inversion node) := by
  induction node using chain_induction result_type generalizing need_inversion with
  | last node hend =>
    rw [chainValue_of_isEnd node hend, (isEnd_spec hend _).2.2]
    cases need_inversion
    · exact .inl ⟨node, rfl, rfl⟩
    · exact .inr (isBool_notValue _)
  | aliased arg ih => rw [chainValue, bare]; exact ih need_inversion
  | negated arg ih => rw [chainValue, bare]; exact ih (!need_inversion)
  | materialized arg ih =>
    cases need_inversion
    · exact ih false
    · exact .inr (isBool_notValue _)
  | recast arg type_arg htrivial ih =>
    rw [chainValue, bare, if_pos htrivial, if_pos htrivial]
    cases need_inversion
    · exact ih false
    · exact .inr (isBool_notValue _)

lemma eval_addNot (need_inversion : Bool) (node : Node α) :
    eval M row (addNot need_inversion node) =
      if need_inversion then notValue M (eval M row node) else eval M row node := by
  cases need_inversion <;> simp [addNot, eval]

lemma negateIf_false : negateIf false = id := rfl

lemma negateIf_true : negateIf true = notTruth := rfl

variable (hcast : CastsTrivially M row result_type)
include hcast

/-- **The truth of a copied chain**: negated as asked for, and by the surplus negations. -/
theorem truth_chainValue (node : Node α) (need_inversion : Bool) :
    truth M (chainValue result_type M row need_inversion node) =
      negateIf (need_inversion ^^ extraNot result_type need_inversion node)
        (truth M (eval M row node)) := by
  -- the wrappers carry the negation down and add it once more above
  have hwrapper : ∀ (arg : Node α) (b : Bool), truth M (chainValue result_type M row b arg) =
        negateIf (b ^^ extraNot result_type b arg) (truth M (eval M row arg)) →
      truth M (if b then notValue M (chainValue result_type M row b arg)
        else chainValue result_type M row b arg) =
        negateIf (b ^^ (b ^^ extraNot result_type b arg)) (truth M (eval M row arg)) := by
    intro arg b ih
    cases b
    · simpa using ih
    · rw [if_pos rfl, truth_notValue, ih, notTruth_negateIf]
      cases extraNot result_type true arg <;> rfl
  induction node using chain_induction result_type generalizing need_inversion with
  | last node h =>
    rw [chainValue_of_isEnd node h, (isEnd_spec h _).2.1]
    cases need_inversion <;> simp [negateIf]
  | aliased arg ih =>
    rw [chainValue, extraNot, eval, ih]
  | negated arg ih =>
    -- the `not` is left out and the flag is turned
    rw [chainValue, extraNot, eval, ih, truth_notValue, ← negateIf_not]
    cases need_inversion <;> cases extraNot result_type _ arg <;> rfl
  | materialized arg ih =>
    exact hwrapper arg need_inversion (ih need_inversion)
  | recast arg type_arg h ih =>
    rw [chainValue, extraNot, eval, if_pos h, if_pos h, hcast arg type_arg h]
    exact hwrapper arg need_inversion (ih need_inversion)

lemma chainValue_of_not_hasNot (h : hasNot result_type node = false) :
    chainValue result_type M row false node = eval M row node := by
  induction node using chain_induction result_type with
  | last node hend => rw [chainValue_of_isEnd node hend]; rfl
  | aliased arg ih => rw [chainValue, eval, ih (by rwa [hasNot] at h)]
  | negated arg ih => rw [hasNot] at h; exact absurd h nofun
  | materialized arg ih => rw [chainValue, eval, ← ih (by rwa [hasNot] at h)]; rfl
  | recast arg type_arg htrivial ih =>
    rw [hasNot, if_pos htrivial] at h
    rw [chainValue, if_pos htrivial, eval, hcast arg type_arg htrivial, ← ih h]
    rfl

lemma isBool_of_hasNot
    (h : hasNot result_type node = true) : IsBool M (eval M row node) := by
  induction node using chain_induction result_type with
  | last node hend => rw [(isEnd_spec hend false).1] at h; exact absurd h nofun
  | aliased arg ih => rw [eval]; exact ih (by rwa [hasNot] at h)
  | negated arg ih => rw [eval]; exact isBool_notValue _
  | materialized arg ih => rw [eval]; exact ih (by rwa [hasNot] at h)
  | recast arg type_arg htrivial ih =>
    rw [eval, hcast arg type_arg htrivial]
    exact ih (by rwa [hasNot, if_pos htrivial] at h)

/-- A chain in value position keeps its value. -/
lemma chainValue_of_valueKept (h : ValueKept result_type M row node) :
    chainValue result_type M row false node = eval M row node := by
  cases hnot : hasNot result_type node with
  | false => exact chainValue_of_not_hasNot hcast hnot
  | true =>
    have hbool : IsBool M (chainValue result_type M row false node) := by
      rcases chainValue_cases node false with ⟨e, he, hvalue⟩ | hbool
      · rw [hvalue]
        exact h.2 hnot e he
      · exact hbool
    refine hbool.eq_of_truth_eq (isBool_of_hasNot hcast hnot) ?_
    rw [truth_chainValue hcast, Bool.false_xor]
    exact negateIf_eq_iff.2 h.1

/-! ## The copy keeps the meaning -/

mutual

/-- **The copy of a chain**, if what is below keeps its meaning. -/
theorem eval_cloneDAG : (node : Node α) →
    (need_inversion : Bool) → ArgsClean result_type M row need_inversion node →
    eval M row (cloneDAG result_type need_inversion node) =
      chainValue result_type M row need_inversion node
  | .input name, b, _ => by rw [cloneDAG, eval_addNot, chainValue_of_isEnd (.input name) trivial]
  | .column value, b, _ => by
    rw [cloneDAG, eval_addNot, chainValue_of_isEnd (.column value) trivial]
  | .placeholder name, b, _ => by
    rw [cloneDAG, eval_addNot, chainValue_of_isEnd (.placeholder name) trivial]
  | .alias arg, b, h => by
    rw [ArgsClean] at h
    rw [cloneDAG, chainValue, eval_cloneDAG arg b h]
  | .arrayJoin arg, b, h => by
    rw [ArgsClean] at h
    -- the argument of `arrayJoin` is copied without a negation
    have harg := (eval_cloneDAG arg false h.1).trans (chainValue_of_valueKept hcast h.2)
    rw [cloneDAG, eval_addNot, chainValue_of_isEnd (.arrayJoin arg) trivial, eval, eval, harg]
  | .not arg, b, h => by
    rw [ArgsClean] at h
    rw [cloneDAG, chainValue, eval_cloneDAG arg (!b) h]
  | .indexHint args, b, h => by
    rw [ArgsClean] at h
    rw [cloneDAG, chainValue_of_isEnd (.indexHint args) trivial, h, eval, eval]
    rfl
  | .materialize arg, b, h => by
    rw [ArgsClean] at h
    rw [cloneDAG, eval_addNot, chainValue, eval_cloneDAG arg b h]
  | .cast arg type_arg, b, h => by
    rw [ArgsClean] at h
    rw [cloneDAG, chainValue]
    split
    next htrivial =>
      rw [if_pos htrivial] at h
      rw [eval_addNot, eval_cloneDAG arg b h]
    next htrivial =>
      rw [if_neg htrivial] at h
      -- a cast that changes the type is copied like a function, without a negation below it
      have harg := (eval_cloneDAG arg false h.1.1).trans (chainValue_of_valueKept hcast h.1.2)
      have htype := (eval_cloneDAG type_arg false h.2.1).trans (chainValue_of_valueKept hcast h.2.2)
      rw [eval_addNot, eval, eval, harg, htype]
  | .logical .xor args, b, h => by
    rw [ArgsClean] at h
    -- `xor` is not pushed through
    have hargs := truths_cloneDAGs args false h
    rw [negateIf_false, map_id] at hargs
    rw [cloneDAG, eval_addNot, chainValue_of_isEnd (.logical .xor args) trivial, eval, eval, hargs]
  | .logical .and args, b, h => by
    rw [ArgsClean] at h
    -- De Morgan's law, here and for `or`
    have hargs := truths_cloneDAGs args b h
    rw [cloneDAG, chainValue_of_isEnd (.logical .and args) trivial]
    cases b
    · rw [negateIf_false, map_id] at hargs
      exact congrArg (fun t => ofTruth M (LogicalFunction.and.apply t)) hargs
    · rw [if_pos rfl, if_pos rfl, eval, eval, hargs, negateIf_true, or_apply_notTruth, notValue,
        truth_ofTruth]
  | .logical .or args, b, h => by
    rw [ArgsClean] at h
    have hargs := truths_cloneDAGs args b h
    rw [cloneDAG, chainValue_of_isEnd (.logical .or args) trivial]
    cases b
    · rw [negateIf_false, map_id] at hargs
      exact congrArg (fun t => ofTruth M (LogicalFunction.or.apply t)) hargs
    · rw [if_pos rfl, if_pos rfl, eval, eval, hargs, negateIf_true, and_apply_notTruth, notValue,
        truth_ofTruth]
  | .relation r args, b, h => by
    rw [ArgsClean] at h
    have hargs := values_cloneDAGs args h
    rw [cloneDAG, chainValue_of_isEnd (.relation r args) trivial]
    -- a relation without an inverse is negated from above
    cases hinverse : inverse_relations r with
    | none =>
      dsimp only
      rw [eval_addNot, eval, eval, hargs]
    | some inverse =>
      dsimp only
      rw [eval, eval, hargs]
      cases b
      · rfl
      · rw [if_pos rfl, if_pos rfl, relationTruth_inverse hinverse, notValue, truth_ofTruth]
  | .function id args, b, h => by
    rw [ArgsClean] at h
    have hargs := values_cloneDAGs args h
    rw [cloneDAG, eval_addNot, chainValue_of_isEnd (.function id args) trivial, eval, eval, hargs]

lemma truths_cloneDAGs : (args : List (Node α)) →
    (need_inversion : Bool) → TruthsClean result_type M row need_inversion args →
    (evals M row (cloneDAGs result_type need_inversion args)).map (truth M) =
      ((evals M row args).map (truth M)).map (negateIf need_inversion)
  | [], b, _ => by rw [cloneDAGs, evals]; rfl
  | arg :: args, b, h => by
    rw [TruthsClean] at h
    have harg : truth M (eval M row (cloneDAG result_type b arg)) =
        negateIf b (truth M (eval M row arg)) := by
      rw [eval_cloneDAG arg b h.1.1, truth_chainValue hcast]
      refine negateIf_eq_iff.2 (h.1.2.imp_left fun hextra => ?_)
      rw [hextra, Bool.xor_false]
    rw [cloneDAGs, evals, evals, map_cons, map_cons, map_cons, harg, truths_cloneDAGs args b h.2]

lemma values_cloneDAGs : (args : List (Node α)) →
    ValuesClean result_type M row args →
    evals M row (cloneDAGs result_type false args) = evals M row args
  | [], _ => by rw [cloneDAGs]
  | arg :: args, h => by
    rw [ValuesClean] at h
    rw [cloneDAGs, evals, evals, eval_cloneDAG arg false h.1.1,
      chainValue_of_valueKept hcast h.1.2, values_cloneDAGs args h.2]

end

/-- The copy has the truth value of the predicate, or of its negation if that was asked for. -/
def Correct (M : Meaning α) (row : ℕ → Option α) (result_type : Node α → Bytes)
    (need_inversion : Bool) (node : Node α) : Prop :=
  truth M (eval M row (cloneDAG result_type need_inversion node)) =
    negateIf need_inversion (truth M (eval M row node))

end ChainLemmas

/-- **Pushing NOT down** keeps the meaning of a predicate, of which the arguments below the
chain at its top are clean, exactly if the surplus negations of the chain cancel out, or
if the predicate is NULL. -/
theorem cloneDAG_correct_iff [LinearOrder α] (M : Meaning α) (row : ℕ → Option α)
    (result_type : Node α → Bytes) (hcast : CastsTrivially M row result_type)
    (need_inversion : Bool) (node : Node α)
    (hclean : ArgsClean result_type M row need_inversion node) :
    Correct M row result_type need_inversion node ↔
      extraNot result_type need_inversion node = false ∨ truth M (eval M row node) = none := by
  rw [Correct, eval_cloneDAG hcast node need_inversion hclean, truth_chainValue hcast,
    negateIf_eq_iff]
  refine or_congr_left ?_
  cases need_inversion <;> cases extraNot result_type _ node <;> decide

/-! ## Integers -/

/-- Integers, with no functions but the ones above. -/
def integers : Meaning ℤ where
  isTrue a := decide (a ≠ 0)
  ofBool b := if b then 1 else 0
  isTrue_ofBool b := by cases b <;> decide
  string _ := 0
  relation _ _ := none
  function _ _ := none
  cast v _ := v
  arrayJoin v := v

/-- `NOT (x < 1 AND y = 2)` -/
def notAnd : Node ℤ :=
  .not (.logical .and [.relation .less [.input 0, .column (.value (some 1))],
    .relation .equals [.input 1, .column (.value (some 2))]])

/-- `x = 0` and `y` NULL. -/
theorem cloneDAG_correct_iff_at_notAnd :
    Correct integers (fun name => if name = 0 then some 0 else none) (fun _ => []) false
      notAnd := by
  refine (cloneDAG_correct_iff integers (fun name => if name = 0 then some 0 else none)
    (fun _ => [])
    (fun _ _ _ => rfl) false notAnd ?_).2 (.inl rfl)
  simp [notAnd, ArgsClean, TruthsClean, ValuesClean, ValueKept, TruthKept, extraNot, hasNot]

/-- `NOT materialize(x)` becomes `NOT NOT x`. -/
theorem cloneDAG_not_materialize :
    ¬ Correct integers (fun _ => some 1) (fun _ => []) false (.not (.materialize (.input 0))) := by
  unfold Correct
  decide

/-- `NOT NOT x = 1` becomes `x = 1`. -/
example : ¬ Correct integers (fun _ => some 5) (fun _ => []) false
    (.relation .equals [.not (.not (.input 0)), .column (.value (some 1))]) := by
  unfold Correct
  decide

end ClickHouse.InversionPushDown
