/-
`TreeCNFConverter` (`src/Interpreters/TreeCNFConverter.cpp`): a predicate rewritten as a
conjunction of disjunctions of atoms and negated atoms.

A syntax tree is kept as far as the conversion looks at it: the functions `and`, `or` and
`not`, the relations that have an opposite, and everything else by a number. `std::set` is a
`Finset`, and a loop over one goes through its `sort`. The sets of the code are ordered by
the hashes of trees; here a tree is its hash, so the order is any linear order of trees,
with the sign of an atom coming after its tree, and sets compared element by element.

Distribution calls itself on a tree that is not a part of the one it was given, so it takes
fuel; `CNFConversion` says how much is enough.

The analyzer has a copy of these passes over the nodes of a query tree
(`src/Analyzer/Passes/CNF.cpp`), which is not modelled.
-/
import ClickHouse.MergeTree.InversionPushDown

set_option autoImplicit false

namespace ClickHouse.TreeCNFConverter

open InversionPushDown (Relation LogicalFunction Meaning notTruth negateIf relationTruth truth)

/-! ## Trees -/

/-- The functions that have any number of arguments. -/
inductive Connective where
  | and
  | or
  deriving DecidableEq, Repr

/-- The names of functions. `xor` and all others without an opposite are `other`. -/
inductive FunctionName where
  | connective (c : Connective)
  | not
  | relation (r : Relation)
  | other (id : ℕ)

@[match_pattern] abbrev FunctionName.and : FunctionName := .connective .and

@[match_pattern] abbrev FunctionName.or : FunctionName := .connective .or

/-- `IAST`. A subquery, a query parameter and so on are `other`. -/
inductive Node where
  | identifier (name : ℕ)
  | literal (value : ℕ)
  | function (name : FunctionName) (arguments : List Node)
  | other (id : ℕ) (children : List Node)

def isLogicalFunction : FunctionName → Bool
  | .connective _ => true
  | .not => true
  | _ => false

mutual

/-- `countAtoms`: a function that is not logical is one atom, whatever its arguments. -/
def countAtoms : Node → ℕ
  | .identifier _ => 1
  | .literal _ => 1
  | .function name arguments => if isLogicalFunction name then countAtomsOfAll arguments else 1
  | .other _ children => countAtomsOfAll children

def countAtomsOfAll : List Node → ℕ
  | [] => 0
  | child :: children => countAtoms child + countAtomsOfAll children

end

/-! ## Two arguments to every `and` and `or` -/

/-- `name(name(name(a, b), c), d)`. -/
def nest (name : FunctionName) : List Node → Node
  | [] => .function name []
  | res :: arguments => arguments.foldl (fun res argument => .function name [res, argument]) res

mutual

/-- `splitMultiLogic`. The functions of the nest have two arguments each, and to visit them
is to visit the arguments that were there from left to right. -/
def splitMultiLogic : Node → Eval Node
  | .function (.connective name) arguments => do
    if arguments.length < 2 then
      throwException .INCORRECT_QUERY (str "Bad AND or OR function. Expected at least 2 arguments")
    pure (nest (.connective name) (← splitMultiLogicAll arguments))
  | .function .not arguments => do
    pure (.function .not (← splitMultiLogicAll arguments))
  | node => pure node

def splitMultiLogicAll : List Node → Eval (List Node)
  | [] => pure []
  | child :: children => do
    let child ← splitMultiLogic child
    let children ← splitMultiLogicAll children
    pure (child :: children)

end

/-! ## Negations at the leaves -/

/-- De Morgan's law. -/
def Connective.dual : Connective → Connective
  | .and => .or
  | .or => .and

mutual

/-- `traversePushNot`. -/
def traversePushNot (add_negation : Bool) : Node → Eval Node
  | .function (.connective name) arguments => do
    if add_negation && arguments.length != 2 then
      throwException .LOGICAL_ERROR (str "Bad AND or OR function. Expected at least 2 arguments")
    let arguments ← traversePushNotAll add_negation arguments
    pure (.function (.connective (if add_negation then name.dual else name)) arguments)
  | .function .not [node] => traversePushNot (!add_negation) node
  | .function .not _ =>
    throwException .INCORRECT_QUERY (str "Bad NOT function. Expected 1 argument")
  | node => pure (if add_negation then .function .not [node] else node)

def traversePushNotAll (add_negation : Bool) : List Node → Eval (List Node)
  | [] => pure []
  | child :: children => do
    let child ← traversePushNot add_negation child
    let children ← traversePushNotAll add_negation children
    pure (child :: children)

end

/-! ## `and` above `or` -/

/-- Why distribution ends without a tree: it returned `false`, it read an argument that is
not there, or the fuel is used up. -/
inductive Stop where
  | too_many_atoms
  | undefined_behaviour
  | out_of_fuel
  deriving DecidableEq, Repr

/-- The arguments of an `and`. -/
def andArguments : Node → Option (List Node)
  | .function .and arguments => some arguments
  | _ => none

/-- `a or (b and c)` as `(a or b) and (a or c)`. -/
def distribute (a b c : Node) : Node :=
  .function .and [.function .or [a, b], .function .or [a, c]]

/-- The distributive law at an `or` whose arguments have been visited. The last argument
that is an `and` is distributed over, here the second if it is one. -/
def pushOrArguments (visit : Node → ℕ → Except Stop Node) (num_atoms : ℕ) :
    List Node → Except Stop Node
  | [left, right] =>
    match andArguments right, andArguments left with
    | some (b :: c :: _), _ => visit (distribute left b c) (num_atoms + countAtoms left)
    | none, some (b :: c :: _) => visit (distribute right b c) (num_atoms + countAtoms right)
    | none, none => pure (.function .or [left, right])
    | _, _ => .error .undefined_behaviour
  | _ => .error .undefined_behaviour

/-- `traversePushOr`. -/
def traversePushOr (max_atoms : ℕ) : ℕ → Node → ℕ → Except Stop Node
  | 0, _, _ => .error .out_of_fuel
  | fuel + 1, node, num_atoms =>
    if max_atoms ≠ 0 ∧ max_atoms < num_atoms then .error .too_many_atoms
    else
      match node with
      | .function .and arguments => do
        let arguments ← arguments.mapM (fun child => traversePushOr max_atoms fuel child num_atoms)
        pure (.function .and arguments)
      | .function .or arguments => do
        let arguments ← arguments.mapM (fun child => traversePushOr max_atoms fuel child num_atoms)
        pushOrArguments (traversePushOr max_atoms fuel) num_atoms arguments
      | node => pure node

/-! ## Sets of atoms -/

section Sets

variable [LinearOrder Node]

/-- `CNFQueryAtomicFormula`: a tree, or its negation. -/
structure CNFQueryAtomicFormula where
  negative : Bool
  ast : Node

namespace CNFQueryAtomicFormula

/-- `operator<`. -/
instance : LinearOrder CNFQueryAtomicFormula :=
  LinearOrder.lift' (fun atom => toLex (atom.ast, atom.negative)) (by
    rintro ⟨n₁, a₁⟩ ⟨n₂, a₂⟩ h
    simp only [EmbeddingLike.apply_eq_iff_eq, Prod.mk.injEq] at h
    rw [h.1, h.2])

end CNFQueryAtomicFormula

/-- `OrGroup`: a disjunction of atoms. -/
abbrev OrGroup := Finset CNFQueryAtomicFormula

/-- `AndGroup`: a conjunction of groups. -/
abbrev AndGroup := Finset OrGroup

/-- A loop over a group. -/
def OrGroup.atoms (group : OrGroup) : List CNFQueryAtomicFormula := group.sort

lemma OrGroup.mem_atoms {group : OrGroup} {atom : CNFQueryAtomicFormula} :
    atom ∈ OrGroup.atoms group ↔ atom ∈ group :=
  Finset.mem_sort _

/-- `operator<=` of two groups, which compares them as sequences. -/
def OrGroup.le (left right : OrGroup) : Prop := OrGroup.atoms left ≤ OrGroup.atoms right

instance : DecidableRel OrGroup.le := fun left right =>
  inferInstanceAs (Decidable (OrGroup.atoms left ≤ OrGroup.atoms right))

instance : IsTrans OrGroup OrGroup.le := ⟨fun _ _ _ h => le_trans h⟩

instance : Std.Total OrGroup.le := ⟨fun _ _ => le_total _ _⟩

instance : Std.Antisymm OrGroup.le := ⟨fun left right h h' => by
  have heq : OrGroup.atoms left = OrGroup.atoms right := le_antisymm h h'
  ext atom
  rw [← OrGroup.mem_atoms, heq, OrGroup.mem_atoms]⟩

/-- `CNFQuery`. -/
structure CNFQuery where
  statements : AndGroup

/-- A group that is not empty is inserted. -/
def insertGroup (and_group : AndGroup) (group : OrGroup) : AndGroup :=
  if group = ∅ then and_group else insert group and_group

mutual

/-- `traverseCNF`, with the groups so far and the group that is being collected. -/
def traverseCNF (and_group : AndGroup) (or_group : OrGroup) : Node → Eval (AndGroup × OrGroup)
  | .function .and arguments => do
    pure (← traverseCNFAnd and_group arguments, or_group)
  | .function .or arguments => traverseCNFOr and_group or_group arguments
  | .function .not [node] => pure (and_group, insert ⟨true, node⟩ or_group)
  | .function .not _ =>
    throwException .INCORRECT_QUERY (str "Bad NOT function. Expected 1 argument")
  | node => pure (and_group, insert ⟨false, node⟩ or_group)

/-- Each argument of `and` collects a group of its own. -/
def traverseCNFAnd (and_group : AndGroup) : List Node → Eval AndGroup
  | [] => pure and_group
  | child :: children => do
    let (and_group, group) ← traverseCNF and_group ∅ child
    traverseCNFAnd (insertGroup and_group group) children

/-- The arguments of `or` go to the group at hand. -/
def traverseCNFOr (and_group : AndGroup) (or_group : OrGroup) :
    List Node → Eval (AndGroup × OrGroup)
  | [] => pure (and_group, or_group)
  | child :: children => do
    let (and_group, or_group) ← traverseCNF and_group or_group child
    traverseCNFOr and_group or_group children

end

/-- Up to this number of atoms, growth is not checked. -/
def MAX_ATOMS_WITHOUT_CHECK : ℕ := 200

/-- `TreeCNFConverter::tryConvertToCNF`, which has no result if distribution has not ended
within the fuel. -/
def tryConvertToCNF (fuel : ℕ) (query : Node) (max_growth_multiplier : ℕ) :
    Option (Eval (Option CNFQuery)) :=
  let num_atoms := countAtoms query
  let max_atoms :=
    -- 0 is no limit
    if max_growth_multiplier = 0 then 0
    else max MAX_ATOMS_WITHOUT_CHECK (num_atoms * max_growth_multiplier % 2 ^ 64)
  match splitMultiLogic query >>= traversePushNot false with
  | .error e => some (.error e)
  | .ok cnf =>
    match traversePushOr max_atoms fuel cnf num_atoms with
    | .error .out_of_fuel => none
    | .error .undefined_behaviour => some (.error .undefined_behaviour)
    | .error .too_many_atoms => some (.ok none)
    | .ok cnf => some (do
      let (and_group, or_group) ← traverseCNF ∅ ∅ cnf
      pure (some ⟨insertGroup and_group or_group⟩))

/-! ## Back to a tree -/

/-- The tree of an atom. -/
def atomAST (atom : CNFQueryAtomicFormula) : Node :=
  if atom.negative then .function .not [atom.ast] else atom.ast

/-- The tree of a group, and no tree for an empty one. -/
def joinAtoms : List CNFQueryAtomicFormula → Option Node
  | [] => none
  | [atom] => some (atomAST atom)
  | atoms => some (.function .or (atoms.map atomAST))

def groupAST (group : OrGroup) : Option Node := joinAtoms (OrGroup.atoms group)

/-- A single group stands for itself. -/
def joinGroups : List Node → Node
  | [group] => group
  | or_groups => .function .and or_groups

/-- `TreeCNFConverter::fromCNF`. -/
def fromCNF (cnf : CNFQuery) : Option Node :=
  if cnf.statements = ∅ then none
  else some (joinGroups ((cnf.statements.sort OrGroup.le).filterMap groupAST))

/-! ## Negations inside relations -/

/-- `pushPullNotInAtom`. -/
def pushPullNotInAtom (inverse_relations : Relation → Option Relation)
    (atom : CNFQueryAtomicFormula) : CNFQueryAtomicFormula :=
  match atom.ast with
  | .function (.relation r) arguments =>
    match inverse_relations r with
    | some inverse => ⟨!atom.negative, .function (.relation inverse) arguments⟩
    | none => atom
  | _ => atom

/-- `pullNotOut`. -/
def pullNotOut : CNFQueryAtomicFormula → CNFQueryAtomicFormula :=
  pushPullNotInAtom fun
    | .notEquals => some .equals
    | .greaterOrEquals => some .less
    | .greater => some .lessOrEquals
    | .notIn => some .in_
    | .notLike => some .like
    | .notEmpty => some .empty
    | _ => none

/-- `pushNotIn`. -/
def pushNotIn (atom : CNFQueryAtomicFormula) : CNFQueryAtomicFormula :=
  if !atom.negative then atom
  else
    pushPullNotInAtom (fun
      | .equals => some .notEquals
      | .less => some .greaterOrEquals
      | .lessOrEquals => some .greater
      | .in_ => some .notIn
      | .like => some .notLike
      | .empty => some .notEmpty
      | .notEquals => some .equals
      | .greaterOrEquals => some .less
      | .greater => some .lessOrEquals
      | .notIn => some .in_
      | .notLike => some .like
      | .notEmpty => some .empty
      | _ => none) atom

namespace CNFQuery

/-- `transformAtoms`. A group that has become empty is dropped. -/
def transformAtoms (f : CNFQueryAtomicFormula → CNFQueryAtomicFormula) (cnf : CNFQuery) :
    CNFQuery :=
  ⟨(cnf.statements.image (fun group => group.image f)).erase ∅⟩

/-- Negated functions become negated atoms. -/
def pullNotOutFunctions (cnf : CNFQuery) : CNFQuery := cnf.transformAtoms pullNotOut

/-- Negated atoms become the opposite functions. -/
def pushNotInFunctions (cnf : CNFQuery) : CNFQuery := cnf.transformAtoms pushNotIn

end CNFQuery

end Sets

/-! ## What a predicate means -/

section Meaning

/-- Negation has one argument. -/
def negation : List (Option Bool) → Option Bool
  | [t] => notTruth t
  | _ => none

def Connective.apply : Connective → List (Option Bool) → Option Bool
  | .and => LogicalFunction.and.apply
  | .or => LogicalFunction.or.apply

variable (assignment : Node → Option Bool)

mutual

/-- The value of a predicate, with the values of its atoms given. -/
def eval : Node → Option Bool
  | .function (.connective name) arguments => name.apply (evals arguments)
  | .function .not arguments => negation (evals arguments)
  | node => assignment node

def evals : List Node → List (Option Bool)
  | [] => []
  | node :: nodes => eval node :: evals nodes

end

end Meaning

end ClickHouse.TreeCNFConverter
