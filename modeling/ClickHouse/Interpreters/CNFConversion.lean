/-
The conversion to conjunctive normal form keeps the predicate.

Each of the four passes has one lemma: it keeps the value of a tree under every assignment
of the three truth values, and establishes the shape the next pass needs. `Binary` trees
have two arguments to every `and` and `or`, `Nnf` trees have `not` at atoms only, and in
`Conjunctive` trees no `and` is below an `or`.

`weight` reads `or` as a product and `and` as a sum and is at least 2, so that
`a or (b and c)` weighs more than `(a or b) and (a or c)`. Distribution therefore ends, and
the weight of a tree is fuel enough. A set of atoms is evaluated by `Finset.fold`, since the
two connectives of the logic are commutative, associative and idempotent.
-/
import ClickHouse.Interpreters.TreeCNFConverter

set_option autoImplicit false

namespace ClickHouse.TreeCNFConverter

open List Finset Connective InversionPushDown OrGroup
open Bool hiding not_or
open InversionPushDown (Relation Meaning LogicalFunction negateIf relationTruth truth)

/-! ## The logic of three truth values -/

namespace Connective

/-- The connective of two truth values. -/
def apply2 : Connective → Option Bool → Option Bool → Option Bool
  | .and => LogicalFunction.and.apply2
  | .or => LogicalFunction.or.apply2

/-- The connective of no truth values. -/
def unit : Connective → Option Bool
  | .and => some true
  | .or => some false

instance (c : Connective) : Std.Commutative c.apply2 := ⟨by cases c <;> decide⟩

instance (c : Connective) : Std.Associative c.apply2 := ⟨by cases c <;> decide⟩

instance (c : Connective) : Std.IdempotentOp c.apply2 := ⟨by cases c <;> decide⟩

variable (c : Connective) (t u : Option Bool)

lemma apply2_comm : c.apply2 t u = c.apply2 u t := Std.Commutative.comm t u

lemma apply2_assoc (t u w : Option Bool) :
    c.apply2 (c.apply2 t u) w = c.apply2 t (c.apply2 u w) := Std.Associative.assoc t u w

lemma apply2_unit : ∀ t, c.apply2 t c.unit = t := by
  cases c <;> decide

@[simp] lemma apply_nil : c.apply [] = c.unit := by
  cases c <;> rfl

@[simp] lemma apply_cons (t : Option Bool) (ts : List (Option Bool)) :
    c.apply (t :: ts) = c.apply2 t (c.apply ts) := by
  cases c <;> rfl

lemma fold_eq_apply_sort {β : Type*} (f : β → Option Bool)
    (s : Finset β) (r : β → β → Prop) [DecidableRel r] [IsTrans β r] [Std.Antisymm r]
    [Std.Total r] : s.fold c.apply2 c.unit f = c.apply ((s.sort r).map f) := by
  have happly : ∀ ts, c.apply ts = ts.foldr c.apply2 c.unit := by
    cases c <;> exact fun _ => rfl
  rw [fold, ← sort_eq s r, Multiset.map_coe, Multiset.coe_fold_r, happly]

lemma apply_singleton (t : Option Bool) : c.apply [t] = t := by
  rw [apply_cons, apply_nil, apply2_unit]

lemma apply_pair : c.apply [t, u] = c.apply2 t u := by
  rw [apply_cons, apply_singleton]

/-- De Morgan's laws. -/
lemma negateIf_apply2 (b : Bool) : ∀ t u, negateIf b (c.apply2 t u) =
    (if b then c.dual else c).apply2 (negateIf b t) (negateIf b u) := by
  cases b <;> cases c <;> decide

lemma or_and_distrib : ∀ t u w, or.apply2 t (and.apply2 u w) =
    and.apply2 (or.apply2 t u) (or.apply2 t w) := by
  decide

lemma or_apply2_eq_true : ∀ t u : Option Bool,
    or.apply2 t u = some true ↔ t = some true ∨ u = some true := by
  decide

lemma and_apply2_eq_true : ∀ t u : Option Bool,
    and.apply2 t u = some true ↔ t = some true ∧ u = some true := by
  decide

end Connective

section Eval

variable {v : Node → Option Bool}

/-- Not a function of the logic. -/
def isAtom : Node → Bool
  | .function name _ => !isLogicalFunction name
  | _ => true

@[simp] lemma eval_connective (c : Connective) (arguments : List Node) :
    eval v (.function (.connective c) arguments) = c.apply (evals v arguments) := rfl

@[simp] lemma eval_not (arguments : List Node) :
    eval v (.function .not arguments) = negation (evals v arguments) := rfl

@[simp] lemma evals_nil : evals v [] = [] := rfl

@[simp] lemma evals_cons (node : Node) (nodes : List Node) :
    evals v (node :: nodes) = eval v node :: evals v nodes := rfl

lemma eval_pair (c : Connective) (l r : Node) :
    eval v (.function (.connective c) [l, r]) = c.apply2 (eval v l) (eval v r) :=
  c.apply_pair _ _

end Eval

/-! ## Splitting -/

/-- Two arguments to every `and` and `or`. -/
inductive Binary : Node → Prop
  | atom {node : Node} : isAtom node = true → Binary node
  | pair {c : Connective} {l r : Node} : Binary l → Binary r →
      Binary (.function (.connective c) [l, r])
  | not {arguments : List Node} : (∀ a ∈ arguments, Binary a) → Binary (.function .not arguments)

variable {v : Node → Option Bool} (c : Connective)

/-- The nest means what the function of many arguments does. -/
lemma eval_foldl_nest (res : Node) (arguments : List Node) :
    eval v (arguments.foldl (fun res argument => .function (.connective c) [res, argument]) res) =
      c.apply2 (eval v res) (c.apply (evals v arguments)) := by
  induction arguments generalizing res with
  | nil => rw [foldl_nil, evals_nil, c.apply_nil, c.apply2_unit]
  | cons argument arguments ih =>
    rw [foldl_cons, ih, eval_pair, evals_cons, c.apply_cons, c.apply2_assoc]

lemma eval_nest (arguments : List Node) :
    eval v (nest (.connective c) arguments) = c.apply (evals v arguments) := by
  cases arguments with
  | nil => rfl
  | cons res arguments => rw [nest, eval_foldl_nest, evals_cons, c.apply_cons]

lemma binary_nest {c : Connective} {arguments : List Node} (h : ∀ a ∈ arguments, Binary a)
    (hne : arguments ≠ []) : Binary (nest (.connective c) arguments) := by
  obtain ⟨res, arguments, rfl⟩ := exists_cons_of_ne_nil hne
  refine foldlRecOn arguments _ (h res (mem_cons_self ..)) ?_
  intro nested hnested argument hmem
  exact .pair hnested (h argument (mem_cons_of_mem _ hmem))

mutual

/-- `and` and `or` have at least two operands, and `not` has one. -/
def wellFormed : Node → Bool
  | .function (.connective _) arguments => decide (2 ≤ arguments.length) && allWellFormed arguments
  | .function .not arguments => decide (arguments.length = 1) && allWellFormed arguments
  | _ => true

def allWellFormed : List Node → Bool
  | [] => true
  | node :: nodes => wellFormed node && allWellFormed nodes

end

lemma allWellFormed_iff (nodes : List Node) :
    allWellFormed nodes = true ↔ ∀ node ∈ nodes, wellFormed node = true := by
  induction nodes with
  | nil => simp [allWellFormed]
  | cons node nodes ih => simp [allWellFormed, ih]

lemma wellFormed_nest {c : Connective} {nodes : List Node} (h : allWellFormed nodes = true)
    (hne : nodes ≠ []) : wellFormed (nest (.connective c) nodes) = true := by
  obtain ⟨res, nodes, rfl⟩ := exists_cons_of_ne_nil hne
  rw [allWellFormed_iff] at h
  refine foldlRecOn (motive := fun nested => wellFormed nested = true) nodes _
    (h res (mem_cons_self ..)) ?_
  intro nested hnested node hmem
  have hnode := h node (mem_cons_of_mem _ hmem)
  simp [wellFormed, allWellFormed, hnested, hnode]

/-- A tree is rejected only if it is not well formed, and else what it is turned into has a
property. -/
def OkOr (wf : Bool) {β : Type} (P : β → Prop) : Eval β → Prop
  | .ok res => P res
  | .error _ => wf = false

lemma OkOr.imp {wf wf' : Bool} {β : Type} {P Q : β → Prop} {outcome : Eval β}
    (h : OkOr wf P outcome) (hwf : wf' = true → wf = true) (hPQ : ∀ res, P res → Q res) :
    OkOr wf' Q outcome := by
  cases outcome with
  | ok res => exact hPQ res h
  | error e => exact eq_false_iff.2 fun hw => eq_false_iff.1 h (hwf hw)

/-- The nodes are split, and mean the same. -/
structure SplitAll (nodes res : List Node) : Prop where
  length_eq : res.length = nodes.length
  binary : ∀ a ∈ res, Binary a
  wellFormed : allWellFormed nodes = true → allWellFormed res = true
  evals_eq : ∀ v, evals v res = evals v nodes

/-- What `splitMultiLogic` does with a tree. -/
structure Split (node res : Node) : Prop where
  binary : Binary res
  wellFormed : wellFormed node = true → wellFormed res = true
  eval_eq : ∀ v, eval v res = eval v node

lemma Split.atom {node : Node} (h : isAtom node = true) : Split node node :=
  ⟨.atom h, fun h => h, fun _ => rfl⟩

mutual

/-- Splitting fails only on a tree that is not well formed. -/
lemma splitMultiLogic_spec : ∀ node : Node,
    OkOr (wellFormed node) (Split node) (splitMultiLogic node)
  | .function (.connective c) arguments => by
    have hall := splitMultiLogicAll_spec arguments
    rw [splitMultiLogic]
    split_ifs with hlen
    · -- a connective of fewer than two arguments is refused
      exact Bool.and_eq_false_imp.2 fun h => absurd (of_decide_eq_true h) (by omega)
    cases h : splitMultiLogicAll arguments with
    | error e =>
      rw [h] at hall
      exact Bool.and_eq_false_imp.2 fun _ => hall
    | ok split =>
      rw [h] at hall
      have hne : split ≠ [] := by
        rintro rfl
        exact hlen (hall.length_eq ▸ Nat.zero_lt_two)
      refine ⟨binary_nest hall.binary hne, fun hwf => ?_, fun v => ?_⟩
      · exact wellFormed_nest (hall.wellFormed (and_eq_true_iff.1 hwf).2) hne
      · rw [eval_nest, hall.evals_eq, eval_connective]
  | .function .not arguments => by
    have hall := splitMultiLogicAll_spec arguments
    rw [splitMultiLogic]
    cases h : splitMultiLogicAll arguments with
    | error e =>
      rw [h] at hall
      exact and_eq_false_imp.2 fun _ => hall
    | ok split =>
      rw [h] at hall
      refine ⟨.not hall.binary, fun hwf => ?_, fun v => by rw [eval_not, hall.evals_eq, eval_not]⟩
      rw [wellFormed, and_eq_true] at hwf ⊢
      exact ⟨hall.length_eq ▸ hwf.1, hall.wellFormed hwf.2⟩
  | .function (.relation _) _ => Split.atom rfl
  | .function (.other _) _ => Split.atom rfl
  | .identifier _ => Split.atom rfl
  | .literal _ => Split.atom rfl
  | .other _ _ => Split.atom rfl

lemma splitMultiLogicAll_spec : ∀ nodes : List Node,
    OkOr (allWellFormed nodes) (SplitAll nodes) (splitMultiLogicAll nodes)
  | [] => ⟨rfl, by simp, fun h => h, fun _ => rfl⟩
  | child :: children => by
    have hfirst := splitMultiLogic_spec child
    have hrest := splitMultiLogicAll_spec children
    rw [splitMultiLogicAll]
    cases hchild : splitMultiLogic child with
    | error e =>
      rw [hchild] at hfirst
      exact Bool.and_eq_false_imp.2 fun h => absurd h (by rw [hfirst]; decide)
    | ok child' =>
      cases hchildren : splitMultiLogicAll children with
      | error e =>
        rw [hchildren] at hrest
        exact Bool.and_eq_false_imp.2 fun _ => hrest
      | ok children' =>
        rw [hchild] at hfirst
        rw [hchildren] at hrest
        refine ⟨by simp [hrest.length_eq], forall_mem_cons.2 ⟨hfirst.binary, hrest.binary⟩,
          fun h => ?_, fun v => by simp [hfirst.eval_eq, hrest.evals_eq]⟩
        rw [allWellFormed, Bool.and_eq_true] at h ⊢
        exact ⟨hfirst.wellFormed h.1, hrest.wellFormed h.2⟩

end

/-! ## Pushing negations -/

/-- `not` is at atoms only. -/
inductive Nnf : Node → Prop
  | atom {node : Node} : isAtom node = true → Nnf node
  | not {node : Node} : isAtom node = true → Nnf (.function .not [node])
  | pair {c : Connective} {l r : Node} : Nnf l → Nnf r → Nnf (.function (.connective c) [l, r])

variable {node : Node}

lemma traversePushNot_of_isAtom (h : isAtom node = true) (b : Bool) :
    traversePushNot b node = .ok (if b then .function .not [node] else node) := by
  cases node with
  | function name arguments => cases name <;> first | rfl | simp [isAtom, isLogicalFunction] at h
  | _ => rfl

lemma traversePushNot_pair (c : Connective) (l r : Node) (b : Bool) :
    traversePushNot b (.function (.connective c) [l, r]) = (do
      let l ← traversePushNot b l
      let r ← traversePushNot b r
      pure (.function (.connective (if b then c.dual else c)) [l, r])) := by
  rw [traversePushNot, if_neg (by simp)]
  rw [traversePushNotAll, traversePushNotAll, traversePushNotAll]
  cases traversePushNot b l <;> cases traversePushNot b r <;> rfl

/-- The tree is negated as asked. -/
def Pushed (b : Bool) (node : Node) : Eval Node → Prop :=
  OkOr (wellFormed node) fun res => Nnf res ∧ ∀ v, eval v res = negateIf b (eval v node)

/-- Pushing a negation down keeps the value, negated where asked. -/
lemma traversePushNot_spec (hnode : Binary node) (b : Bool) :
    Pushed b node (traversePushNot b node) := by
  induction hnode generalizing b with
  | @atom node hatom =>
    rw [traversePushNot_of_isAtom hatom]
    -- the negation has arrived at an atom and stays there
    cases b
    · exact ⟨.atom hatom, fun v => rfl⟩
    · exact ⟨.not hatom, fun v => rfl⟩
  | @pair c l r _ _ ihl ihr =>
    have hl := ihl b
    have hr := ihr b
    rw [traversePushNot_pair]
    cases hl' : traversePushNot b l with
    | error e =>
      rw [hl'] at hl
      simp [Pushed, OkOr, wellFormed, allWellFormed, show wellFormed l = false from hl, bind,
        Except.bind]
    | ok l' =>
      cases hr' : traversePushNot b r with
      | error e =>
        rw [hr'] at hr
        simp [Pushed, OkOr, wellFormed, allWellFormed, show wellFormed r = false from hr, bind,
          Except.bind]
      | ok r' =>
        rw [hl'] at hl
        rw [hr'] at hr
        refine ⟨.pair hl.1 hr.1, fun v => ?_⟩
        -- De Morgan's law
        rw [eval_pair, eval_pair, hl.2, hr.2, c.negateIf_apply2]
  | @not arguments _ ih =>
    match arguments, ih with
    | [], _ => rfl
    | [node], ih =>
      -- the `not` is left out, and its negation is carried down
      refine (ih node (List.mem_singleton.2 rfl) (!b)).imp ?_ ?_
      · simp [wellFormed, allWellFormed]
      · rintro res ⟨hn, he⟩
        refine ⟨hn, fun v => ?_⟩
        rw [he, negateIf_not]
        rfl
    | _ :: _ :: _, _ => rfl

/-! ## Distribution -/

/-- Disjunctions of atoms and negated atoms. -/
inductive Disjunctive : Node → Prop
  | atom {node : Node} : isAtom node = true → Disjunctive node
  | not {node : Node} : isAtom node = true → Disjunctive (.function .not [node])
  | or {l r : Node} : Disjunctive l → Disjunctive r → Disjunctive (.function .or [l, r])

/-- Conjunctions of such. -/
inductive Conjunctive : Node → Prop
  | disjunctive {node : Node} : Disjunctive node → Conjunctive node
  | and {l r : Node} : Conjunctive l → Conjunctive r → Conjunctive (.function .and [l, r])

lemma Disjunctive.nnf (h : Disjunctive node) : Nnf node := by
  induction h with
  | atom h => exact .atom h
  | not h => exact .not h
  | or _ _ ihl ihr => exact .pair ihl ihr

lemma Conjunctive.nnf (h : Conjunctive node) : Nnf node := by
  induction h with
  | disjunctive h => exact h.nnf
  | and _ _ ihl ihr => exact .pair ihl ihr

/-- The measure that distribution makes smaller. -/
def weight : Node → ℕ
  | .function .and [l, r] => weight l + weight r + 1
  | .function .or [l, r] => weight l * weight r
  | _ => 2

lemma two_le_weight : ∀ node : Node, 2 ≤ weight node := by
  intro node
  fun_induction weight node with
  | case1 l r ihl ihr => omega
  | case2 l r ihl ihr => nlinarith
  | case3 => exact le_rfl

variable (a b c : Node)

lemma weight_distribute :
    weight (distribute a b c) < weight (.function .or [a, .function .and [b, c]]) := by
  have ha := two_le_weight a
  simp only [distribute, weight]
  nlinarith

lemma weight_distribute' :
    weight (distribute a b c) < weight (.function .or [.function .and [b, c], a]) := by
  have h := weight_distribute a b c
  simp only [weight] at h ⊢
  rwa [Nat.mul_comm]

lemma eval_distribute {v : Node → Option Bool} :
    eval v (distribute a b c) = eval v (.function .or [a, .function .and [b, c]]) := by
  rw [distribute, eval_pair, eval_pair, eval_pair, eval_pair, eval_pair, or_and_distrib]

lemma nnf_distribute {a b c : Node} (ha : Conjunctive a) (hb : Conjunctive b)
    (hc : Conjunctive c) : Nnf (distribute a b c) :=
  .pair (.pair ha.nnf hb.nnf) (.pair ha.nnf hc.nnf)

/-- A conjunctive tree is a disjunction, or an `and` to distribute over. -/
lemma Conjunctive.cases_and (h : Conjunctive node) :
    (andArguments node = none ∧ Disjunctive node) ∨
      ∃ b c, node = .function .and [b, c] ∧ Conjunctive b ∧ Conjunctive c := by
  cases h with
  | disjunctive h =>
    refine .inl ⟨?_, h⟩
    cases h with
    | @atom node hatom =>
      cases node with
      | function name arguments =>
        cases name <;> first | rfl | simp [isAtom, isLogicalFunction] at hatom
      | _ => rfl
    | not => rfl
    | or => rfl
  | and hb hc => exact .inr ⟨_, _, rfl, hb, hc⟩

/-- What distribution makes of a tree. -/
structure Distributed (node res : Node) : Prop where
  conjunctive : Conjunctive res
  weight_le : weight res ≤ weight node
  eval_eq : ∀ v, eval v res = eval v node

section Distribution

variable {max_atoms fuel num_atoms : ℕ}

/-- What follows the visits of the two arguments. -/
def pushArguments (visit : Node → ℕ → Except Stop Node) (num_atoms : ℕ) (l r : Node) :
    Connective → Except Stop Node
  | .and => pure (.function .and [l, r])
  | .or => pushOrArguments visit num_atoms [l, r]

lemma traversePushOr_pair (hbudget : ¬(max_atoms ≠ 0 ∧ max_atoms < num_atoms)) (c : Connective)
    (l r : Node) :
    traversePushOr max_atoms (fuel + 1) (.function (.connective c) [l, r]) num_atoms = (do
      let l ← traversePushOr max_atoms fuel l num_atoms
      let r ← traversePushOr max_atoms fuel r num_atoms
      pushArguments (traversePushOr max_atoms fuel) num_atoms l r c) := by
  cases c <;>
  · rw [traversePushOr, if_neg hbudget]
    simp only [mapM_cons, mapM_nil]
    cases traversePushOr max_atoms fuel l num_atoms <;>
      cases traversePushOr max_atoms fuel r num_atoms <;> rfl

variable {node : Node}

lemma traversePushOr_of_isAtom (hbudget : ¬(max_atoms ≠ 0 ∧ max_atoms < num_atoms))
    (h : isAtom node = true) : traversePushOr max_atoms (fuel + 1) node num_atoms = .ok node := by
  cases node with
  | function name arguments =>
    cases name <;> first | exact if_neg hbudget | simp [isAtom, isLogicalFunction] at h
  | _ => exact if_neg hbudget

variable {visit : Node → ℕ → Except Stop Node}

lemma pushOrArguments_of_disjunctive {l r : Node} (hl : andArguments l = none)
    (hr : andArguments r = none) :
    pushOrArguments visit num_atoms [l, r] = .ok (.function .or [l, r]) := by
  rw [pushOrArguments, hl, hr]
  rfl

lemma pushOrArguments_left {b c r : Node} (hr : andArguments r = none) :
    pushOrArguments visit num_atoms [.function .and [b, c], r] =
      visit (distribute r b c) (num_atoms + countAtoms r) := by
  rw [pushOrArguments, hr]
  rfl

/-- What is visited next at an `or` of conjunctive trees, if anything is. -/
lemma pushOrArguments_cases {l r : Node} (hl : Conjunctive l) (hr : Conjunctive r)
    (num_atoms : ℕ) :
    (Disjunctive l ∧ Disjunctive r ∧ ∀ visit,
      pushOrArguments visit num_atoms [l, r] = .ok (.function .or [l, r])) ∨
    ∃ next atoms, Nnf next ∧ weight next < weight (.function .or [l, r]) ∧
      (∀ v, eval v next = eval v (.function .or [l, r])) ∧
      ∀ visit, pushOrArguments visit num_atoms [l, r] = visit next atoms := by
  rcases hr.cases_and with ⟨hr_none, hr_disj⟩ | ⟨b, c, rfl, hb, hc⟩
  · rcases hl.cases_and with ⟨hl_none, hl_disj⟩ | ⟨b, c, rfl, hb, hc⟩
    · exact .inl ⟨hl_disj, hr_disj, fun _ => pushOrArguments_of_disjunctive hl_none hr_none⟩
    · refine .inr ⟨distribute r b c, _, nnf_distribute hr hb hc, weight_distribute' r b c,
        fun v => ?_,
        fun _ => pushOrArguments_left hr_none⟩
      rw [eval_distribute, eval_pair, apply2_comm, ← eval_pair]
  · exact .inr ⟨distribute l b c, _, nnf_distribute hl hb hc, weight_distribute l b c,
      fun _ => eval_distribute l b c, fun _ => rfl⟩

lemma Distributed.or_le {l r l' r' : Node} (hl : Distributed l l') (hr : Distributed r r') :
    weight (.function .or [l', r']) ≤ weight (.function .or [l, r]) ∧
      ∀ v, eval v (.function .or [l', r']) = eval v (.function .or [l, r]) := by
  constructor
  · simp only [weight]
    exact Nat.mul_le_mul hl.weight_le hr.weight_le
  · intro v
    rw [eval_pair, eval_pair, hl.eval_eq, hr.eval_eq]

lemma Distributed.and {l r l' r' : Node} (hl : Distributed l l') (hr : Distributed r r') :
    Distributed (.function .and [l, r]) (.function .and [l', r']) where
  conjunctive := .and hl.conjunctive hr.conjunctive
  weight_le := by
    have := hl.weight_le
    have := hr.weight_le
    simp only [weight]
    omega
  eval_eq v := by rw [eval_pair, eval_pair, hl.eval_eq, hr.eval_eq]

lemma Distributed.refl (h : Conjunctive node) : Distributed node node := ⟨h, le_rfl, fun _ => rfl⟩

lemma weight_pair_lt (c : Connective) (l r : Node) :
    weight l < weight (.function (.connective c) [l, r]) ∧
      weight r < weight (.function (.connective c) [l, r]) := by
  have hl := two_le_weight l
  have hr := two_le_weight r
  cases c
  · simp only [weight]
    omega
  · simp only [weight]
    constructor <;> nlinarith

/-- Distribution ends with a conjunctive tree of the same meaning, or because there are too many
atoms. -/
def Ends (max_atoms : ℕ) (node : Node) (outcome : Except Stop Node) : Prop :=
  (∃ res, outcome = .ok res ∧ Distributed node res) ∨
    outcome = .error .too_many_atoms ∧ max_atoms ≠ 0

lemma of_fuel_succ {β : Type*} {f : ℕ → β} {b : β} (h : ∀ fuel, weight node ≤ fuel + 1 →
    f (fuel + 1) = b) : ∀ fuel, weight node ≤ fuel → f fuel = b := by
  intro fuel hfuel
  cases fuel with
  | zero => exact absurd (two_le_weight node) (by omega)
  | succ fuel => exact h fuel hfuel

/-- **Distribution with enough fuel ends**, and more fuel changes nothing. -/
theorem traversePushOr_spec (max_atoms : ℕ) (hnode : Nnf node) (num_atoms : ℕ) :
    ∃ outcome, Ends max_atoms node outcome ∧ ∀ fuel, weight node ≤ fuel →
      traversePushOr max_atoms fuel node num_atoms = outcome := by
  obtain ⟨n, hn⟩ : ∃ n, weight node ≤ n := ⟨_, le_rfl⟩
  induction n generalizing node num_atoms with
  | zero => exact absurd (two_le_weight node) (by omega)
  | succ n ih =>
    by_cases hbudget : max_atoms ≠ 0 ∧ max_atoms < num_atoms
    · exact ⟨_, .inr ⟨rfl, hbudget.1⟩, of_fuel_succ fun _ _ => if_pos hbudget⟩
    cases hnode with
    | atom hatom =>
      exact ⟨_, .inl ⟨node, rfl, .refl (.disjunctive (.atom hatom))⟩,
        of_fuel_succ fun _ _ => traversePushOr_of_isAtom hbudget hatom⟩
    | not hatom =>
      exact ⟨_, .inl ⟨_, rfl, .refl (.disjunctive (.not hatom))⟩,
        of_fuel_succ fun _ _ => if_neg hbudget⟩
    | @pair c l r hl hr =>
      obtain ⟨hwl, hwr⟩ := weight_pair_lt c l r
      obtain ⟨ol, hol, hl'⟩ := ih hl num_atoms (by omega)
      obtain ⟨or, hor, hr'⟩ := ih hr num_atoms (by omega)
      have hpair : ∀ fuel, weight (.function (.connective c) [l, r]) ≤ fuel + 1 →
          traversePushOr max_atoms (fuel + 1) (.function (.connective c) [l, r]) num_atoms =
            (do pushArguments (traversePushOr max_atoms fuel) num_atoms (← ol) (← or) c) := by
        intro fuel hfuel
        rw [traversePushOr_pair hbudget, hl' fuel (by omega), hr' fuel (by omega)]
      rcases hol with ⟨l', rfl, dl⟩ | ⟨rfl, hmax⟩
      · rcases hor with ⟨r', rfl, dr⟩ | ⟨rfl, hmax⟩
        · cases c with
          | and => exact ⟨_, .inl ⟨_, rfl, dl.and dr⟩, of_fuel_succ hpair⟩
          | or =>
            obtain ⟨hle, heval⟩ := dl.or_le dr
            rcases pushOrArguments_cases dl.conjunctive dr.conjunctive num_atoms with
              ⟨hdl, hdr, hstop⟩ | ⟨next, atoms, hnnf, hlt, hnext, hvisit⟩
            · exact ⟨_, .inl ⟨_, rfl, .disjunctive (.or hdl hdr), hle, heval⟩,
                of_fuel_succ fun fuel h => (hpair fuel h).trans (hstop _)⟩
            -- the tree after the distributive law is lighter, so the fuel left is enough for it
            have hlast : weight next < weight (.function (.connective .or) [l, r]) :=
              hlt.trans_le hle
            obtain ⟨outcome, hends, hnext'⟩ := ih hnnf atoms (by omega)
            refine ⟨outcome, hends.imp_left ?_, of_fuel_succ fun fuel h =>
              (hpair fuel h).trans ((hvisit _).trans (hnext' fuel (by omega)))⟩
            rintro ⟨res, rfl, dres⟩
            refine ⟨res, rfl, dres.conjunctive, dres.weight_le.trans hlast.le, fun v => ?_⟩
            rw [dres.eval_eq, hnext, heval]
        · exact ⟨_, .inr ⟨rfl, hmax⟩, of_fuel_succ hpair⟩
      · exact ⟨_, .inr ⟨rfl, hmax⟩, of_fuel_succ hpair⟩

end Distribution

/-! ## Trees that are accepted -/

/-- **The first two passes.** -/
theorem split_and_push_spec (query : Node) :
    Pushed false query (splitMultiLogic query >>= traversePushNot false) := by
  have hsplit := splitMultiLogic_spec query
  cases h : splitMultiLogic query with
  | error e =>
    rw [h] at hsplit
    exact hsplit
  | ok split =>
    rw [h] at hsplit
    exact (traversePushNot_spec hsplit.binary false).imp hsplit.wellFormed fun res hres =>
      ⟨hres.1, fun v => (hres.2 v).trans (hsplit.eval_eq v)⟩

/-! ## Atoms -/

section Atoms

/-- The value of an atom, in the logic with NULL. -/
def CNFQueryAtomicFormula.eval (v : Node → Option Bool) (atom : CNFQueryAtomicFormula) :
    Option Bool :=
  negateIf atom.negative (TreeCNFConverter.eval v atom.ast)

variable {v : Node → Option Bool}

lemma eval_atomAST (atom : CNFQueryAtomicFormula) : eval v (atomAST atom) = atom.eval v := by
  obtain ⟨_ | _, ast⟩ := atom <;> rfl

lemma evals_map_atomAST (atoms : List CNFQueryAtomicFormula) :
    evals v (atoms.map atomAST) = atoms.map (fun atom => atom.eval v) := by
  induction atoms with
  | nil => rfl
  | cons atom atoms ih => rw [List.map_cons, evals_cons, ih, eval_atomAST, List.map_cons]

lemma joinAtoms_spec {atoms : List CNFQueryAtomicFormula} (h : atoms ≠ []) :
    ∃ tree, joinAtoms atoms = some tree ∧
      ∀ v, eval v tree = or.apply (atoms.map (fun atom => atom.eval v)) := by
  match atoms with
  | [] => exact absurd rfl h
  | [atom] =>
    refine ⟨_, rfl, fun v => ?_⟩
    rw [eval_atomAST, List.map_singleton, apply_singleton]
  | atom :: atom' :: atoms =>
    refine ⟨_, rfl, fun v => ?_⟩
    rw [eval_connective, evals_map_atomAST]

lemma eval_joinGroups (trees : List Node) :
    eval v (joinGroups trees) = and.apply (evals v trees) := by
  match trees with
  | [] => rfl
  | [tree] => rw [joinGroups, evals_cons, evals_nil, apply_singleton]
  | tree :: tree' :: trees => rfl

section Relations

variable {α : Type*} [LinearOrder α] (M : Meaning α) (value : Node → Option α)

/-- The truth of an atom, where the values of expressions are given: a relation compares
the values of its arguments. -/
def atomTruth : Node → Option Bool
  | .function (.relation r) arguments => relationTruth M r (arguments.map value)
  | node => truth M (value node)

/-- A function and its inverse have opposite values, so that the atom keeps its value. -/
lemma eval_pushPullNotInAtom {inverse_relations : Relation → Option Relation}
    (hinverse : ∀ {r inverse}, inverse_relations r = some inverse →
      InversionPushDown.inverse_relations r = some inverse) (atom : CNFQueryAtomicFormula) :
    (pushPullNotInAtom inverse_relations atom).eval (atomTruth M value) =
      atom.eval (atomTruth M value) := by
  unfold pushPullNotInAtom
  split
  · rename_i r arguments hast
    split
    · rename_i inverse hr
      have htruth := relationTruth_inverse (M := M) (hinverse hr) (arguments.map value)
      show negateIf (!atom.negative) (relationTruth M inverse _) =
        negateIf atom.negative (eval _ atom.ast)
      rw [htruth, hast, negateIf_not, notTruth_notTruth]
      rfl
    · rfl
  · rfl

lemma eval_pullNotOut (atom : CNFQueryAtomicFormula) :
    (pullNotOut atom).eval (atomTruth M value) = atom.eval (atomTruth M value) := by
  apply eval_pushPullNotInAtom
  intro r inverse h
  cases r <;> simp_all [inverse_relations]

lemma eval_pushNotIn (atom : CNFQueryAtomicFormula) :
    (pushNotIn atom).eval (atomTruth M value) = atom.eval (atomTruth M value) := by
  unfold pushNotIn
  split
  · rfl
  · apply eval_pushPullNotInAtom
    intro r inverse h
    cases r <;> simp_all [inverse_relations]

end Relations

end Atoms

/-! ## Groups -/

section Groups

variable [LinearOrder Node]

/-- The disjunction of a group. -/
def OrGroup.eval (v : Node → Option Bool) (group : OrGroup) : Option Bool :=
  Finset.fold Connective.or.apply2 Connective.or.unit (fun atom => atom.eval v) group

/-- The conjunction of all groups. -/
def AndGroup.eval (v : Node → Option Bool) (groups : AndGroup) : Option Bool :=
  Finset.fold Connective.and.apply2 Connective.and.unit (fun group => OrGroup.eval v group) groups

/-- The value of a query: the conjunction of its groups. -/
def CNFQuery.eval (v : Node → Option Bool) (cnf : CNFQuery) : Option Bool :=
  AndGroup.eval v cnf.statements

variable {v : Node → Option Bool}

lemma OrGroup.eval_insert (atom : CNFQueryAtomicFormula) (group : OrGroup) :
    eval v (insert atom group) =
      or.apply2 (eval v group) (atom.eval v) := by
  rw [eval, fold_insert_idem, apply2_comm, eval]

lemma AndGroup.eval_insert (group : OrGroup) (groups : AndGroup) :
    AndGroup.eval v (insert group groups) =
      and.apply2 (AndGroup.eval v groups) (OrGroup.eval v group) := by
  rw [AndGroup.eval, fold_insert_idem, apply2_comm, AndGroup.eval]

variable (and_group : AndGroup)

lemma insertGroup_empty : insertGroup and_group ∅ = and_group := if_pos rfl

variable {node : Node}

lemma traverseCNF_of_isAtom (h : isAtom node = true) (and_group : AndGroup) (or_group : OrGroup) :
    traverseCNF and_group or_group node = .ok (and_group, insert ⟨false, node⟩ or_group) := by
  cases node with
  | function name arguments => cases name <;> first | rfl | simp [isAtom, isLogicalFunction] at h
  | _ => rfl

lemma traverseCNF_or (or_group : OrGroup) (l r : Node) :
    traverseCNF and_group or_group (.function .or [l, r]) = (do
      let (and_group, or_group) ← traverseCNF and_group or_group l
      traverseCNF and_group or_group r) := by
  rw [traverseCNF, traverseCNFOr]
  cases traverseCNF and_group or_group l with
  | error e => rfl
  | ok res =>
    show traverseCNFOr res.1 res.2 [r] = traverseCNF res.1 res.2 r
    rw [traverseCNFOr]
    cases traverseCNF res.1 res.2 r <;> rfl

lemma traverseCNF_and (or_group : OrGroup) (l r : Node) :
    traverseCNF and_group or_group (.function .and [l, r]) = (do
      let (and_group, group) ← traverseCNF and_group ∅ l
      let (and_group, group) ← traverseCNF (insertGroup and_group group) ∅ r
      pure (insertGroup and_group group, or_group)) := by
  rw [traverseCNF, traverseCNFAnd]
  cases traverseCNF and_group ∅ l with
  | error e => rfl
  | ok res =>
    show (do pure (← traverseCNFAnd (insertGroup res.1 res.2) [r], or_group)) = _
    rw [traverseCNFAnd]
    cases hr : traverseCNF (insertGroup res.1 res.2) ∅ r with
    | error e => simp only [hr, bind, Except.bind]
    | ok res' => simp only [hr, bind, Except.bind]; rfl

/-- The atoms of a group are no functions of the logic. -/
def OrGroup.AtomsOnly (group : OrGroup) : Prop := ∀ atom ∈ group, isAtom atom.ast = true

lemma OrGroup.AtomsOnly.insert {group : OrGroup} (h : group.AtomsOnly)
    {atom : CNFQueryAtomicFormula} (hatom : isAtom atom.ast = true) :
    OrGroup.AtomsOnly (insert atom group) := by
  intro other hother
  rcases mem_insert.1 hother with rfl | hmem
  · exact hatom
  · exact h other hmem

/-- A disjunction adds its atoms to the group that is being collected. -/
lemma traverseCNF_disjunctive (h : Disjunctive node) (and_group : AndGroup) (or_group : OrGroup)
    (hor : or_group.AtomsOnly) :
    ∃ group, traverseCNF and_group or_group node = .ok (and_group, group) ∧ group ≠ ∅ ∧
      group.AtomsOnly ∧
      ∀ v, OrGroup.eval v group =
        or.apply2 (OrGroup.eval v or_group) (eval v node) := by
  induction h generalizing or_group with
  | @atom node hatom =>
    refine ⟨_, traverseCNF_of_isAtom hatom and_group or_group, insert_ne_empty _ _,
      hor.insert hatom, fun v => ?_⟩
    rw [eval_insert]
    rfl
  | @not node hatom =>
    refine ⟨_, rfl, insert_ne_empty _ _, hor.insert hatom, fun v => ?_⟩
    rw [eval_insert]
    rfl
  | @or l r _ _ ihl ihr =>
    -- the atoms of the right side are added to those of the left
    obtain ⟨group, hgroup, -, hatoms, heval⟩ := ihl or_group hor
    obtain ⟨group', hgroup', hne, hatoms', heval'⟩ := ihr group hatoms
    refine ⟨group', ?_, hne, hatoms', fun v => ?_⟩
    · rw [traverseCNF_or, hgroup]
      exact hgroup'
    · rw [heval', heval, eval_pair, apply2_assoc]

/-- A conjunction adds its disjunctions to the groups. -/
lemma traverseCNF_conjunctive (h : Conjunctive node) (and_group : AndGroup)
    (hand : ∅ ∉ and_group) (hatoms : ∀ group ∈ and_group, OrGroup.AtomsOnly group) :
    ∃ groups group, traverseCNF and_group ∅ node = .ok (groups, group) ∧
      ∅ ∉ insertGroup groups group ∧ insertGroup groups group ≠ ∅ ∧
      (∀ other ∈ insertGroup groups group, OrGroup.AtomsOnly other) ∧
      ∀ v, AndGroup.eval v (insertGroup groups group) =
        and.apply2 (AndGroup.eval v and_group) (eval v node) := by
  induction h generalizing and_group with
  | @disjunctive node h =>
    obtain ⟨group, hgroup, hne, hgroup_atoms, heval⟩ := traverseCNF_disjunctive h and_group ∅
      fun atom hatom => absurd hatom (notMem_empty atom)
    -- the group that was collected becomes one of the conjunction
    refine ⟨and_group, group, hgroup, ?_⟩
    rw [insertGroup, if_neg hne]
    refine ⟨?_, insert_ne_empty _ _, (forall_mem_insert _ _ _).2 ⟨hgroup_atoms, hatoms⟩,
      fun v => ?_⟩
    · rw [mem_insert, not_or]
      exact ⟨hne.symm, hand⟩
    · rw [AndGroup.eval_insert, heval, apply2_comm .or]
      exact congrArg _ (apply2_unit .or _)
  | @and l r _ _ ihl ihr =>
    -- the groups of both sides, one after the other
    obtain ⟨groups, group, hl, hempty, -, hatomsl, heval⟩ := ihl and_group hand hatoms
    obtain ⟨groups', group', hr, hempty', hne, hatomsr, heval'⟩ := ihr _ hempty hatomsl
    refine ⟨insertGroup groups' group', ∅, ?_, ?_⟩
    · rw [traverseCNF_and, hl]
      show (do
        let (and_group, group) ← traverseCNF (insertGroup groups group) ∅ r
        pure (insertGroup and_group group, ∅)) = _
      rw [hr]
      rfl
    · rw [insertGroup_empty]
      refine ⟨hempty', hne, hatomsr, fun v => ?_⟩
      rw [heval', heval, eval_pair, apply2_assoc]

/-! ## The tree of the groups -/

lemma groupAST_spec {group : OrGroup} (h : group ≠ ∅) :
    ∃ tree, groupAST group = some tree ∧ ∀ v, eval v tree = OrGroup.eval v group := by
  have hatoms : atoms group ≠ [] := by
    intro hnil
    obtain ⟨atom, hatom⟩ := nonempty_iff_ne_empty.2 h
    rw [← mem_atoms, hnil] at hatom
    exact not_mem_nil hatom
  obtain ⟨tree, htree, heval⟩ := joinAtoms_spec hatoms
  refine ⟨tree, htree, fun v => (heval v).trans ?_⟩
  exact (fold_eq_apply_sort .or _ group _).symm

lemma evals_filterMap_groupAST {groups : List OrGroup} (h : ∀ group ∈ groups, group ≠ ∅) :
    evals v (groups.filterMap groupAST) = groups.map (OrGroup.eval v) := by
  induction groups with
  | nil => rfl
  | cons group groups ih =>
    obtain ⟨hgroup, hgroups⟩ := forall_mem_cons.1 h
    obtain ⟨tree, htree, heval⟩ := groupAST_spec hgroup
    rw [filterMap_cons_some htree, evals_cons, ih hgroups, heval, List.map_cons]

/-- There is a group, and none is empty. -/
structure CNFQuery.Proper (cnf : CNFQuery) : Prop where
  nonempty : cnf.statements ≠ ∅
  no_empty_group : ∅ ∉ cnf.statements

variable {cnf : CNFQuery}

lemma fromCNF_spec (h : cnf.Proper) :
    ∃ tree, fromCNF cnf = some tree ∧ ∀ v, eval v tree = cnf.eval v := by
  refine ⟨_, if_neg h.nonempty, fun v => ?_⟩
  have hgroups : ∀ group ∈ cnf.statements.sort le, group ≠ ∅ := by
    rintro group hmem rfl
    exact h.no_empty_group ((mem_sort _).1 hmem)
  rw [eval_joinGroups, evals_filterMap_groupAST hgroups]
  exact (fold_eq_apply_sort .and _ _ _).symm

/-! ## Negations in relations -/

lemma transformAtoms_proper (h : cnf.Proper) (f : CNFQueryAtomicFormula → CNFQueryAtomicFormula) :
    (cnf.transformAtoms f).statements = cnf.statements.image (fun group => group.image f) ∧
      (cnf.transformAtoms f).Proper := by
  have hnot : ∅ ∉ cnf.statements.image (fun group => group.image f) := by
    intro hmem
    obtain ⟨group, hgroup, himage⟩ := mem_image.1 hmem
    exact h.no_empty_group (image_eq_empty.1 himage ▸ hgroup)
  have heq := erase_eq_of_notMem hnot
  refine ⟨heq, ?_, ?_⟩
  · rw [CNFQuery.transformAtoms, heq]
    exact fun hempty => h.nonempty (image_eq_empty.1 hempty)
  · exact notMem_erase _ _

lemma transformAtoms_eval (h : cnf.Proper) {f : CNFQueryAtomicFormula → CNFQueryAtomicFormula}
    (hf : ∀ atom, (f atom).eval v = atom.eval v) : (cnf.transformAtoms f).eval v = cnf.eval v := by
  have hgroup : ∀ group : OrGroup, OrGroup.eval v (group.image f) = OrGroup.eval v group := by
    intro group
    rw [OrGroup.eval, fold_image_idem]
    exact fold_congr fun atom _ => hf atom
  rw [CNFQuery.eval, (transformAtoms_proper h f).1, AndGroup.eval, fold_image_idem]
  exact fold_congr fun group _ => hgroup group

/-! ## The conversion -/

/-- What distribution leaves is turned into groups of the same meaning. -/
lemma traverseCNF_spec (h : Conjunctive node) :
    ∃ cnf : CNFQuery, (do
        let (and_group, or_group) ← traverseCNF ∅ ∅ node
        pure (some (CNFQuery.mk (insertGroup and_group or_group)))) =
          (Except.ok (some cnf) : Eval _) ∧
      cnf.Proper ∧ (∀ group ∈ cnf.statements, OrGroup.AtomsOnly group) ∧
      ∀ v, cnf.eval v = eval v node := by
  obtain ⟨groups, group, hgroups, hempty, hne, hatoms, heval⟩ :=
    traverseCNF_conjunctive h ∅ (notMem_empty _) fun group hgroup =>
      absurd hgroup (notMem_empty group)
  refine ⟨⟨insertGroup groups group⟩, by rw [hgroups]; rfl, ⟨hne, hempty⟩, hatoms, fun v => ?_⟩
  exact (heval v).trans ((apply2_comm .and _ _).trans (apply2_unit .and _))

/-- With enough fuel the conversion ends: with an exception if the tree is not well formed,
without a result if there are too many atoms, and otherwise with a conjunction that has the
meaning of the tree. -/
lemma tryConvertToCNF_spec (query : Node) (max_growth_multiplier : ℕ) :
    ∃ enough result,
      (∀ fuel, enough ≤ fuel → tryConvertToCNF fuel query max_growth_multiplier = some result) ∧
      (wellFormed query = true → ∃ converted, result = .ok converted ∧
        (max_growth_multiplier = 0 → converted ≠ none)) ∧
      ∀ cnf, result = .ok (some cnf) → cnf.Proper ∧
        (∀ group ∈ cnf.statements, OrGroup.AtomsOnly group) ∧
        ∀ v, cnf.eval v = eval v query := by
  set max_atoms := if max_growth_multiplier = 0 then 0
    else max MAX_ATOMS_WITHOUT_CHECK (countAtoms query * max_growth_multiplier % 2 ^ 64) with hmax
  have hpushed := split_and_push_spec query
  cases hpush : splitMultiLogic query >>= traversePushNot false with
  | error e =>
    refine ⟨0, .error e, fun fuel _ => ?_, fun hwf => ?_, fun cnf h => by cases h⟩
    · rw [tryConvertToCNF, hpush]
    · rw [hpush] at hpushed
      exact absurd hwf (eq_false_iff.1 hpushed)
  | ok node =>
    rw [hpush] at hpushed
    obtain ⟨hnnf, heval⟩ := hpushed
    obtain ⟨outcome, hends, hfuel⟩ := traversePushOr_spec max_atoms hnnf (countAtoms query)
    rcases hends with ⟨res, rfl, dres⟩ | ⟨rfl, hne⟩
    · -- distribution ended within the limit
      obtain ⟨cnf, hcnf, hproper, hatoms, hcnf_eval⟩ := traverseCNF_spec dres.conjunctive
      refine ⟨weight node, .ok (some cnf), fun fuel h => ?_, fun _ => ⟨_, rfl, fun _ => by simp⟩,
        ?_⟩
      · rw [tryConvertToCNF, hpush]
        simp only [← hmax, hfuel fuel h, hcnf]
      · intro cnf' h
        cases h
        exact ⟨hproper, hatoms, fun v => by rw [hcnf_eval, dres.eval_eq, heval]; rfl⟩
    · -- too many atoms, which takes a limit
      refine ⟨weight node, .ok none, fun fuel h => ?_, fun _ => ⟨_, rfl, fun hzero => ?_⟩, ?_⟩
      · rw [tryConvertToCNF, hpush]
        simp only [← hmax, hfuel fuel h]
      · exact absurd (hmax.trans (if_pos hzero)) hne
      · intro cnf h
        cases h

/-- What is left of a conjunction by any number of the two rewritings. -/
inductive Rewritten (cnf : CNFQuery) : CNFQuery → Prop
  | refl : Rewritten cnf cnf
  | pullNotOutFunctions {cnf' : CNFQuery} : Rewritten cnf cnf' →
      Rewritten cnf cnf'.pullNotOutFunctions
  | pushNotInFunctions {cnf' : CNFQuery} : Rewritten cnf cnf' →
      Rewritten cnf cnf'.pushNotInFunctions

/-- The conjunction and the tree made of it have the value of the query. -/
structure Represents (v : Node → Option Bool) (cnf : CNFQuery) (query : Node) : Prop where
  eval_eq : cnf.eval v = eval v query
  tree : ∃ tree, fromCNF cnf = some tree ∧ eval v tree = eval v query

lemma CNFQuery.Proper.represents (h : cnf.Proper) {query : Node}
    (heval : cnf.eval v = TreeCNFConverter.eval v query) : Represents v cnf query := by
  obtain ⟨tree, htree, htree_eval⟩ := fromCNF_spec h
  exact ⟨heval, tree, htree, (htree_eval v).trans heval⟩

lemma Rewritten.spec {α : Type*} [LinearOrder α] (M : Meaning α) (value : Node → Option α)
    {cnf cnf' : CNFQuery} (h : Rewritten cnf cnf') (hproper : cnf.Proper) :
    cnf'.Proper ∧ cnf'.eval (atomTruth M value) = cnf.eval (atomTruth M value) := by
  induction h with
  | refl => exact ⟨hproper, rfl⟩
  | pullNotOutFunctions _ ih =>
    exact ⟨(transformAtoms_proper ih.1 _).2,
      (transformAtoms_eval ih.1 (eval_pullNotOut M value)).trans ih.2⟩
  | pushNotInFunctions _ ih =>
    exact ⟨(transformAtoms_proper ih.1 _).2,
      (transformAtoms_eval ih.1 (eval_pushNotIn M value)).trans ih.2⟩

/-- **The conversion keeps the predicate.** It ends for every tree; it rejects none that is
well formed, and with no limit on the number of atoms has a result for each of them. The
groups hold atoms and negated atoms only. The conjunction and the tree that `fromCNF` makes of
it have the value of the query under every assignment of the atoms, and still have it after
negations have been moved in and out of relations, where comparisons are those of a linear
order. -/
theorem tryConvertToCNF_preserves_predicate (query : Node) (max_growth_multiplier : ℕ) :
    ∃ enough result,
      (∀ fuel, enough ≤ fuel → tryConvertToCNF fuel query max_growth_multiplier = some result) ∧
      (wellFormed query = true → ∃ converted, result = .ok converted ∧
        (max_growth_multiplier = 0 → converted ≠ none)) ∧
      ∀ cnf, result = .ok (some cnf) →
        (∀ group ∈ cnf.statements, OrGroup.AtomsOnly group) ∧
        (∀ v, Represents v cnf query) ∧
        ∀ (α : Type*) [LinearOrder α] (M : Meaning α) (value : Node → Option α) (cnf' : CNFQuery),
          Rewritten cnf cnf' → Represents (atomTruth M value) cnf' query := by
  obtain ⟨enough, result, hfuel, hwf, hcnf⟩ := tryConvertToCNF_spec query max_growth_multiplier
  refine ⟨enough, result, hfuel, hwf, fun cnf hresult => ?_⟩
  obtain ⟨hproper, hatoms, heval⟩ := hcnf cnf hresult
  refine ⟨hatoms, fun v => hproper.represents (heval v), ?_⟩
  intro α _ M value cnf' hrewritten
  obtain ⟨hproper', heval'⟩ := hrewritten.spec M value hproper
  exact hproper'.represents (heval'.trans (heval _))

end Groups

end ClickHouse.TreeCNFConverter
