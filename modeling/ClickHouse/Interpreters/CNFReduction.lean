/-
`CNFQuery::reduce` (`src/Interpreters/TreeCNFConverter.h`, `.cpp`) and the trees that are
made of what it leaves: by `fromCNF`, and by `CNF::toQueryTree` of the analyzer
(`src/Analyzer/Passes/CNF.cpp`).

Two groups that differ in the sign of one atom are both replaced by what they share, in all
groups at once and over and over until nothing changes. Then groups that have another group
as a subset are dropped. The analyzer resolves each function it makes, and to resolve `and`
or `or` is to check the number of arguments.

A group is replaced by a subset of itself, so a step cannot make the conjunction true that
was not; and an atom and its negation are not both true, so it cannot make it false either.
Both are one lemma about a group, `reduceGroup_spec`, and hold under assignments of three
truth values. A step that changes anything makes the total number of atoms smaller.

An empty group, which two contradicting groups leave, makes all others superfluous. It is no
tree: `fromCNF` skips it and is left with an `and` of nothing, the analyzer throws, and
`transformAtoms` drops it, and the contradiction with it.
-/
import ClickHouse.Interpreters.CNFConversion
import ClickHouse.IO.Text
import ClickHouse.Lib.WhileLoop

set_option autoImplicit false

namespace ClickHouse.TreeCNFConverter

open List Finset OrGroup

/-- The other sign. -/
def CNFQueryAtomicFormula.opposite (atom : CNFQueryAtomicFormula) : CNFQueryAtomicFormula :=
  { atom with negative := !atom.negative }

variable {atom : CNFQueryAtomicFormula}

/-- An atom and its opposite are not both true. -/
lemma opposite_eval {v : Node → Option Bool} (h : atom.eval v = some true) :
    atom.opposite.eval v ≠ some true := by
  obtain ⟨negative, ast⟩ := atom
  have hnegate : ∀ (b : Bool) (t : Option Bool), InversionPushDown.negateIf b t = some true →
      InversionPushDown.negateIf (!b) t ≠ some true := by decide
  exact hnegate negative _ h

/-- What a conjunction and the one it is reduced to have to do with each other. -/
structure Reduced (groups reduced : AndGroup) : Prop where
  eval_iff : ∀ v, AndGroup.eval v reduced = some true ↔ AndGroup.eval v groups = some true
  nonempty : groups ≠ ∅ → reduced ≠ ∅
  atoms : ∀ group ∈ reduced, ∀ atom ∈ group, ∃ group' ∈ groups, atom ∈ group'

lemma Reduced.refl (groups : AndGroup) : Reduced groups groups :=
  ⟨fun _ => Iff.rfl, id, fun group hgroup _ hatom => ⟨group, hgroup, hatom⟩⟩

lemma Reduced.trans {groups reduced reduced' : AndGroup} (h : Reduced groups reduced)
    (h' : Reduced reduced reduced') : Reduced groups reduced' where
  eval_iff v := (h'.eval_iff v).trans (h.eval_iff v)
  nonempty := h'.nonempty ∘ h.nonempty
  atoms group hgroup atom hatom := by
    obtain ⟨group', hgroup', hatom'⟩ := h'.atoms group hgroup atom hatom
    exact h.atoms group' hgroup' atom hatom'

/-! ## Trees of atoms -/

/-- `FunctionNode::resolveAsFunction` for `and` and `or`. -/
def resolveConnective (c : Connective) (arguments : List Node) : Eval Node :=
  if arguments.length < 2 then
    throwException .TOO_FEW_ARGUMENTS_FOR_FUNCTION
      (str "Number of arguments for function \"" ++
        str (match c with | .and => "and" | .or => "or") ++
        str "\" should be at least 2: passed " ++ writeIntText arguments.length)
  else pure (.function (.connective c) arguments)

/-- A single argument stands for itself. -/
def joinArguments (c : Connective) : List Node → Eval Node
  | [argument] => pure argument
  | arguments => resolveConnective c arguments

lemma wellFormed_atomAST (h : wellFormed atom.ast = true) : wellFormed (atomAST atom) = true := by
  obtain ⟨_ | _, ast⟩ := atom
  · exact h
  · simp only [atomAST, if_pos, wellFormed, allWellFormed, Bool.and_true, length_singleton,
      decide_true, Bool.true_and]
    exact h

variable {atoms : List CNFQueryAtomicFormula} {tree : Node}

lemma wellFormed_joinAtoms (h : ∀ atom ∈ atoms, wellFormed atom.ast = true)
    (htree : joinAtoms atoms = some tree) : wellFormed tree = true := by
  match atoms, htree with
  | [atom], rfl => exact wellFormed_atomAST (h atom (List.mem_singleton.2 rfl))
  | atom :: atom' :: atoms, rfl =>
    rw [wellFormed, Bool.and_eq_true, allWellFormed_iff]
    refine ⟨by simp, fun node hnode => ?_⟩
    obtain ⟨a, ha, rfl⟩ := mem_map.1 hnode
    exact wellFormed_atomAST (h a ha)

lemma joinArguments_or
    (htree : joinAtoms atoms = some tree) : joinArguments .or (atoms.map atomAST) = .ok tree := by
  match atoms, htree with
  | [atom], rfl => rfl
  | atom :: atom' :: atoms, rfl =>
    show resolveConnective .or _ = _
    rfl

lemma wellFormed_joinGroups {trees : List Node} (hne : trees ≠ [])
    (h : ∀ tree ∈ trees, wellFormed tree = true) : wellFormed (joinGroups trees) = true := by
  match trees with
  | [] => exact absurd rfl hne
  | [tree] => exact h tree (List.mem_singleton.2 rfl)
  | tree :: tree' :: trees =>
    rw [joinGroups, wellFormed, Bool.and_eq_true, allWellFormed_iff]
    · exact ⟨by simp, h⟩
    · simp

lemma joinArguments_and {trees : List Node} (hne : trees ≠ []) :
    joinArguments .and trees = .ok (joinGroups trees) := by
  match trees with
  | [] => exact absurd rfl hne
  | [tree] => rfl
  | tree :: tree' :: trees =>
    show resolveConnective .and _ = _
    rfl

/-- An `or` of nothing is not resolved. -/
lemma joinArguments_or_nil :
    joinArguments .or [] = throwException .TOO_FEW_ARGUMENTS_FOR_FUNCTION
      (str "Number of arguments for function \"or\" should be at least 2: passed 0") := by
  have htext : str "Number of arguments for function \"" ++ str "or" ++
      str "\" should be at least 2: passed " ++ writeIntText (0 : ℕ) =
      str "Number of arguments for function \"or\" should be at least 2: passed 0" := by
    decide +kernel
  exact congrArg (throwException .TOO_FEW_ARGUMENTS_FOR_FUNCTION) htext

/-! ## The code -/

section Reduction

variable [LinearOrder Node]

/-- The loop over the atoms of `group` in `reduceOnceCNFStatements`, with its `copy`. -/
def reduceGroupLoop (groups : AndGroup) (group : OrGroup) :
    OrGroup → List CNFQueryAtomicFormula → OrGroup
  | _, [] => group
  | copy, atom :: atoms =>
    let negative_atom := atom.opposite
    if negative_atom ∈ copy then reduceGroupLoop groups group copy atoms
    else
      let changed := insert negative_atom (copy.erase atom)
      if changed ∈ groups then changed.erase negative_atom
      else reduceGroupLoop groups group (insert atom (changed.erase negative_atom)) atoms

variable (groups : AndGroup)

variable (group : OrGroup)

/-- What the loop makes of one group. -/
def reduceGroup : OrGroup :=
  reduceGroupLoop groups group group (OrGroup.atoms group)

/-- `reduceOnceCNFStatements`. -/
def reduceOnceCNFStatements : AndGroup :=
  groups.image (reduceGroup groups)

/-- `isCNFGroupSubset`. -/
def isCNFGroupSubset (left right : OrGroup) : Bool :=
  if left.card > right.card then false else decide (∀ elem ∈ left, elem ∈ right)

/-- `filterCNFSubsets`. -/
def filterCNFSubsets : AndGroup :=
  groups.filter fun group =>
    ¬∃ other_group ∈ groups, isCNFGroupSubset other_group group = true ∧ group ≠ other_group

/-- `CNFQuery::reduce`, which has no result if its loop has not ended within the fuel. -/
def CNFQuery.reduce (fuel : ℕ) (cnf : CNFQuery) : Option CNFQuery :=
  (Lib.whileLoop (fun statements => decide (statements ≠ reduceOnceCNFStatements statements))
    (fun statements => some (reduceOnceCNFStatements statements)) fuel cnf.statements).map
      fun statements => ⟨filterCNFSubsets statements⟩

/-- `CNF::toQueryTree`. -/
def toQueryTree (cnf : CNFQuery) : Eval (Option Node) :=
  if cnf.statements = ∅ then pure none
  else do
    let and_arguments ← (cnf.statements.sort OrGroup.le).mapM fun or_group =>
      joinArguments .or ((OrGroup.atoms or_group).map atomAST)
    pure (some (← joinArguments .and and_arguments))

/-! ## One group -/

/-- A group is left as it is, or loses an atom that another group has with the other sign. -/
lemma reduceGroupLoop_spec
    (atoms : List CNFQueryAtomicFormula) (hatoms : ∀ atom ∈ atoms, atom ∈ group) :
    reduceGroupLoop groups group group atoms = group ∨
      ∃ atom ∈ group, insert atom.opposite (group.erase atom) ∈ groups ∧
        reduceGroupLoop groups group group atoms = group.erase atom := by
  induction atoms with
  | nil => exact .inl rfl
  | cons atom atoms ih =>
    obtain ⟨hatom, hrest⟩ := forall_mem_cons.1 hatoms
    rw [reduceGroupLoop]
    by_cases hopposite : atom.opposite ∈ group
    · rw [if_pos hopposite]
      exact ih hrest
    have herase : (insert atom.opposite (group.erase atom)).erase atom.opposite =
        group.erase atom :=
      erase_insert fun hmem => hopposite (mem_of_mem_erase hmem)
    rw [if_neg hopposite]
    by_cases hchanged : insert atom.opposite (group.erase atom) ∈ groups
    · rw [if_pos hchanged]
      exact .inr ⟨atom, hatom, hchanged, herase⟩
    · -- the copy is restored before the next atom
      rw [if_neg hchanged, herase, insert_erase hatom]
      exact ih hrest

lemma reduceGroup_spec :
    reduceGroup groups group = group ∨
      ∃ atom ∈ group, insert atom.opposite (group.erase atom) ∈ groups ∧
        reduceGroup groups group = group.erase atom :=
  reduceGroupLoop_spec groups group _ fun _ => mem_atoms.1

lemma reduceGroup_subset : reduceGroup groups group ⊆ group := by
  rcases reduceGroup_spec groups group with h | ⟨atom, -, -, h⟩
  · exact h.subset
  · exact h ▸ erase_subset atom group

/-! ## Truth -/

variable {v : Node → Option Bool}

lemma OrGroup.eval_eq_true :
    eval v group = some true ↔ ∃ atom ∈ group, atom.eval v = some true := by
  induction group using Finset.induction_on with
  | empty => simp [eval, Connective.unit]
  | insert atom group _ ih =>
    rw [eval_insert, Connective.or_apply2_eq_true, ih, exists_mem_insert, or_comm]

lemma AndGroup.eval_eq_true :
    AndGroup.eval v groups = some true ↔ ∀ group ∈ groups, OrGroup.eval v group = some true := by
  induction groups using Finset.induction_on with
  | empty => simp [AndGroup.eval, Connective.unit]
  | insert group groups _ ih =>
    rw [AndGroup.eval_insert, Connective.and_apply2_eq_true, ih, forall_mem_insert, and_comm]

lemma OrGroup.eval_mono {group group' : OrGroup} (hsubset : group ⊆ group')
    (h : eval v group = some true) : eval v group' = some true := by
  obtain ⟨atom, hatom, heval⟩ := (eval_eq_true group).1 h
  exact (eval_eq_true group').2 ⟨atom, hsubset hatom, heval⟩

/-- Resolution: of two groups that differ in the sign of an atom, what they share is true. -/
lemma eval_erase_of_opposite {group : OrGroup} (h : OrGroup.eval v group = some true)
    (h' : OrGroup.eval v (insert atom.opposite (group.erase atom)) = some true) :
    OrGroup.eval v (group.erase atom) = some true := by
  rw [eval_eq_true, exists_mem_insert, ← eval_eq_true] at h'
  rcases h' with hopposite | hrest
  · obtain ⟨other, hother, htrue⟩ := (eval_eq_true group).1 h
    refine (eval_eq_true _).2 ⟨other, mem_erase.2 ⟨?_, hother⟩, htrue⟩
    rintro rfl
    exact opposite_eval htrue hopposite
  · exact hrest

lemma eval_reduceOnceCNFStatements :
    AndGroup.eval v (reduceOnceCNFStatements groups) = some true ↔
      AndGroup.eval v groups = some true := by
  rw [AndGroup.eval_eq_true, AndGroup.eval_eq_true, reduceOnceCNFStatements, forall_mem_image]
  constructor
  · intro h group hgroup
    exact eval_mono (reduceGroup_subset groups group) (h hgroup)
  intro h group hgroup
  rcases reduceGroup_spec groups group with heq | ⟨atom, -, hmem, heq⟩
  · rw [heq]
    exact h group hgroup
  · rw [heq]
    exact eval_erase_of_opposite (h group hgroup) (h _ hmem)

/-! ## The number of atoms -/

/-- The number of atoms in all groups. -/
def atomCount : ℕ := ∑ group ∈ groups, group.card

lemma atomCount_reduceOnceCNFStatements {groups : AndGroup}
    (h : groups ≠ reduceOnceCNFStatements groups) :
    atomCount (reduceOnceCNFStatements groups) < atomCount groups := by
  have hchanged : ∃ group ∈ groups, reduceGroup groups group ≠ group := by
    by_contra hnone
    push Not at hnone
    apply h
    rw [reduceOnceCNFStatements, image_congr hnone, image_id']
  obtain ⟨group, hgroup, hne⟩ := hchanged
  calc atomCount (reduceOnceCNFStatements groups)
      ≤ ∑ group ∈ groups, (reduceGroup groups group).card :=
        sum_image_le_of_nonneg fun _ _ => Nat.zero_le _
    _ < ∑ group ∈ groups, group.card := by
        refine sum_lt_sum (fun g _ => card_le_card (reduceGroup_subset groups g))
          ⟨group, hgroup, card_lt_card ?_⟩
        exact (reduceGroup_subset groups group).ssubset_of_ne hne

/-! ## Subsets -/

lemma isCNFGroupSubset_iff (left right : OrGroup) :
    isCNFGroupSubset left right = true ↔ left ⊆ right := by
  rw [isCNFGroupSubset]
  split_ifs with hcard
  · refine ⟨by simp, fun hsubset => ?_⟩
    have := card_le_card hsubset
    omega
  · rw [decide_eq_true_eq]
    exact Iff.rfl

/-- What is kept are the minimal groups. -/
lemma mem_filterCNFSubsets : group ∈ filterCNFSubsets groups ↔ Minimal (· ∈ groups) group := by
  rw [filterCNFSubsets, Finset.mem_filter, minimal_iff]
  refine and_congr_right fun _ => ⟨?_, ?_⟩
  · intro h other hother hle
    by_contra hne
    exact h ⟨other, hother, (isCNFGroupSubset_iff other group).2 hle, hne⟩
  · rintro h ⟨other, hother, hsubset, hne⟩
    exact hne (h hother ((isCNFGroupSubset_iff other group).1 hsubset))

lemma eval_filterCNFSubsets :
    AndGroup.eval v (filterCNFSubsets groups) = some true ↔ AndGroup.eval v groups = some true := by
  rw [AndGroup.eval_eq_true, AndGroup.eval_eq_true]
  constructor
  · intro h group hgroup
    obtain ⟨minimal, hle, hminimal⟩ := groups.exists_le_minimal hgroup
    exact eval_mono hle (h minimal ((mem_filterCNFSubsets groups minimal).2 hminimal))
  · intro h group hgroup
    exact h group ((mem_filterCNFSubsets groups group).1 hgroup).1

lemma filterCNFSubsets_nonempty {groups : AndGroup} (h : groups ≠ ∅) :
    filterCNFSubsets groups ≠ ∅ := by
  obtain ⟨group, hgroup⟩ := nonempty_iff_ne_empty.2 h
  obtain ⟨minimal, -, hminimal⟩ := groups.exists_le_minimal hgroup
  exact ne_empty_of_mem ((mem_filterCNFSubsets groups minimal).2 hminimal)

/-- An empty group makes all others superfluous. -/
lemma filterCNFSubsets_of_empty_mem {groups : AndGroup} (h : ∅ ∈ filterCNFSubsets groups) :
    filterCNFSubsets groups = {∅} := by
  have hempty := ((mem_filterCNFSubsets groups ∅).1 h).1
  refine eq_singleton_iff_unique_mem.2 ⟨h, fun group hgroup => ?_⟩
  have hminimal := (mem_filterCNFSubsets groups group).1 hgroup
  exact (hminimal.eq_of_le hempty (empty_subset group)).symm

/-! ## The whole reduction -/

lemma reduced_reduceOnceCNFStatements : Reduced groups (reduceOnceCNFStatements groups) where
  eval_iff _ := eval_reduceOnceCNFStatements groups
  nonempty h := fun hempty => h (image_eq_empty.1 hempty)
  atoms group hgroup atom hatom := by
    obtain ⟨group', hgroup', rfl⟩ := mem_image.1 hgroup
    exact ⟨group', hgroup', reduceGroup_subset groups group' hatom⟩

lemma reduced_filterCNFSubsets : Reduced groups (filterCNFSubsets groups) where
  eval_iff _ := eval_filterCNFSubsets groups
  nonempty := filterCNFSubsets_nonempty
  atoms group hgroup _ hatom := ⟨group, ((mem_filterCNFSubsets groups group).1 hgroup).1, hatom⟩

/-- The loop ends, after at most as many steps as there are atoms. -/
lemma reduce_spec (cnf : CNFQuery) :
    ∃ groups, (∀ fuel, atomCount cnf.statements ≤ fuel →
        cnf.reduce fuel = some ⟨filterCNFSubsets groups⟩) ∧
      Reduced cnf.statements (filterCNFSubsets groups) := by
  obtain ⟨groups, hloop, hreduced, -⟩ := Lib.whileLoop_spec
    (fun statements => decide (statements ≠ reduceOnceCNFStatements statements))
    (fun statements => some (reduceOnceCNFStatements statements))
    (Reduced cnf.statements) atomCount
    (fun groups hgroups hcond => ⟨_, rfl, hgroups.trans (reduced_reduceOnceCNFStatements groups),
      atomCount_reduceOnceCNFStatements (of_decide_eq_true hcond)⟩)
    _ cnf.statements (.refl _) le_rfl
  refine ⟨groups, fun fuel hfuel => ?_, hreduced.trans (reduced_filterCNFSubsets groups)⟩
  rw [CNFQuery.reduce, Lib.whileLoop_mono _ _ hfuel hloop, Option.map_some]

/-! ## Trees of what is left -/

lemma mapM_joinArguments {groups : List OrGroup} (h : ∀ group ∈ groups, group ≠ ∅) :
    groups.mapM (fun or_group => joinArguments .or ((OrGroup.atoms or_group).map atomAST)) =
      .ok (groups.filterMap groupAST) := by
  induction groups with
  | nil => rfl
  | cons group groups ih =>
    obtain ⟨hgroup, hgroups⟩ := forall_mem_cons.1 h
    obtain ⟨tree, htree, -⟩ := groupAST_spec hgroup
    rw [mapM_cons, joinArguments_or htree, ih hgroups, filterMap_cons_some htree]
    rfl

lemma filterMap_groupAST_ne_nil {cnf : CNFQuery} (h : cnf.Proper) :
    (cnf.statements.sort le).filterMap groupAST ≠ [] := by
  obtain ⟨group, hgroup⟩ := nonempty_iff_ne_empty.2 h.nonempty
  have hne : group ≠ ∅ := by
    rintro rfl
    exact h.no_empty_group hgroup
  obtain ⟨tree, htree, -⟩ := groupAST_spec hne
  have hmem := (mem_sort le).2 hgroup
  exact ne_nil_of_mem (mem_filterMap.2 ⟨group, hmem, htree⟩)

/-- Both ways to make a tree make the same well-formed one, if no group is empty. -/
lemma trees_of_proper {cnf : CNFQuery} (h : cnf.Proper)
    (hwf : ∀ group ∈ cnf.statements, ∀ atom ∈ group, wellFormed atom.ast = true) :
    ∃ tree, fromCNF cnf = some tree ∧ toQueryTree cnf = .ok (some tree) ∧
      wellFormed tree = true ∧ ∀ v, eval v tree = cnf.eval v := by
  obtain ⟨tree, htree, heval⟩ := fromCNF_spec h
  have hnil := filterMap_groupAST_ne_nil h
  have hgroups : ∀ group ∈ cnf.statements.sort le, group ≠ ∅ := by
    rintro group hmem rfl
    exact h.no_empty_group ((mem_sort _).1 hmem)
  rw [fromCNF, if_neg h.nonempty, Option.some.injEq] at htree
  refine ⟨tree, ?_, ?_, ?_, heval⟩
  · rw [fromCNF, if_neg h.nonempty, htree]
  · rw [toQueryTree, if_neg h.nonempty, mapM_joinArguments hgroups]
    show (do pure (some (← joinArguments .and _))) = _
    rw [joinArguments_and hnil, htree]
    rfl
  · rw [← htree]
    refine wellFormed_joinGroups hnil ?_
    intro groupTree hmem
    obtain ⟨group, hgroup, hgroupTree⟩ := mem_filterMap.1 hmem
    refine wellFormed_joinAtoms (fun atom hatom => ?_) hgroupTree
    exact hwf group ((mem_sort _).1 hgroup) atom (mem_atoms.1 hatom)

/-- The empty group is skipped by `fromCNF`, and rejected by the analyzer. -/
lemma trees_of_empty_group :
    fromCNF ⟨{∅}⟩ = some (.function .and []) ∧
      toQueryTree ⟨{∅}⟩ = throwException .TOO_FEW_ARGUMENTS_FOR_FUNCTION
        (str "Number of arguments for function \"or\" should be at least 2: passed 0") := by
  have hne : ({∅} : AndGroup) ≠ ∅ := singleton_ne_empty _
  constructor
  · rw [fromCNF, if_neg hne, sort_singleton, filterMap_cons_none, filterMap_nil]
    · rfl
    · rw [groupAST, atoms, sort_empty]
      rfl
  · rw [toQueryTree, if_neg hne, sort_singleton, mapM_cons, atoms, sort_empty,
      map_nil, joinArguments_or_nil]
    rfl

/-- An empty group is false, so that a conjunction with one has no model. -/
lemma empty_notMem_of_eval {groups : AndGroup} {v : Node → Option Bool}
    (h : AndGroup.eval v groups = some true) : ∅ ∉ groups := by
  intro hempty
  obtain ⟨atom, hatom, -⟩ := (OrGroup.eval_eq_true _).1 ((AndGroup.eval_eq_true _).1 h ∅ hempty)
  exact absurd hatom (Finset.notMem_empty atom)

/-- `x and not x`. -/
def contradiction (x : Node) : CNFQuery := ⟨{{⟨false, x⟩}, {⟨true, x⟩}}⟩

lemma reduceGroup_singleton {groups : AndGroup}
    (h : {atom.opposite} ∈ groups) : reduceGroup groups {atom} = ∅ := by
  have hne : atom.opposite ≠ atom := by
    intro heq
    have := congrArg CNFQueryAtomicFormula.negative heq
    simp [CNFQueryAtomicFormula.opposite] at this
  have herase : ({atom} : OrGroup).erase atom = ∅ := erase_singleton atom
  rw [reduceGroup, atoms, sort_singleton, reduceGroupLoop, if_neg (by simpa using hne), herase]
  show (if {atom.opposite} ∈ groups then _ else _) = _
  rw [if_pos h]
  exact erase_singleton atom.opposite

variable (x : Node)

lemma reduceOnce_contradiction :
    reduceOnceCNFStatements (contradiction x).statements = {∅} := by
  rw [reduceOnceCNFStatements, contradiction, image_insert, image_singleton,
    reduceGroup_singleton (by simp [CNFQueryAtomicFormula.opposite]),
    reduceGroup_singleton (by simp [CNFQueryAtomicFormula.opposite])]
  exact insert_eq_of_mem (Finset.mem_singleton_self _)

lemma reduceOnce_empty_group : reduceOnceCNFStatements {∅} = ({∅} : AndGroup) := by
  rw [reduceOnceCNFStatements, image_singleton, reduceGroup, atoms, sort_empty]
  rfl

lemma reduce_contradiction : (contradiction x).reduce 1 = some ⟨{∅}⟩ := by
  have hfilter : filterCNFSubsets {∅} = ({∅} : AndGroup) :=
    filterCNFSubsets_of_empty_mem ((mem_filterCNFSubsets _ _).2
      ⟨Finset.mem_singleton_self _, fun _ _ _ => empty_subset _⟩)
  have hne : (contradiction x).statements ≠ {∅} := by
    intro heq
    have hmem : {⟨false, x⟩} ∈ ({∅} : AndGroup) := heq ▸ mem_insert_self _ _
    exact singleton_ne_empty _ (Finset.mem_singleton.1 hmem)
  rw [CNFQuery.reduce, Lib.whileLoop, if_pos (by rw [reduceOnce_contradiction]; simpa using hne),
    Option.bind_some, reduceOnce_contradiction, Lib.whileLoop,
    if_neg (by rw [reduceOnce_empty_group]; simp), Option.map_some, hfilter]

/-- The empty group that is left of `x and not x` is an `and` of nothing for `fromCNF` and an
exception for the analyzer; `pushNotInFunctions`, which comes next, drops it, and no condition
is left. -/
lemma tree_of_reduced_contradiction :
    ∃ reduced, (contradiction x).reduce 1 = some reduced ∧
      fromCNF reduced = some (.function .and []) ∧
      (∃ e, toQueryTree reduced = .error e) ∧ fromCNF reduced.pushNotInFunctions = none := by
  obtain ⟨hfrom, hto⟩ := trees_of_empty_group
  refine ⟨_, reduce_contradiction x, hfrom, ⟨_, hto⟩, ?_⟩
  have hdrop : (CNFQuery.mk {∅}).pushNotInFunctions.statements = ∅ := by
    rw [CNFQuery.pushNotInFunctions, CNFQuery.transformAtoms, image_singleton,
      image_empty, erase_singleton]
  rw [fromCNF, if_pos hdrop]

lemma proper_contradiction : (contradiction x).Proper where
  nonempty := insert_ne_empty _ _
  no_empty_group := by
    rw [contradiction, mem_insert, Finset.mem_singleton, not_or]
    exact ⟨(singleton_ne_empty _).symm, (singleton_ne_empty _).symm⟩

end Reduction

end ClickHouse.TreeCNFConverter
