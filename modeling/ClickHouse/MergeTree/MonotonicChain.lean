/-
`KeyCondition::applyMonotonicFunctionsChainToRange`
(`src/Storages/MergeTree/KeyCondition.cpp`): the image of a key range under a
chain of functions that are monotonic on it.

A function says for a range of arguments whether it is monotonic there and in
which direction; that it says so correctly is part of its type. Functions map
values to values and keep NULL.

`value_mem_of_chain` is the expected statement: the image of a value of the range
is in the transformed range. NULL needs one of its own, because a decreasing
function swaps the ends and turns `+inf` into `-inf`, so that a NULL of the range is
outside of the transformed one. What does survive is that some infinite end is
included (`hasInfiniteEnd_of_chain`), and for a range atom, whose range includes no
infinity, that is enough. For a set it is not, so `NullLost` names the case.
-/
import ClickHouse.Core.Range

set_option autoImplicit false

namespace ClickHouse

open Range

/-- `IFunction::Monotonicity`, as far as the index analysis reads it. -/
structure Monotonicity where
  is_monotonic : Bool := false
  is_positive : Bool := true
  deriving DecidableEq, Repr

/-- A function of a key column. -/
structure MonotonicFunction (α : Type*) [LinearOrder α] where
  apply : α → α
  getMonotonicityForRange : Field α → Field α → Monotonicity
  positive : ∀ l r x y, getMonotonicityForRange l r = ⟨true, true⟩ → l ≤ .value x → x ≤ y →
    .value y ≤ r → apply x ≤ apply y
  negative : ∀ l r x y, getMonotonicityForRange l r = ⟨true, false⟩ → l ≤ .value x → x ≤ y →
    .value y ≤ r → apply y ≤ apply x

variable {α : Type*} [LinearOrder α]

namespace MonotonicFunction

/-- On fields: NULL and the infinities are kept. -/
def onField (f : MonotonicFunction α) : Field α → Field α
  | .value a => .value (f.apply a)
  | x => x

@[simp] lemma onField_value (f : MonotonicFunction α) (a : α) :
    f.onField (.value a) = .value (f.apply a) := rfl

@[simp] lemma onField_posInf (f : MonotonicFunction α) :
    f.onField .POSITIVE_INFINITY = .POSITIVE_INFINITY := rfl

end MonotonicFunction

/-- The value of a chain at a field of the key column. -/
def applyChain (functions : List (MonotonicFunction α)) (x : Field α) : Field α :=
  functions.foldl (fun x f => f.onField x) x

@[simp] lemma applyChain_cons (f : MonotonicFunction α) (fs : List (MonotonicFunction α))
    (x : Field α) : applyChain (f :: fs) x = applyChain fs (f.onField x) := rfl

@[simp] lemma applyChain_posInf (fs : List (MonotonicFunction α)) :
    applyChain fs .POSITIVE_INFINITY = .POSITIVE_INFINITY := by
  induction fs with
  | nil => rfl
  | cons f fs ih => rw [applyChain_cons, f.onField_posInf, ih]

/-! ## The model -/

/-- The function on the two ends; an end that is moved becomes included. -/
def mapEnds (f : MonotonicFunction α) (key_range : Range α) : Range α where
  left := { key_range.left with field := f.onField key_range.left.field }
  right := { key_range.right with field := f.onField key_range.right.field }
  left_included := match key_range.left.field with
    | .value _ => true
    | _ => key_range.left_included
  right_included := match key_range.right.field with
    | .value _ => true
    | _ => key_range.right_included

/-- One function of the chain. -/
def applyMonotonicFunctionToRange (single_point : Bool) (key_range : Range α)
    (func : MonotonicFunction α) : Option (Range α) :=
  let monotonicity : Monotonicity :=
    if single_point then { is_monotonic := true }
    else func.getMonotonicityForRange key_range.left.field key_range.right.field
  if !monotonicity.is_monotonic then none
  else if !monotonicity.is_positive then some (mapEnds func key_range).invert
  else some (mapEnds func key_range)

/-- `applyMonotonicFunctionsChainToRange`; one function that is not monotonic gives it up. -/
def applyMonotonicFunctionsChainToRange (key_range : Range α)
    (functions : List (MonotonicFunction α)) (single_point : Bool) : Option (Range α) :=
  functions.foldlM (applyMonotonicFunctionToRange single_point) key_range

/-! ## One function -/

/-- A range that is known to hold one value only. -/
def IsSinglePoint (r : Range α) : Prop := r.left.field = r.right.field

variable {f : MonotonicFunction α} {single_point : Bool} {r r' : Range α}

/-- What one function does: keep the ends in order, or swap them. -/
lemma applyMonotonicFunctionToRange_cases
    (h : applyMonotonicFunctionToRange single_point r f = some r') :
    (r' = mapEnds f r ∧ (single_point = true ∨
        f.getMonotonicityForRange r.left.field r.right.field = ⟨true, true⟩)) ∨
      (r' = (mapEnds f r).invert ∧ single_point = false ∧
        f.getMonotonicityForRange r.left.field r.right.field = ⟨true, false⟩) := by
  unfold applyMonotonicFunctionToRange at h
  cases single_point with
  | true =>
    left
    simpa [eq_comm] using h
  | false =>
    obtain ⟨hm, hp⟩ | ⟨hm, hp⟩ : (f.getMonotonicityForRange r.left.field r.right.field =
        ⟨true, true⟩ ∧ mapEnds f r = r') ∨ (f.getMonotonicityForRange r.left.field r.right.field =
        ⟨true, false⟩ ∧ (mapEnds f r).invert = r') := by
      -- a function that is not monotone gives no range
      rcases hmon : f.getMonotonicityForRange r.left.field r.right.field with ⟨m, p⟩
      cases m <;> cases p <;> simp_all
    · exact .inl ⟨hp.symm, .inr hm⟩
    · exact .inr ⟨hp.symm, rfl, hm⟩

lemma isSinglePoint_step (h : applyMonotonicFunctionToRange true r f = some r')
    (hr : IsSinglePoint r) : IsSinglePoint r' := by
  rcases applyMonotonicFunctionToRange_cases h with ⟨rfl, -⟩ | ⟨-, hfalse, -⟩
  · show f.onField r.left.field = f.onField r.right.field
    rw [hr]
  · exact absurd hfalse (by decide)

/-! The ends after a function, for a value between the ends before. -/

variable {b : α}

lemma mapEnds_aboveLeft
    (hle : ∀ l, r.left.field = .value l → f.apply l ≤ b) (hne : r.left.field ≠ .POSITIVE_INFINITY) :
    (mapEnds f r).AboveLeft (.value b) := by
  rw [aboveLeft_iff]
  cases hl : r.left.field with
  | NEGATIVE_INFINITY => simp [mapEnds, hl, MonotonicFunction.onField]
  | value l => simpa [mapEnds, hl] using hle l hl
  | POSITIVE_INFINITY => exact absurd hl hne

lemma mapEnds_belowRight (hle : ∀ u, r.right.field = .value u → b ≤ f.apply u)
    (hne : r.right.field ≠ .NEGATIVE_INFINITY) : (mapEnds f r).BelowRight (.value b) := by
  rw [belowRight_iff]
  cases hu : r.right.field with
  | NEGATIVE_INFINITY => exact absurd hu hne
  | value u => simpa [mapEnds, hu] using hle u hu
  | POSITIVE_INFINITY => simp [mapEnds, hu, MonotonicFunction.onField]

lemma invert_mapEnds_aboveLeft (hle : ∀ u, r.right.field = .value u → f.apply u ≤ b)
    (hne : r.right.field ≠ .NEGATIVE_INFINITY) : (mapEnds f r).invert.AboveLeft (.value b) := by
  rw [aboveLeft_iff]
  cases hu : r.right.field with
  | NEGATIVE_INFINITY => exact absurd hu hne
  | value u => simpa [invert, mapEnds, hu] using hle u hu
  | POSITIVE_INFINITY => simp [invert, mapEnds, hu]

lemma invert_mapEnds_belowRight
    (hle : ∀ l, r.left.field = .value l → b ≤ f.apply l) (hne : r.left.field ≠ .POSITIVE_INFINITY) :
    (mapEnds f r).invert.BelowRight (.value b) := by
  rw [belowRight_iff]
  cases hl : r.left.field with
  | NEGATIVE_INFINITY => simp [invert, mapEnds, hl, MonotonicFunction.onField]
  | value l => simpa [invert, mapEnds, hl] using hle l hl
  | POSITIVE_INFINITY => exact absurd hl hne

/-- **One function** maps a value of the range into the range it gives. -/
theorem value_mem_step {a : α} (h : applyMonotonicFunctionToRange single_point r f = some r')
    (hpoint : single_point = true → IsSinglePoint r) (ha : r.Mem (.value a)) :
    r'.Mem (.value (f.apply a)) := by
  have hl := (aboveLeft_iff.1 ha.1).1
  have hr := (belowRight_iff.1 ha.2).1
  -- a range that has a value does not begin or end at the wrong infinity
  have hlne : r.left.field ≠ .POSITIVE_INFINITY := by
    intro heq
    rw [heq] at hl
    exact absurd (Field.value_lt_posInf a) (not_lt.2 hl)
  have hrne : r.right.field ≠ .NEGATIVE_INFINITY := by
    intro heq
    rw [heq] at hr
    exact absurd (Field.negInf_lt_value a) (not_lt.2 hr)
  have hla : ∀ l, r.left.field = .value l → l ≤ a := by
    intro l heq
    rwa [heq, Field.value_le_value] at hl
  have har : ∀ u, r.right.field = .value u → a ≤ u := by
    intro u heq
    rwa [heq, Field.value_le_value] at hr
  rcases applyMonotonicFunctionToRange_cases h with ⟨rfl, hsp | hpos⟩ | ⟨rfl, -, hneg⟩
  · -- one value: both ends are the value itself
    have hpt : r.left.field = r.right.field := hpoint hsp
    have hend : r.left.field = .value a := le_antisymm hl (hpt ▸ hr)
    refine ⟨mapEnds_aboveLeft ?_ hlne, mapEnds_belowRight ?_ hrne⟩
    · intro l heq
      rw [heq, Field.value.injEq] at hend
      rw [hend]
    · intro u heq
      rw [hpt, heq, Field.value.injEq] at hend
      rw [hend]
  · -- the function is increasing, and the ends keep their sides
    refine ⟨mapEnds_aboveLeft ?_ hlne, mapEnds_belowRight ?_ hrne⟩
    · intro l heq
      exact f.positive _ _ l a hpos heq.le (hla l heq) hr
    · intro u heq
      exact f.positive _ _ a u hpos hl (har u heq) heq.ge
  · -- the function is decreasing, and the ends change sides
    refine ⟨invert_mapEnds_aboveLeft ?_ hrne, invert_mapEnds_belowRight ?_ hlne⟩
    · intro u heq
      exact f.negative _ _ a u hneg hl (har u heq) heq.ge
    · intro l heq
      exact f.negative _ _ l a hneg heq.le (hla l heq) hr

/-- NULL is in the range, or has been turned over to the left end. -/
def HasInfiniteEnd (r : Range α) : Prop :=
  r.Mem .POSITIVE_INFINITY ∨ (r.left.field = .NEGATIVE_INFINITY ∧ r.left_included = true ∧
    r.right.field ≠ .NEGATIVE_INFINITY)

lemma posInf_mem_iff : r.Mem .POSITIVE_INFINITY ↔
    (r.left.field = .POSITIVE_INFINITY → r.left_included = true) ∧
      r.right.field = .POSITIVE_INFINITY ∧ r.right_included = true := by
  rw [Range.Mem, aboveLeft_iff, belowRight_iff]
  constructor
  · rintro ⟨⟨-, hl⟩, hle, hr⟩
    have heq : r.right.field = .POSITIVE_INFINITY := le_antisymm (Field.le_posInf _) hle
    exact ⟨fun h => hl h.symm, heq, hr heq.symm⟩
  · rintro ⟨hl, heq, hr⟩
    exact ⟨⟨Field.le_posInf _, fun h => hl h.symm⟩, heq.ge, fun _ => hr⟩

lemma hasInfiniteEnd_step (h : applyMonotonicFunctionToRange single_point r f = some r')
    (hr : HasInfiniteEnd r) : HasInfiniteEnd r' := by
  unfold HasInfiniteEnd at hr ⊢
  rw [posInf_mem_iff] at hr ⊢
  rcases applyMonotonicFunctionToRange_cases h with ⟨rfl, -⟩ | ⟨rfl, -⟩
  · -- no end changes its kind
    cases hl : r.left.field <;> cases hu : r.right.field <;>
      simp_all [mapEnds, MonotonicFunction.onField]
  · cases hl : r.left.field <;> cases hu : r.right.field <;>
      simp_all [invert, mapEnds, MonotonicFunction.onField]
    exact hr.symm

/-! ## The chain -/

lemma applyMonotonicFunctionsChainToRange_cons (r : Range α) (f : MonotonicFunction α)
    (fs : List (MonotonicFunction α)) (single_point : Bool) :
    applyMonotonicFunctionsChainToRange r (f :: fs) single_point =
      (applyMonotonicFunctionToRange single_point r f).bind
        (fun r' => applyMonotonicFunctionsChainToRange r' fs single_point) :=
  List.foldlM_cons

lemma chain_nil (h : applyMonotonicFunctionsChainToRange r [] single_point = some r') : r' = r :=
  (Option.some.inj h).symm

/-- What a step preserves, a chain preserves. -/
lemma chain_induction (P : Range α → Prop)
    (hstep : ∀ r r' f, applyMonotonicFunctionToRange single_point r f = some r' → P r → P r') :
    ∀ (fs : List (MonotonicFunction α)) (r r' : Range α),
      applyMonotonicFunctionsChainToRange r fs single_point = some r' → P r → P r' := by
  intro fs
  induction fs with
  | nil =>
    intro r r' h hr
    rwa [chain_nil h]
  | cons f fs ih =>
    intro r r' h hr
    rw [applyMonotonicFunctionsChainToRange_cons, Option.bind_eq_some_iff] at h
    obtain ⟨r'', hf, hfs⟩ := h
    exact ih r'' r' hfs (hstep r r'' f hf hr)

variable {fs : List (MonotonicFunction α)}

variable (h : applyMonotonicFunctionsChainToRange r fs single_point = some r')

include h in
/-- **The chain** maps a value of the range into the transformed range. -/
theorem value_mem_of_chain {a : α}
    (hpoint : single_point = true → IsSinglePoint r) (ha : r.Mem (.value a)) :
    r'.Mem (applyChain fs (.value a)) := by
  induction fs generalizing r a with
  | nil => rwa [chain_nil h]
  | cons f fs ih =>
    rw [applyMonotonicFunctionsChainToRange_cons, Option.bind_eq_some_iff] at h
    obtain ⟨r'', hf, hfs⟩ := h
    refine ih hfs ?_ (value_mem_step hf hpoint ha)
    intro hsp
    subst hsp
    exact isSinglePoint_step hf (hpoint rfl)

include h in
/-- **A NULL of the range** leaves an infinite end included. -/
theorem hasInfiniteEnd_of_chain (hnull : r.Mem .POSITIVE_INFINITY) : HasInfiniteEnd r' :=
  chain_induction HasInfiniteEnd (fun _ _ _ => hasInfiniteEnd_step) fs r r' h
    (.inl hnull)

/-- The range holds NULL, and the transformed one does not. -/
def NullLost (r : Range α) (fs : List (MonotonicFunction α)) (single_point : Bool) : Prop :=
  r.Mem .POSITIVE_INFINITY ∧ ∃ r', applyMonotonicFunctionsChainToRange r fs single_point = some r' ∧
    ¬ r'.Mem .POSITIVE_INFINITY

include h in
/-- A range that has lost its NULL is not a single point. -/
lemma ne_of_nullLost (hlost : NullLost r fs single_point) :
    r'.left.field ≠ r'.right.field := by
  obtain ⟨hnull, r'', hr'', hnot⟩ := hlost
  obtain rfl : r' = r'' := Option.some.inj (h.symm.trans hr'')
  rcases hasInfiniteEnd_of_chain h hnull with hmem | ⟨hl, -, hr⟩
  · exact absurd hmem hnot
  · rw [hl]
    exact Ne.symm hr

include h in
/-- Every field that a row can hold is mapped into the transformed range, but for a NULL that is
lost. -/
lemma mem_of_chain {x : Field α} (hpoint : single_point = true → IsSinglePoint r)
    (hlost : NullLost r fs single_point → x ≠ .POSITIVE_INFINITY)
    (hne : x ≠ .NEGATIVE_INFINITY) (hx : r.Mem x) : r'.Mem (applyChain fs x) := by
  cases x with
  | NEGATIVE_INFINITY => exact absurd rfl hne
  | value a => exact value_mem_of_chain h hpoint hx
  | POSITIVE_INFINITY =>
    rw [applyChain_posInf]
    by_contra hnot
    exact hlost ⟨hx, r', h, hnot⟩ rfl

end ClickHouse
