/-
`forAnyHyperrectangle` and `checkInRange`
(`src/Storages/MergeTree/KeyCondition.cpp`): the keys between two marks, taken
apart into hyperrectangles.

The keys of an index are sorted as tuples, so what lies between two of them is an
interval of the lexicographic order. The condition is evaluated on products of
ranges, one range per column, and the function takes the interval apart into such
products: the common beginning of both keys, the open interval of the first column
where they differ, and the two faces at its ends, each again an interval of tuples
with one bound less.

The source updates one hyperrectangle in place and hands it to a callback. Here the
hyperrectangle is passed along, and the list of what the callback has seen is
returned with the mask.

`boxes` is the decomposition as a list, with nothing passed along and no early exit.
`walks_forAnyHyperrectangle` connects the two: in a component the initial mask leaves
open, the mask is the disjunction over `boxes`, whatever stands in the columns to
come. `mem_boxes` says what the boxes cover. The order on tuples is the one of lists.
-/
import ClickHouse.Core.Range
import ClickHouse.Lib.LexInterval
import ClickHouse.MergeTree.BoolMask

set_option autoImplicit false

namespace ClickHouse

open List Range

variable {α : Type*} [LinearOrder α] [LooseField α]

/-- `Hyperrectangle`: a range for each column. -/
abbrev Hyperrectangle (α : Type*) : Type _ := List (Range α)

namespace Hyperrectangle

/-- A tuple, given by its columns, is in the hyperrectangle. -/
def Mem (h : Hyperrectangle α) (t : ℕ → Field α) : Prop :=
  ∀ (i : ℕ) (r : Range α), h[i]? = some r → r.Mem (t i)

omit [LooseField α] in
lemma mem_singleton_iff {r : Range α} {t : ℕ → Field α} :
    Mem [r] t ↔ r.Mem (t 0) := by
  constructor
  · intro h
    exact h 0 r rfl
  intro h i s hs
  cases i with
  | zero =>
    obtain rfl : r = s := by simpa using hs
    exact h
  | succ i => simp at hs

end Hyperrectangle

/-! ## The model -/

/-- What the caller and the callback see: the mask, the hyperrectangle as it is left
behind, and the ones the callback was called with. -/
structure WalkResult (α : Type*) where
  mask : BoolMask
  hyperrectangle : Hyperrectangle α
  visited : List (Hyperrectangle α)

section Model

variable (callback : Hyperrectangle α → BoolMask) (data_types : ℕ → DataType α)
  (left_keys right_keys : ℕ → FieldRef α)

def callOn (h : Hyperrectangle α) : WalkResult α := ⟨callback h, h, [h]⟩

/-- The range of the last column, with the ends included. -/
def edgeRange (left_bounded right_bounded : Bool) (p : ℕ) (included : Bool) : Range α :=
  if left_bounded && right_bounded then Range.bounded (left_keys p) included (right_keys p) included
  else if left_bounded then
    Range.createLeftBounded (left_keys p) included (data_types p).nullable
  else Range.createRightBounded (right_keys p) included (data_types p).nullable

/-- The hyperrectangle from column `p` on: the open interval there, and everything
in the columns behind. -/
def middleBox (h : Hyperrectangle α) (p n : ℕ) (range : Range α) : Hyperrectangle α :=
  h.take p ++ range :: (List.range' (p + 1) n).map
    (fun i => Range.wholeUniverse (data_types i).nullable)

/-- `forAnyHyperrectangle`, for `n = key_size - prefix_size` columns from `p = prefix_size` on.
An iteration of the loop over the matching elements is the call for the next column. -/
def forAnyHyperrectangle (initial_mask : BoolMask) :
    (n p : ℕ) → (left_bounded right_bounded : Bool) → Hyperrectangle α → WalkResult α
  | 0, _, _, _, h => callOn callback h
  | n + 1, p, left_bounded, right_bounded, h =>
    if !left_bounded && !right_bounded then callOn callback h
    else if left_bounded && right_bounded &&
        decide ((left_keys p).field = (right_keys p).field) then
      forAnyHyperrectangle initial_mask n (p + 1) left_bounded right_bounded
        (h.set p (Range.point (left_keys p)))
    else if n = 0 then
      callOn callback
        (h.set p (edgeRange data_types left_keys right_keys left_bounded right_bounded p true))
    else
      -- (x1 .. x2) × (-inf .. +inf)
      let h := middleBox data_types h p n
        (edgeRange data_types left_keys right_keys left_bounded right_bounded p false)
      let middle : WalkResult α := ⟨initial_mask.combine (callback h), h, [h]⟩
      if middle.mask.isComplete then middle
      else
        -- [x1] × [y1 .. +inf)
        let left : WalkResult α :=
          if left_bounded then
            let face := forAnyHyperrectangle initial_mask n (p + 1) true false
              (middle.hyperrectangle.set p (Range.point (left_keys p)))
            ⟨middle.mask.combine face.mask, face.hyperrectangle, middle.visited ++ face.visited⟩
          else middle
        if left.mask.isComplete then left
        -- [x2] × (-inf .. y2]
        else if right_bounded then
          let face := forAnyHyperrectangle initial_mask n (p + 1) false true
            (left.hyperrectangle.set p (Range.point (right_keys p)))
          ⟨left.mask.combine face.mask, face.hyperrectangle, left.visited ++ face.visited⟩
        else left

/-- `KeyCondition::checkInRange`, with the evaluation on one hyperrectangle as `callback`. -/
def checkInRange (used_key_size : ℕ) (initial_mask : BoolMask) : WalkResult α :=
  forAnyHyperrectangle callback data_types left_keys right_keys initial_mask used_key_size
    0 true true
    ((List.range used_key_size).map (fun i => Range.wholeUniverse (data_types i).nullable))

end Model

/-! ## The decomposition as a list -/

section Boxes

variable (data_types : ℕ → DataType α) (left_keys right_keys : ℕ → FieldRef α)

/-- The hyperrectangles of the columns from `p` on, all of them and each from the
same beginning. -/
def boxes : (n p : ℕ) → (left_bounded right_bounded : Bool) → Hyperrectangle α →
    List (Hyperrectangle α)
  | 0, _, _, _, h => [h]
  | n + 1, p, left_bounded, right_bounded, h =>
    -- all keys that begin so far as `h` says are between the two
    if !left_bounded && !right_bounded then [h]
    else if left_bounded && right_bounded &&
        decide ((left_keys p).field = (right_keys p).field) then
      boxes n (p + 1) left_bounded right_bounded (h.set p (Range.point (left_keys p)))
    else if n = 0 then
      [h.set p (edgeRange data_types left_keys right_keys left_bounded right_bounded p true)]
    else
      -- strictly between the two, and then with the left or the right one
      middleBox data_types h p n
          (edgeRange data_types left_keys right_keys left_bounded right_bounded p false) ::
        ((if left_bounded then boxes n (p + 1) true false (h.set p (Range.point (left_keys p)))
          else []) ++
        (if right_bounded then boxes n (p + 1) false true (h.set p (Range.point (right_keys p)))
          else []))

end Boxes

/-- Equal in the columns before `p`; the ones behind are still to be written. -/
def Agree (p : ℕ) (h h' : Hyperrectangle α) : Prop :=
  h.take p = h'.take p ∧ h.length = h'.length

namespace Agree

omit [LinearOrder α] [LooseField α]

lemma refl (p : ℕ) (h : Hyperrectangle α) : Agree p h h := ⟨rfl, rfl⟩

variable {p : ℕ}

lemma trans {h h' h'' : Hyperrectangle α} (a : Agree p h h') (b : Agree p h' h'') :
    Agree p h h'' :=
  ⟨a.1.trans b.1, a.2.trans b.2⟩

lemma set_right (p : ℕ) (h : Hyperrectangle α) (r : Range α) : Agree p (h.set p r) h :=
  ⟨by rw [take_set_of_le le_rfl], length_set⟩

variable {h h' : Hyperrectangle α}

/-- Column `p` written in both. -/
lemma set_succ (a : Agree p h h') (r : Range α) :
    Agree (p + 1) (h.set p r) (h'.set p r) := by
  refine ⟨?_, by rw [length_set, length_set, a.2]⟩
  apply ext_getElem?
  intro i
  have hi := congrArg (fun l => l[i]?) a.1
  simp only [getElem?_take, getElem?_set, a.2] at hi ⊢
  grind

lemma of_succ (a : Agree (p + 1) h h') : Agree p h h' := by
  refine ⟨?_, a.2⟩
  have := congrArg (take p) a.1
  rwa [take_take, take_take, min_eq_left (Nat.le_succ p)] at this

lemma eq_of_length (a : Agree p h h') (hlen : h.length = p) : h = h' := by
  have := a.1
  rwa [take_of_length_le hlen.le, take_of_length_le (a.2 ▸ hlen.le)] at this

end Agree

section Decomposition

variable {data_types : ℕ → DataType α} {left_keys right_keys : ℕ → FieldRef α}

lemma agree_middleBox {h : Hyperrectangle α} {p n : ℕ} (hlen : h.length = p + (n + 1))
    (range : Range α) : Agree p (middleBox data_types h p n range) h := by
  refine ⟨?_, ?_⟩
  · rw [middleBox, take_append_of_le_length (by simp; omega), take_take, min_self]
  · simp only [middleBox, length_append, length_take, length_cons, length_map, length_range']
    omega

variable {left_bounded right_bounded : Bool}

lemma not_unbounded
    (hb : (left_bounded || right_bounded) = true) : ¬ (!left_bounded && !right_bounded) = true := by
  cases left_bounded <;> cases right_bounded <;> simp_all

/-- The walk overwrites the columns from `p` on, so that only those before it matter. -/
lemma boxes_congr {n p : ℕ} {h h' : Hyperrectangle α}
    (hb : (left_bounded || right_bounded) = true) (hlen : h.length = p + n) (hag : Agree p h h') :
    boxes data_types left_keys right_keys n p left_bounded right_bounded h =
      boxes data_types left_keys right_keys n p left_bounded right_bounded h' := by
  induction n generalizing p left_bounded right_bounded h h' with
  | zero => rw [hag.eq_of_length hlen]
  | succ n ih =>
    -- with one column more fixed the two still agree before it
    have hstep : ∀ (lb rb : Bool) (x : FieldRef α), (lb || rb) = true →
        boxes data_types left_keys right_keys n (p + 1) lb rb (h.set p (point x)) =
          boxes data_types left_keys right_keys n (p + 1) lb rb (h'.set p (point x)) := by
      intro lb rb x hb'
      exact ih hb' (by rw [length_set]; omega) (hag.set_succ _)
    unfold boxes
    rw [if_neg (not_unbounded hb), if_neg (not_unbounded hb), hstep _ _ _ hb, hstep _ _ _ rfl,
      hstep _ _ _ rfl, middleBox, middleBox, hag.1]
    by_cases hn : n = 0
    · subst hn
      rw [(hag.set_succ _).eq_of_length (by rw [length_set]; omega)]
    · simp only [if_neg hn]

end Decomposition

/-! ## The walk sees the list -/

section Walk

variable {callback : Hyperrectangle α → BoolMask} {initial_mask : BoolMask}

/-- A walk from `h` on over the hyperrectangles `bs`: in a component the initial mask
leaves open, the mask is the disjunction over `bs`; the columns before `p` are kept;
and unless the mask is complete, all of `bs` has been visited. -/
structure Walks (callback : Hyperrectangle α → BoolMask) (initial_mask : BoolMask) (p : ℕ)
    (h : Hyperrectangle α) (bs : List (Hyperrectangle α)) (w : WalkResult α) : Prop where
  can_be_true : initial_mask.can_be_true = false →
    w.mask.can_be_true = bs.any (fun b => (callback b).can_be_true)
  can_be_false : initial_mask.can_be_false = false →
    w.mask.can_be_false = bs.any (fun b => (callback b).can_be_false)
  agree : Agree p w.hyperrectangle h
  visited : w.mask.isComplete = false → w.visited = bs

omit [LinearOrder α] [LooseField α]

variable {p : ℕ} {h h' b : Hyperrectangle α} {bs bs' : List (Hyperrectangle α)}
    {w w' : WalkResult α}

lemma walks_callOn (hag : Agree p b h) :
    Walks callback initial_mask p h [b] (callOn callback b) := by
  refine ⟨fun _ => ?_, fun _ => ?_, hag, fun _ => rfl⟩
  · simp [callOn]
  · simp [callOn]

lemma walks_middle (hag : Agree p b h) :
    Walks callback initial_mask p h [b] ⟨initial_mask.combine (callback b), b, [b]⟩ := by
  refine ⟨fun hm => ?_, fun hm => ?_, hag, fun _ => rfl⟩
  · simp [BoolMask.combine, hm]
  · simp [BoolMask.combine, hm]

lemma Walks.agree_succ {r : Range α} (hw : Walks callback initial_mask (p + 1) (h'.set p r) bs w)
    (hag : Agree p h' h) : Walks callback initial_mask p h bs w :=
  ⟨hw.can_be_true, hw.can_be_false, (hw.agree.of_succ.trans (Agree.set_right p h' r)).trans hag,
    hw.visited⟩

/-- A complete mask has found both values already: the walk may stop. -/
lemma Walks.stop (hw : Walks callback initial_mask p h bs w)
    (hc : w.mask.isComplete = true) (bs' : List (Hyperrectangle α)) :
    Walks callback initial_mask p h (bs ++ bs') w := by
  have hboth : w.mask.can_be_true = true ∧ w.mask.can_be_false = true := by
    simpa [BoolMask.isComplete] using hc
  refine ⟨fun hm => ?_, fun hm => ?_, hw.agree, fun h => absurd (hc.symm.trans h) (by decide)⟩
  · rw [any_append, ← hw.can_be_true hm, hboth.1, Bool.true_or]
  · rw [any_append, ← hw.can_be_false hm, hboth.2, Bool.true_or]

/-- One walk after the other. -/
lemma Walks.append (hw : Walks callback initial_mask p h bs w)
    (hw' : Walks callback initial_mask p h bs' w') :
    Walks callback initial_mask p h (bs ++ bs')
      ⟨w.mask.combine w'.mask, w'.hyperrectangle, w.visited ++ w'.visited⟩ := by
  refine ⟨fun hm => ?_, fun hm => ?_, hw'.agree, fun hnot => ?_⟩
  · rw [any_append, ← hw.can_be_true hm, ← hw'.can_be_true hm]
    rfl
  · rw [any_append, ← hw.can_be_false hm, ← hw'.can_be_false hm]
    rfl
  · have hc : w.mask.isComplete = false ∧ w'.mask.isComplete = false := by
      simp only [BoolMask.isComplete, BoolMask.combine, Bool.and_eq_false_iff,
        Bool.or_eq_false_iff] at hnot ⊢
      tauto
    rw [hw.visited hc.1, hw'.visited hc.2]

end Walk

/-- **`forAnyHyperrectangle` walks over `boxes`.** -/
theorem walks_forAnyHyperrectangle (callback : Hyperrectangle α → BoolMask)
    (data_types : ℕ → DataType α) (left_keys right_keys : ℕ → FieldRef α) (initial_mask : BoolMask)
    {n p : ℕ} {left_bounded right_bounded : Bool} {h : Hyperrectangle α}
    (hb : (left_bounded || right_bounded) = true) (hlen : h.length = p + n) :
    Walks callback initial_mask p h
      (boxes data_types left_keys right_keys n p left_bounded right_bounded h)
      (forAnyHyperrectangle callback data_types left_keys right_keys initial_mask n p left_bounded
        right_bounded h) := by
  induction n generalizing p left_bounded right_bounded h with
  | zero => exact walks_callOn (Agree.refl p h)
  | succ n ih =>
    unfold boxes forAnyHyperrectangle
    rw [if_neg (not_unbounded hb), if_neg (not_unbounded hb)]
    by_cases heq : (left_bounded && right_bounded &&
        decide ((left_keys p).field = (right_keys p).field)) = true
    · rw [if_pos heq, if_pos heq]
      exact (ih hb (by rw [length_set]; omega)).agree_succ (Agree.refl p h)
    rw [if_neg heq, if_neg heq]
    by_cases hn : n = 0
    · rw [if_pos hn, if_pos hn]
      exact walks_callOn (Agree.set_right p h _)
    rw [if_neg hn, if_neg hn]
    set mid := middleBox data_types h p n
      (edgeRange data_types left_keys right_keys left_bounded right_bounded p false) with hmid
    have hmidag : Agree p mid h := agree_middleBox hlen _
    have hwmid :
        Walks callback initial_mask p h [mid] ⟨initial_mask.combine (callback mid), mid, [mid]⟩ :=
      walks_middle hmidag
    -- a face is walked over the same boxes from wherever the columns behind were left
    have hface : ∀ (lb rb : Bool) (x : FieldRef α) (h' : Hyperrectangle α), (lb || rb) = true →
        Agree p h' h → Walks callback initial_mask p h
          (boxes data_types left_keys right_keys n (p + 1) lb rb (h.set p (point x)))
          (forAnyHyperrectangle callback data_types left_keys right_keys initial_mask n
            (p + 1) lb rb
            (h'.set p (point x))) := by
      intro lb rb x h' hb' hag
      have hlen' : (h'.set p (point x)).length = p + 1 + n := by
        rw [length_set, hag.2]
        omega
      rw [← boxes_congr hb' hlen' (hag.set_succ (point x))]
      exact (ih hb' hlen').agree_succ hag
    by_cases hc : (initial_mask.combine (callback mid)).isComplete = true
    · rw [if_pos hc]
      exact hwmid.stop hc _
    rw [if_neg hc]
    cases left_bounded with
    | false =>
      have hright : right_bounded = true := by simpa using hb
      subst hright
      simp only [Bool.false_eq_true, if_false, if_true, if_neg hc, nil_append]
      exact hwmid.append (hface false true (right_keys p) mid rfl hmidag)
    | true =>
      simp only [if_true]
      have hleft := hwmid.append (hface true false (left_keys p) mid rfl hmidag)
      set face :=
        forAnyHyperrectangle callback data_types left_keys right_keys initial_mask n (p + 1)
        true false (mid.set p (point (left_keys p)))
      by_cases hc' : ((initial_mask.combine (callback mid)).combine face.mask).isComplete = true
      · rw [if_pos hc']
        exact hleft.stop hc' _
      rw [if_neg hc']
      cases right_bounded with
      | false => simpa using hleft
      | true =>
        exact hleft.append (hface false true (right_keys p) _ rfl hleft.agree)

/-! ## What the boxes cover -/

/-- The tuple is in the hyperrectangle as far as the columns before `p` go. -/
def MemBefore (p : ℕ) (h : Hyperrectangle α) (t : ℕ → Field α) : Prop :=
  ∀ (i : ℕ) (r : Range α), i < p → h[i]? = some r → r.Mem (t i)

section Cover

open Lib

variable {data_types : ℕ → DataType α} {left_keys right_keys : ℕ → FieldRef α}
  {t : ℕ → Field α} {h : Hyperrectangle α} {p n : ℕ}

omit [LooseField α] in
lemma mem_iff_memBefore (hlen : h.length = p) : h.Mem t ↔ MemBefore p h t := by
  constructor
  · intro hm i r _ hr
    exact hm i r hr
  · intro hm i r hr
    obtain ⟨hi, -⟩ := List.getElem?_eq_some_iff.1 hr
    exact hm i r (hlen ▸ hi) hr

omit [LooseField α] in
lemma memBefore_set {r : Range α} (hp : p < h.length) :
    MemBefore (p + 1) (h.set p r) t ↔ MemBefore p h t ∧ r.Mem (t p) := by
  constructor
  · intro hm
    refine ⟨?_, ?_⟩
    · intro i s hi hs
      exact hm i s (by omega) (by rwa [getElem?_set_ne (by omega)])
    · exact hm p r (Nat.lt_succ_self p) (getElem?_set_self hp)
  · rintro ⟨hm, hr⟩ i s hi hs
    by_cases hip : i = p
    · subst hip
      rw [getElem?_set_self hp, Option.some.injEq] at hs
      rwa [← hs]
    · rw [getElem?_set_ne (Ne.symm hip)] at hs
      exact hm i s (by omega) hs

/-- The box between two keys: equal before the column, in the range at it, anything after it. -/
lemma mem_middleBox {r : Range α} (hlen : h.length = p + (n + 1))
    (ht : ∀ i, i < p + (n + 1) → (data_types i).Holds (t i)) :
    (middleBox data_types h p n r).Mem t ↔ MemBefore p h t ∧ r.Mem (t p) := by
  have htake : (h.take p).length = p := by
    rw [length_take]
    omega
  -- the box is `h` before the column, the range at it and the whole universe behind it
  have hat : (middleBox data_types h p n r)[p]? = some r := by
    rw [middleBox, getElem?_append_right htake.le, htake, Nat.sub_self, getElem?_cons_zero]
  have hbefore : ∀ i, i < p → (middleBox data_types h p n r)[i]? = h[i]? := by
    intro i hi
    rw [middleBox, getElem?_append_left (htake.symm ▸ hi), getElem?_take, if_pos hi]
  have hbehind : ∀ i s, p < i → (middleBox data_types h p n r)[i]? = some s →
      s = wholeUniverse (data_types i).nullable ∧ i < p + (n + 1) := by
    intro i s hi hs
    obtain ⟨j, rfl⟩ : ∃ j, i = p + 1 + j := ⟨i - (p + 1), by omega⟩
    rw [middleBox, getElem?_append_right (by omega), htake,
      show p + 1 + j - p = j + 1 by omega, getElem?_cons_succ, getElem?_map,
      Option.map_eq_some_iff] at hs
    obtain ⟨a, ha, rfl⟩ := hs
    obtain ⟨hj, ha⟩ := List.getElem?_eq_some_iff.1 ha
    rw [length_range'] at hj
    rw [getElem_range', one_mul] at ha
    exact ⟨by rw [← ha], by omega⟩
  constructor
  · intro hm
    refine ⟨?_, hm p r hat⟩
    intro i s hi hs
    exact hm i s (by rwa [hbefore i hi])
  · rintro ⟨hm, hr⟩ i s hs
    rcases lt_trichotomy i p with hi | rfl | hi
    · exact hm i s hi (by rwa [hbefore i hi] at hs)
    · rw [hat, Option.some.injEq] at hs
      rwa [← hs]
    · obtain ⟨rfl, hlt⟩ := hbehind i s hi hs
      exact mem_wholeUniverse _ (ht i hlt)

variable {left_bounded right_bounded : Bool}

section

variable (hb : (left_bounded || right_bounded) = true) (ht : (data_types p).Holds (t p))
  (hl : (data_types p).Bounds (left_keys p).field) (hr : (data_types p).Bounds (right_keys p).field)
include hb ht hl hr

lemma mem_edgeRange_closed :
    (edgeRange data_types left_keys right_keys left_bounded right_bounded p true).Mem (t p) ↔
      (left_bounded = true → (left_keys p).field ≤ t p) ∧
        (right_bounded = true → t p ≤ (right_keys p).field) := by
  cases left_bounded <;> cases right_bounded
  · exact absurd hb (by decide)
  · simp [edgeRange, mem_createRightBounded _ ht hr, le_iff_lt_or_eq]
  · simp [edgeRange, mem_createLeftBounded _ ht hl, le_iff_lt_or_eq, eq_comm]
  · simp [edgeRange, mem_bounded_iff _ ht hl hr]

lemma mem_edgeRange_open :
    (edgeRange data_types left_keys right_keys left_bounded right_bounded p false).Mem (t p) ↔
      (left_bounded = true → (left_keys p).field < t p) ∧
        (right_bounded = true → t p < (right_keys p).field) := by
  cases left_bounded <;> cases right_bounded
  · exact absurd hb (by decide)
  · simp [edgeRange, mem_createRightBounded _ ht hr]
  · simp [edgeRange, mem_createLeftBounded _ ht hl]
  · simp [edgeRange, mem_bounded_iff _ ht hl hr]

end

/-- **The boxes cover the interval**, column by column. -/
theorem mem_boxes (hb : (left_bounded || right_bounded) = true) (hlen : h.length = p + n)
    (ht : ∀ i, i < p + n → (data_types i).Holds (t i))
    (hl : ∀ i, i < p + n → (data_types i).Bounds (left_keys i).field)
    (hr : ∀ i, i < p + n → (data_types i).Bounds (right_keys i).field)
    (hle : left_bounded = true → right_bounded = true →
      tuple p n (fun i => (left_keys i).field) ≤ tuple p n (fun i => (right_keys i).field)) :
    (∃ b ∈ boxes data_types left_keys right_keys n p left_bounded right_bounded h, b.Mem t) ↔
      MemBefore p h t ∧ Between left_bounded right_bounded (fun i => (left_keys i).field)
        (fun i => (right_keys i).field) p n t := by
  induction n generalizing p left_bounded right_bounded h with
  | zero => simp [boxes, mem_iff_memBefore hlen, Between]
  | succ n ih =>
    have hp : p < p + (n + 1) := by omega
    -- a column fixed to a value leaves the boxes of the columns behind it
    have hface : ∀ (lb rb : Bool) (x : FieldRef α), (lb || rb) = true →
        (lb = true → rb = true → tuple (p + 1) n (fun i => (left_keys i).field) ≤
          tuple (p + 1) n (fun i => (right_keys i).field)) →
        ((∃ b ∈ boxes data_types left_keys right_keys n (p + 1) lb rb (h.set p (point x)),
            b.Mem t) ↔
          (MemBefore p h t ∧ t p = x.field) ∧ Between lb rb (fun i => (left_keys i).field)
            (fun i => (right_keys i).field) (p + 1) n t) := by
      intro lb rb x hb' hle'
      rw [ih hb' (by rw [length_set]; omega) (fun i hi => ht i (by omega))
        (fun i hi => hl i (by omega)) (fun i hi => hr i (by omega)) hle',
        memBefore_set (by omega), mem_point]
    unfold boxes
    rw [if_neg (not_unbounded hb)]
    by_cases heq : (left_bounded && right_bounded &&
        decide ((left_keys p).field = (right_keys p).field)) = true
    · -- the keys agree in this column
      rw [if_pos heq]
      simp only [Bool.and_eq_true, decide_eq_true_eq] at heq
      obtain ⟨⟨rfl, rfl⟩, heq⟩ := heq
      have hle' := hle rfl rfl
      rw [tuple_le_succ] at hle'
      have hrest := (hle'.resolve_left (not_lt_of_ge heq.ge)).2
      rw [hface true true (left_keys p) rfl (fun _ _ => hrest),
        between_succ_of_eq (fun i => (left_keys i).field) _ _ heq, and_assoc]
    rw [if_neg heq]
    -- the keys differ here for the first time, so the left one is smaller here
    have hlt : left_bounded = true → right_bounded = true →
        (left_keys p).field < (right_keys p).field := by
      intro h1 h2
      have hne : (left_keys p).field ≠ (right_keys p).field := by simpa [h1, h2] using heq
      have hle' := hle h1 h2
      rw [tuple_le_succ] at hle'
      exact hle'.resolve_right (fun h => hne h.1)
    by_cases hn : n = 0
    · -- the last column: one box, with both ends
      subst hn
      rw [if_pos rfl]
      simp only [mem_singleton, exists_eq_left]
      rw [mem_iff_memBefore (p := p + 1) (by rw [length_set]; exact hlen),
        memBefore_set (by omega), mem_edgeRange_closed hb (ht p hp) (hl p hp) (hr p hp)]
      simp only [Between, tuple_le_succ, tuple_zero, le_refl, and_true, ← le_iff_lt_or_eq]
    · -- the box strictly between the keys, and the faces on which one of them is reached
      rw [if_neg hn]
      simp only [mem_cons, mem_append, or_and_right, exists_or, exists_eq_left]
      rw [mem_middleBox hlen ht, mem_edgeRange_open hb (ht p hp) (hl p hp) (hr p hp),
        between_succ_of_lt (fun i => (left_keys i).field) _ _ hlt, and_or_left, and_or_left]
      refine or_congr Iff.rfl (or_congr ?_ ?_)
      · cases left_bounded with
        | false => simp
        | true =>
          simp only [if_true]
          rw [hface true false (left_keys p) rfl (by simp), and_assoc]
          simp
      · cases right_bounded with
        | false => simp
        | true =>
          simp only [if_true]
          rw [hface false true (right_keys p) rfl (by simp), and_assoc]
          simp

end Cover

/-! ## The interval between two marks -/

/-- The hyperrectangles `forAnyHyperrectangle` visits when the callback never completes
the mask. -/
def visitedHyperrectangles (data_types : ℕ → DataType α) (left_keys right_keys : ℕ → FieldRef α)
    (used_key_size : ℕ) : List (Hyperrectangle α) :=
  (checkInRange (fun _ => {}) data_types left_keys right_keys used_key_size {}).visited

lemma walks_checkInRange (callback : Hyperrectangle α → BoolMask) (data_types : ℕ → DataType α)
    (left_keys right_keys : ℕ → FieldRef α) (used_key_size : ℕ) (initial_mask : BoolMask) :
    Walks callback initial_mask 0
      ((range used_key_size).map (fun i => wholeUniverse (data_types i).nullable))
      (boxes data_types left_keys right_keys used_key_size 0 true true
        ((range used_key_size).map (fun i => wholeUniverse (data_types i).nullable)))
      (checkInRange callback data_types left_keys right_keys used_key_size initial_mask) :=
  walks_forAnyHyperrectangle callback data_types left_keys right_keys initial_mask rfl (by simp)

lemma visitedHyperrectangles_eq (data_types : ℕ → DataType α)
    (left_keys right_keys : ℕ → FieldRef α) (used_key_size : ℕ) :
    visitedHyperrectangles data_types left_keys right_keys used_key_size =
      boxes data_types left_keys right_keys used_key_size 0 true true
        ((range used_key_size).map (fun i => wholeUniverse (data_types i).nullable)) := by
  have hw := walks_checkInRange (fun _ => {}) data_types left_keys right_keys used_key_size {}
  apply hw.visited
  rw [BoolMask.isComplete, hw.can_be_true rfl]
  simp

/-- **The keys between two marks**: the hyperrectangles visited cover exactly the
tuples of the lexicographic interval, and in a component the initial mask leaves open
the mask is the one of all of them, early exit or not. -/
theorem checkInRange_eq_union (callback : Hyperrectangle α → BoolMask)
    (data_types : ℕ → DataType α) (left_keys right_keys : ℕ → FieldRef α) (used_key_size : ℕ)
    (initial_mask : BoolMask)
    (hl : ∀ i, i < used_key_size → (data_types i).Bounds (left_keys i).field)
    (hr : ∀ i, i < used_key_size → (data_types i).Bounds (right_keys i).field)
    (hle : Lib.tuple 0 used_key_size (fun i => (left_keys i).field) ≤
      Lib.tuple 0 used_key_size (fun i => (right_keys i).field)) :
    (∀ t : ℕ → Field α, (∀ i, i < used_key_size → (data_types i).Holds (t i)) →
      ((∃ h ∈ visitedHyperrectangles data_types left_keys right_keys used_key_size, h.Mem t) ↔
        Lib.tuple 0 used_key_size (fun i => (left_keys i).field) ≤ Lib.tuple 0 used_key_size t ∧
          Lib.tuple 0 used_key_size t ≤
            Lib.tuple 0 used_key_size (fun i => (right_keys i).field))) ∧
    (initial_mask.can_be_true = false →
      (checkInRange callback data_types left_keys right_keys used_key_size
          initial_mask).mask.can_be_true =
        (visitedHyperrectangles data_types left_keys right_keys used_key_size).any
          (fun h => (callback h).can_be_true)) ∧
    (initial_mask.can_be_false = false →
      (checkInRange callback data_types left_keys right_keys used_key_size
          initial_mask).mask.can_be_false =
        (visitedHyperrectangles data_types left_keys right_keys used_key_size).any
          (fun h => (callback h).can_be_false)) := by
  rw [visitedHyperrectangles_eq]
  have hw := walks_checkInRange callback data_types left_keys right_keys used_key_size initial_mask
  refine ⟨?_, hw.can_be_true, hw.can_be_false⟩
  intro t ht
  rw [mem_boxes rfl (by simp) (by simpa using ht) (by simpa using hl) (by simpa using hr)
    (fun _ _ => hle)]
  simp [MemBefore, Lib.Between]

/-- The keys `(1, 5)` and `(3, NULL)` of an `Int64` and a `Nullable(Int64)` column, and the row
`(1, NULL)` between them. -/
theorem checkInRange_eq_union_at_two_columns :
    (∃ h ∈ visitedHyperrectangles (fun i => DataType.int64 (i == 1))
        (fun i => ⟨if i = 0 then .value 1 else .value 5, true⟩)
        (fun i => ⟨if i = 0 then .value 3 else .POSITIVE_INFINITY, true⟩) 2,
      h.Mem (fun i => if i = 0 then .value 1 else .POSITIVE_INFINITY)) := by
  refine ((checkInRange_eq_union (fun _ => {}) (fun i => DataType.int64 (i == 1))
    (fun i => ⟨if i = 0 then .value 1 else .value 5, true⟩)
    (fun i => ⟨if i = 0 then .value 3 else .POSITIVE_INFINITY, true⟩) 2 {} ?_ ?_ ?_).1
    (fun i => if i = 0 then .value 1 else .POSITIVE_INFINITY) ?_).2 ⟨?_, ?_⟩
  · intro i hi
    interval_cases i <;> simp [DataType.Bounds, DataType.int64]
  · intro i hi
    interval_cases i <;> simp [DataType.Bounds, DataType.int64]
  · exact Lib.tuple_le_succ.2 (.inl (by simp))
  · intro i hi
    interval_cases i <;> simp [DataType.Holds, DataType.int64]
  · exact Lib.tuple_le_succ.2 (.inr ⟨rfl, Lib.tuple_le_succ.2 (.inl (by simp))⟩)
  · exact Lib.tuple_le_succ.2 (.inl (by simp))

end ClickHouse
