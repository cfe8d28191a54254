/-
`MergeTreeSetIndex` (`src/Interpreters/Set.{h,cpp}`): the set of `tuple IN (...)`
against the ranges of the key columns.

Some positions of the tuple are functions of key columns. The constructor keeps one
position per key column, projects the set on the positions kept and sorts it; the
check takes the transformed key ranges as one interval of tuples, from their left
corner to their right one, and looks for elements of the set in it.

A NULL in the set is `POSITIVE_INFINITY`, as in the key: `compareAt` is called with
`nan_direction_hint = 1`, which puts NULL last, and a NULL equals `+inf` in `compare`.

`checkCorners_can_be_true` and `checkCorners_can_be_false` say exactly what the check
answers, in terms of the corners. The two ways in which an answer can be wrong are
then conditions on the set, the mapping and the ranges. `CornersHit` fails to hold
where a decreasing function has turned the NULL of a range over (`NullLost`).
`PointDetermines` fails where two positions are functions of one key column:
`has_all_keys` is computed before one of them is dropped, and a match in the others
is then taken for a match of the tuple.
-/
import ClickHouse.Lib.SortedList
import ClickHouse.MergeTree.Hyperrectangle
import ClickHouse.MergeTree.MonotonicChain

set_option autoImplicit false

namespace ClickHouse

open Lib List Option

variable {α : Type*} [LinearOrder α]

/-- `KeyTuplePositionMapping`: a position of the tuple goes to a key column through functions. -/
structure KeyTuplePositionMapping (α : Type*) [LinearOrder α] where
  tuple_index : ℕ
  key_index : ℕ
  functions : List (MonotonicFunction α)

namespace KeyTuplePositionMapping

/-- `std::tie(l.key_index, l.tuple_index) <= std::tie(r.key_index, r.tuple_index)`. -/
def Le (l r : KeyTuplePositionMapping α) : Prop :=
  l.key_index < r.key_index ∨ l.key_index = r.key_index ∧ l.tuple_index ≤ r.tuple_index

instance decidableLe : DecidableRel (Le (α := α)) :=
  fun _ _ => inferInstanceAs (Decidable (_ ∨ _ ∧ _))

/-- `std::unique` by `key_index`, behind an element that is kept. -/
def uniqueAfter (last : KeyTuplePositionMapping α) :
    List (KeyTuplePositionMapping α) → List (KeyTuplePositionMapping α)
  | [] => []
  | m :: ms => if last.key_index = m.key_index then uniqueAfter last ms else m :: uniqueAfter m ms

/-- `std::unique` by `key_index`. -/
def unique : List (KeyTuplePositionMapping α) → List (KeyTuplePositionMapping α)
  | [] => []
  | m :: ms => m :: uniqueAfter m ms

/-- The mapping as the constructor leaves it: one position per key column, the first. -/
def retained (mapping : List (KeyTuplePositionMapping α)) : List (KeyTuplePositionMapping α) :=
  unique (mapping.insertionSort Le)

end KeyTuplePositionMapping

/-- The tuple at the positions of a mapping. -/
def project (mapping : List (KeyTuplePositionMapping α)) (row : List (Field α)) : List (Field α) :=
  mapping.map (fun m => row.getD m.tuple_index .POSITIVE_INFINITY)

/-- `MergeTreeSetIndex`: the tuples of the set, sorted, at the positions of the mapping. -/
structure MergeTreeSetIndex (α : Type*) [LinearOrder α] where
  has_all_keys : Bool
  ordered_set : List (List (Field α))
  indexes_mapping : List (KeyTuplePositionMapping α)

namespace MergeTreeSetIndex

/-- The constructor, for `size` columns with the given rows. -/
def create (size : ℕ) (set_elements : List (List (Field α)))
    (indexes_mapping : List (KeyTuplePositionMapping α)) : MergeTreeSetIndex α where
  has_all_keys := size == indexes_mapping.length
  ordered_set := (set_elements.map (project (KeyTuplePositionMapping.retained
    indexes_mapping))).insertionSort (· ≤ ·)
  indexes_mapping := KeyTuplePositionMapping.retained indexes_mapping

/-- The key ranges under the functions of the mapping, unless one of them is not monotonic. A
`key_index` past the end is undefined in the source; callers pass a range for every key column. -/
def transformedRanges (index : MergeTreeSetIndex α) (key_ranges : Hyperrectangle α)
    (single_point : Bool) : Option (List (Range α)) :=
  index.indexes_mapping.mapM (fun m =>
    applyMonotonicFunctionsChainToRange
      (key_ranges.getD m.key_index Range.createWholeUniverse) m.functions single_point)

/-- The answer from the two corners of the transformed ranges. -/
def checkCorners {β : Type*} [LinearOrder β] (ordered_set : List β) (has_all_keys : Bool)
    (left_point right_point : β) (left_included right_included : Bool) : BoolMask :=
  let left_lower := lowerBound ordered_set left_point
  let right_lower := lowerBound ordered_set right_point
  let one_element_range := decide (left_point = right_point)
  -- one point of the whole key: the set has it or not
  if one_element_range && has_all_keys then
    if !left_included || !right_included then ⟨false, true⟩
    else if ordered_set[left_lower]? = some left_point then ⟨true, false⟩
    else ⟨false, true⟩
  -- two elements at least lie between the corners
  else if left_lower + 1 < right_lower then ⟨true, true⟩
  else if left_lower + 1 = right_lower then
    if left_included || !decide (ordered_set[left_lower]? = some left_point) then ⟨true, true⟩
    else ⟨right_included && decide (ordered_set[right_lower]? = some right_point), true⟩
  else ⟨right_included && decide (ordered_set[right_lower]? = some right_point), true⟩

/-- `checkInRange`. A range that a function does not map monotonically decides nothing. -/
def checkInRange (index : MergeTreeSetIndex α) (key_ranges : Hyperrectangle α)
    (single_point : Bool) : BoolMask :=
  match index.transformedRanges key_ranges single_point with
  | none => ⟨true, true⟩
  | some ranges =>
    checkCorners index.ordered_set index.has_all_keys (ranges.map (fun r => r.left.field))
      (ranges.map (fun r => r.right.field)) (ranges.all (fun r => r.left_included))
      (ranges.all (fun r => r.right_included))

end MergeTreeSetIndex

/-! ## What the check answers -/

section Corners

variable {β : Type*} [LinearOrder β] {s : List β} {has_all_keys left_included right_included : Bool}
  {left_point right_point : β}

/-- The corners hit the set: an element from the left corner to before the right one,
other than an excluded left corner; or an included right corner itself; or two
elements from the left corner to before the right one. -/
def CornersHit (s : List β) (left_point right_point : β) (left_included right_included : Bool) :
    Prop :=
  (∃ w ∈ s, left_point ≤ w ∧ w < right_point ∧ (left_included = true ∨ w ≠ left_point)) ∨
  (right_included = true ∧ right_point ∈ s) ∨
  ∃ (i j : ℕ) (v w : β), i < j ∧ s[i]? = some v ∧ s[j]? = some w ∧ left_point ≤ v ∧ w < right_point

namespace MergeTreeSetIndex

variable (hs : s.Pairwise (· ≤ ·))

section

include hs

/-- **`can_be_false`** is missing for one point that is in the set, if all positions
are mapped. -/
theorem checkCorners_can_be_false :
    (checkCorners s has_all_keys left_point right_point left_included
        right_included).can_be_false = false ↔
      has_all_keys = true ∧ left_point = right_point ∧ left_included = true ∧
        right_included = true ∧ left_point ∈ s := by
  rw [← getElem?_lowerBound_iff hs, checkCorners]
  by_cases hone : left_point = right_point ∧ has_all_keys = true
  · obtain ⟨rfl, rfl⟩ := hone
    cases left_included <;> cases right_included <;> simp
    split <;> simp_all
  · rw [if_neg (by simpa using hone)]
    refine iff_of_false ?_ (fun h => hone ⟨h.2.1, h.1⟩)
    split_ifs <;> simp

/-- **`can_be_true`** for one point is membership. -/
theorem checkCorners_can_be_true_of_one (hone : left_point = right_point)
    (hall : has_all_keys = true) :
    (checkCorners s has_all_keys left_point right_point left_included
        right_included).can_be_true = true ↔
      left_included = true ∧ right_included = true ∧ left_point ∈ s := by
  rw [← getElem?_lowerBound_iff hs, checkCorners]
  rw [if_pos (by simp [hone, hall])]
  cases left_included <;> cases right_included <;> simp
  split <;> simp_all

/-- **`can_be_true`** otherwise is that the corners hit the set. -/
theorem checkCorners_can_be_true (hmany : left_point ≠ right_point ∨ has_all_keys = false) :
    (checkCorners s has_all_keys left_point right_point left_included
        right_included).can_be_true = true ↔
      CornersHit s left_point right_point left_included right_included := by
  -- the places between the two lower bounds are those of the elements from `left` to before `right`
  have hbetween : ∀ (i : ℕ) (w : β), s[i]? = some w → left_point ≤ w → w < right_point →
      lowerBound s left_point ≤ i ∧ i < lowerBound s right_point := by
    intro i w hi hl hr
    refine ⟨?_, (lt_lowerBound_iff hs hi).2 hr⟩
    by_contra hlt
    exact absurd ((lt_lowerBound_iff hs hi).1 (not_le.1 hlt)) (not_lt.2 hl)
  have hfound : ∀ (i : ℕ), lowerBound s left_point ≤ i → i < lowerBound s right_point →
      ∃ w, s[i]? = some w ∧ left_point ≤ w ∧ w < right_point := by
    intro i hl hr
    obtain ⟨w, hw⟩ := getElem?_of_lt_lowerBound hr
    refine ⟨w, hw, ?_, (lt_lowerBound_iff hs hw).1 hr⟩
    by_contra hlt
    exact absurd ((lt_lowerBound_iff hs hw).2 (not_le.1 hlt)) (not_lt.2 hl)
  rw [checkCorners, if_neg (by rcases hmany with h | h <;> simp [h])]
  by_cases htwo : lowerBound s left_point + 1 < lowerBound s right_point
  · -- two elements at least
    rw [if_pos htwo]
    refine iff_of_true rfl (.inr (.inr ?_))
    obtain ⟨v, hv, hlv, -⟩ := hfound _ le_rfl (by omega)
    obtain ⟨w, hw, -, hwr⟩ := hfound _ (Nat.le_succ _) htwo
    exact ⟨_, _, v, w, Nat.lt_succ_self _, hv, hw, hlv, hwr⟩
  rw [if_neg htwo]
  -- there are fewer than two elements between the corners
  have hnotwo : ¬ ∃ (i j : ℕ) (v w : β), i < j ∧ s[i]? = some v ∧ s[j]? = some w ∧
      left_point ≤ v ∧ w < right_point := by
    rintro ⟨i, j, v, w, hij, hi, hj, hl, hr⟩
    have hvw := getElem?_le_of_le hs hij.le hi hj
    have h1 := (hbetween i v hi hl (hvw.trans_lt hr)).1
    have h2 := (hbetween j w hj (hl.trans hvw) hr).2
    omega
  by_cases hone : lowerBound s left_point + 1 = lowerBound s right_point
  · -- one element, which may be the excluded left corner
    rw [if_pos hone]
    obtain ⟨v, hv, hlv, hvr⟩ := hfound _ le_rfl (show _ < _ by omega)
    by_cases hcase : left_included = true ∨ v ≠ left_point
    · rw [if_pos (by simpa [hv] using hcase)]
      exact iff_of_true rfl (.inl ⟨v, mem_of_getElem? hv, hlv, hvr, hcase⟩)
    rw [if_neg (by simpa [hv] using hcase)]
    simp only [Bool.and_eq_true, decide_eq_true_eq, getElem?_lowerBound_iff hs]
    constructor
    · intro h
      exact .inr (.inl h)
    rintro (⟨w, hw, hlw, hwr, hw'⟩ | h | h)
    · -- the only element there is the left corner, which is excluded
      obtain ⟨i, hi⟩ := mem_iff_getElem?.1 hw
      obtain ⟨h1, h2⟩ := hbetween i w hi hlw hwr
      obtain rfl : i = lowerBound s left_point := by omega
      obtain rfl : v = w := some.inj (hv.symm.trans hi)
      exact absurd hw' hcase
    · exact h
    · exact absurd h hnotwo
  · rw [if_neg hone]
    simp only [Bool.and_eq_true, decide_eq_true_eq, getElem?_lowerBound_iff hs]
    constructor
    · intro h
      exact .inr (.inl h)
    rintro (⟨w, hw, hlw, hwr, -⟩ | h | h)
    · -- no element lies there
      obtain ⟨i, hi⟩ := mem_iff_getElem?.1 hw
      obtain ⟨h1, h2⟩ := hbetween i w hi hlw hwr
      omega
    · exact h
    · exact absurd h hnotwo

end

end MergeTreeSetIndex

end Corners

/-! ## Corners of ranges -/

section

variable {ranges : List (Range α)} {vs : List (Field α)}
  (h : List.Forall₂ (fun r x => Range.Mem r x) ranges vs)
include h

/-- A tuple with every place in its range is between the corners, and at a corner only
if that is included. -/
lemma corners_of_mem :
    (ranges.map (fun r => r.left.field) ≤ vs ∧
      (vs = ranges.map (fun r => r.left.field) → ranges.all (fun r => r.left_included) = true)) ∧
    (vs ≤ ranges.map (fun r => r.right.field) ∧
      (vs = ranges.map (fun r => r.right.field) →
        ranges.all (fun r => r.right_included) = true)) := by
  refine ⟨⟨le_of_forall₂_le ?_, ?_⟩, le_of_forall₂_le ?_, ?_⟩
  · rw [forall₂_map_left_iff]
    exact h.imp (fun _ _ hm => (Range.aboveLeft_iff.1 hm.1).1)
  · intro heq
    induction h with
    | nil => rfl
    | cons hm _ ih =>
      rw [map_cons, cons.injEq] at heq
      rw [all_cons, (Range.aboveLeft_iff.1 hm.1).2 heq.1, ih heq.2, Bool.and_self]
  · rw [forall₂_map_right_iff]
    exact h.flip.imp (fun _ _ hm => (Range.belowRight_iff.1 hm.2).1)
  · intro heq
    induction h with
    | nil => rfl
    | cons hm _ ih =>
      rw [map_cons, cons.injEq] at heq
      rw [all_cons, (Range.belowRight_iff.1 hm.2).2 heq.1, ih heq.2, Bool.and_self]

lemma cornersHit_of_mem {s : List (List (Field α))} (hvs : vs ∈ s) :
    CornersHit s (ranges.map (fun r => r.left.field)) (ranges.map (fun r => r.right.field))
      (ranges.all (fun r => r.left_included)) (ranges.all (fun r => r.right_included)) := by
  obtain ⟨⟨hl, hli⟩, hr, hri⟩ := corners_of_mem h
  rcases hr.lt_or_eq with hlt | heq
  · refine .inl ⟨vs, hvs, hl, hlt, ?_⟩
    by_cases hcorner : vs = ranges.map (fun r => r.left.field)
    · exact .inl (hli hcorner)
    · exact .inr hcorner
  · exact .inr (.inl ⟨hri heq, heq ▸ hvs⟩)

end

/-! ## The set and its mapping -/

namespace KeyTuplePositionMapping

variable {ms : List (KeyTuplePositionMapping α)}

lemma mem_of_mem_uniqueAfter {last m : KeyTuplePositionMapping α}
    (h : m ∈ uniqueAfter last ms) : m ∈ ms := by
  induction ms generalizing last with
  | nil => exact h
  | cons a ms ih =>
    unfold uniqueAfter at h
    split at h
    · exact mem_cons_of_mem _ (ih h)
    · rcases mem_cons.1 h with rfl | h
      · exact mem_cons_self
      · exact mem_cons_of_mem _ (ih h)

variable {mapping : List (KeyTuplePositionMapping α)}

lemma mem_of_mem_retained {m : KeyTuplePositionMapping α}
    (h : m ∈ retained mapping) : m ∈ mapping := by
  rw [← (perm_insertionSort Le mapping).mem_iff]
  unfold retained at h
  cases hms : mapping.insertionSort Le with
  | nil => rw [hms] at h; exact h
  | cons a ms =>
    rw [hms] at h
    rcases mem_cons.1 h with rfl | h
    · exact mem_cons_self
    · exact mem_cons_of_mem _ (mem_of_mem_uniqueAfter h)

lemma uniqueAfter_eq_self {last : KeyTuplePositionMapping α}
    (h : ((last :: ms).map (fun m => m.key_index)).Nodup) : uniqueAfter last ms = ms := by
  induction ms generalizing last with
  | nil => rfl
  | cons a ms ih =>
    rw [map_cons, map_cons, nodup_cons] at h
    have hne : last.key_index ≠ a.key_index := fun heq => h.1 (by simp [heq])
    rw [uniqueAfter, if_neg hne, ih (by simpa using h.2)]

/-- Nothing is dropped when the key columns are distinct. -/
lemma retained_perm
    (h : (mapping.map (fun m => m.key_index)).Nodup) : (retained mapping).Perm mapping := by
  have hperm := perm_insertionSort Le mapping
  have hnodup := (hperm.map (fun m => m.key_index)).nodup_iff.2 h
  refine Perm.trans (Perm.of_eq ?_) hperm
  unfold retained
  cases hms : mapping.insertionSort Le with
  | nil => rfl
  | cons a ms =>
    rw [hms] at hnodup
    rw [unique, uniqueAfter_eq_self hnodup]

end KeyTuplePositionMapping

/-- A set of tuples with a mapping of positions to key columns. -/
structure InSet (α : Type*) [LinearOrder α] where
  size : ℕ
  elements : List (List (Field α))
  mapping : List (KeyTuplePositionMapping α)
  length_of_mem : ∀ row ∈ elements, row.length = size
  tuple_index_lt : ∀ m ∈ mapping, m.tuple_index < size
  tuple_index_nodup : (mapping.map (fun m => m.tuple_index)).Nodup

/-- What a row of the table can hold in its key columns. -/
def IsRow (t : ℕ → Field α) : Prop := ∀ i, t i ≠ .NEGATIVE_INFINITY

namespace InSet

open MergeTreeSetIndex

variable (s : InSet α) (key_ranges : Hyperrectangle α) (single_point : Bool)

def index : MergeTreeSetIndex α := MergeTreeSetIndex.create s.size s.elements s.mapping

/-- The tuple of a row with the key `t`: the mapped positions are functions of the key,
the others are free. -/
def Extends (u : List (Field α)) (t : ℕ → Field α) : Prop :=
  u.length = s.size ∧ ∀ m ∈ s.mapping,
    u.getD m.tuple_index .POSITIVE_INFINITY = applyChain m.functions (t m.key_index)

instance decidableMemElements (u : List (Field α)) : Decidable (u ∈ s.elements) := inferInstance

/-- The check allows for every row with its key in the ranges. -/
def Sound : Prop :=
  ∀ t u, IsRow t → key_ranges.Mem t → s.Extends u t →
    (s.index.checkInRange key_ranges single_point).Admits (decide (u ∈ s.elements))

/-- If a row can be in the set, the corners of the ranges hit the set. -/
def HitsWhereIn : Prop :=
  ∀ t u ranges, IsRow t → key_ranges.Mem t → s.Extends u t → u ∈ s.elements →
    s.index.transformedRanges key_ranges single_point = some ranges →
    CornersHit s.index.ordered_set (ranges.map (fun r => r.left.field))
      (ranges.map (fun r => r.right.field)) (ranges.all (fun r => r.left_included))
      (ranges.all (fun r => r.right_included))

/-- If every position is mapped and the ranges are one point that is in the projected
set, the tuple of every row there is in the set. -/
def PointDetermines : Prop :=
  ∀ t u ranges, IsRow t → key_ranges.Mem t → s.Extends u t →
    s.index.transformedRanges key_ranges single_point = some ranges →
    s.mapping.length = s.size →
    ranges.map (fun r => r.left.field) = ranges.map (fun r => r.right.field) →
    ranges.all (fun r => r.left_included) = true → ranges.all (fun r => r.right_included) = true →
    ranges.map (fun r => r.left.field) ∈ s.elements.map (project s.index.indexes_mapping) →
    u ∈ s.elements

/-- The positions are mapped to different key columns, if all of them are mapped; and where the
functions of a position lose the NULL of its key range, no tuple of the set has NULL there. -/
structure Safe : Prop where
  distinct : s.mapping.length = s.size → (s.mapping.map (fun m => m.key_index)).Nodup
  nulls : ∀ m ∈ s.mapping, NullLost (key_ranges.getD m.key_index Range.createWholeUniverse)
    m.functions single_point → ∀ row ∈ s.elements,
      row.getD m.tuple_index .POSITIVE_INFINITY ≠ .POSITIVE_INFINITY

variable {s key_ranges single_point}

lemma sorted_ordered_set : s.index.ordered_set.Pairwise (· ≤ ·) := pairwise_insertionSort _ _

lemma mem_ordered_set {w : List (Field α)} :
    w ∈ s.index.ordered_set ↔ w ∈ s.elements.map (project s.index.indexes_mapping) :=
  (perm_insertionSort (· ≤ ·) _).mem_iff

lemma project_of_extends {u : List (Field α)} {t : ℕ → Field α} (h : s.Extends u t) :
    project s.index.indexes_mapping u =
      s.index.indexes_mapping.map (fun m => applyChain m.functions (t m.key_index)) := by
  apply map_congr_left
  intro m hm
  exact h.2 m (KeyTuplePositionMapping.mem_of_mem_retained hm)

/-- Each transformed range comes from its mapping. -/
lemma forall₂_transformedRanges {index : MergeTreeSetIndex α} {ranges : List (Range α)}
    (h : index.transformedRanges key_ranges single_point = some ranges) :
    Forall₂ (fun m r => applyMonotonicFunctionsChainToRange
      (key_ranges.getD m.key_index Range.createWholeUniverse) m.functions single_point = some r)
      index.indexes_mapping ranges := by
  unfold transformedRanges at h
  generalize index.indexes_mapping = ms at h
  induction ms generalizing ranges with
  | nil =>
    obtain rfl : [] = ranges := by simpa using h
    exact List.Forall₂.nil
  | cons m ms ih =>
    rw [mapM_cons, bind_eq_bind, bind_eq_some_iff] at h
    obtain ⟨r, hr, h⟩ := h
    rw [bind_eq_bind, bind_eq_some_iff] at h
    obtain ⟨rs, hrs, h⟩ := h
    obtain rfl : r :: rs = ranges := by simpa using h
    exact List.Forall₂.cons hr (ih hrs)

section Checked

variable (hkey : ∀ m ∈ s.mapping, m.key_index < key_ranges.length)
  (hpoint : single_point = true → ∀ r ∈ key_ranges, IsSinglePoint r)
  {t : ℕ → Field α} {u : List (Field α)} {ranges : List (Range α)}

include hkey hpoint

section

variable (ht : IsRow t) (hmem : key_ranges.Mem t) (hu : s.Extends u t)
  (hranges : s.index.transformedRanges key_ranges single_point = some ranges)
include ht hmem hu hranges

/-- The tuple of a row is in the transformed ranges, place by place, except where a NULL
has been lost. -/
lemma forall₂_mem (hlost : Forall₂ (fun m _ => NullLost
      (key_ranges.getD m.key_index Range.createWholeUniverse) m.functions single_point →
        t m.key_index ≠ .POSITIVE_INFINITY) s.index.indexes_mapping ranges) :
    Forall₂ (fun r x => Range.Mem r x) ranges (project s.index.indexes_mapping u) := by
  rw [project_of_extends hu, forall₂_map_right_iff]
  have hsub : ∀ m ∈ s.index.indexes_mapping, m ∈ s.mapping :=
    fun m hm => KeyTuplePositionMapping.mem_of_mem_retained hm
  have hchain := forall₂_transformedRanges hranges
  clear hranges
  generalize s.index.indexes_mapping = ms at hsub hchain hlost
  induction hchain with
  | nil => exact List.Forall₂.nil
  | @cons m r ms rs hr _ ih =>
    obtain ⟨hm, hms⟩ := forall₂_cons.1 hlost
    refine List.Forall₂.cons ?_ (ih (fun m' hm' => hsub m' (mem_cons_of_mem _ hm')) hms)
    have hlt := hkey m (hsub m mem_cons_self)
    have hget : key_ranges[m.key_index]? =
        some (key_ranges.getD m.key_index Range.createWholeUniverse) := by
      rw [getD_eq_getElem?_getD, getElem?_eq_getElem hlt, getD_some]
    exact mem_of_chain hr (fun hsp => hpoint hsp _ (mem_of_getElem? hget)) hm (ht _) (hmem _ _ hget)

/-- A range that is one point has lost no NULL. -/
lemma forall₂_mem_of_onePoint
    (hone : ranges.map (fun r => r.left.field) = ranges.map (fun r => r.right.field)) :
    Forall₂ (fun r x => Range.Mem r x) ranges (project s.index.indexes_mapping u) := by
  apply forall₂_mem hkey hpoint ht hmem hu hranges
  have hchain := forall₂_transformedRanges hranges
  clear hranges
  generalize s.index.indexes_mapping = ms at hchain
  induction hchain with
  | nil => exact List.Forall₂.nil
  | cons hr _ ih =>
    rw [map_cons, map_cons, cons.injEq] at hone
    exact List.Forall₂.cons (fun hlost => absurd hone.1 (ne_of_nullLost hr hlost)) (ih hone.2)

end

/-- **The set index is sound in both directions** if the corners hit the set wherever a row is
in it, and a point of the projected set determines the tuple. -/
theorem sound_of_hits (hhits : s.HitsWhereIn key_ranges single_point)
    (hdet : s.PointDetermines key_ranges single_point) : s.Sound key_ranges single_point := by
  have hall : s.index.has_all_keys = true ↔ s.mapping.length = s.size := by
    rw [index, create, beq_iff_eq]
    exact eq_comm
  intro t u ht hmem hu
  cases hranges : s.index.transformedRanges key_ranges single_point with
  | none =>
    -- a range that the functions do not map: both answers are allowed for
    rw [MergeTreeSetIndex.checkInRange, hranges]
    exact BoolMask.admits_full _
  | some ranges =>
    by_cases hin : u ∈ s.elements
    · rw [decide_eq_true hin, BoolMask.admits_true, MergeTreeSetIndex.checkInRange, hranges]
      by_cases hone : ranges.map (fun r => r.left.field) = ranges.map (fun r => r.right.field) ∧
          s.index.has_all_keys = true
      · -- the tuple is the one point, and it is in the projected set
        have hplaces := forall₂_mem_of_onePoint hkey hpoint ht hmem hu hranges hone.1
        obtain ⟨⟨hl, hli⟩, hr, hri⟩ := corners_of_mem hplaces
        have heq : project s.index.indexes_mapping u = ranges.map (fun r => r.left.field) :=
          le_antisymm (hone.1 ▸ hr) hl
        refine (checkCorners_can_be_true_of_one sorted_ordered_set hone.1
          hone.2).2 ⟨hli heq, hri (heq.trans hone.1), ?_⟩
        rw [mem_ordered_set, ← heq]
        exact mem_map_of_mem hin
      · refine (checkCorners_can_be_true sorted_ordered_set ?_).2
          (hhits t u ranges ht hmem hu hin hranges)
        rwa [not_and_or, Bool.not_eq_true] at hone
    · rw [decide_eq_false hin, BoolMask.admits_false, MergeTreeSetIndex.checkInRange, hranges]
      by_contra hcannot
      rw [Bool.not_eq_true] at hcannot
      -- false is excluded only by a single point that is in the set
      obtain ⟨hkeys, hone, hli, hri, hfound⟩ :=
        (checkCorners_can_be_false sorted_ordered_set).1 hcannot
      exact hin (hdet t u ranges ht hmem hu hranges (hall.1 hkeys) hone hli hri
        (mem_ordered_set.1 hfound))

/-- A row that is in the set has lost no NULL, since its tuple would have it. -/
lemma hitsWhereIn_of_safe (hsafe : s.Safe key_ranges single_point) :
    s.HitsWhereIn key_ranges single_point := by
  intro t u ranges ht hmem hu hin hranges
  have hchain := forall₂_transformedRanges hranges
  have hlost : List.Forall₂ (fun m _ => NullLost
      (key_ranges.getD m.key_index Range.createWholeUniverse) m.functions single_point →
        t m.key_index ≠ .POSITIVE_INFINITY) s.index.indexes_mapping ranges := by
    rw [forall₂_iff_zip]
    refine ⟨hchain.length_eq, ?_⟩
    intro m r hmr hnull hkey_null
    have hm := KeyTuplePositionMapping.mem_of_mem_retained (of_mem_zip hmr).1
    have hplace := hu.2 m hm
    rw [hkey_null, applyChain_posInf] at hplace
    exact hsafe.nulls m hm hnull u hin hplace
  apply cornersHit_of_mem (forall₂_mem hkey hpoint ht hmem hu hranges hlost)
  rw [mem_ordered_set]
  exact mem_map_of_mem hin

/-- With distinct key columns and all positions mapped, the projection keeps the tuple. -/
lemma pointDetermines_of_safe (hsafe : s.Safe key_ranges single_point) :
    s.PointDetermines key_ranges single_point := by
  intro t u ranges ht hmem hu hranges hsize hone hli hri hfound
  have hdistinct := hsafe.distinct hsize
  have hplaces := forall₂_mem_of_onePoint hkey hpoint ht hmem hu hranges hone
  obtain ⟨⟨hl, -⟩, hr, -⟩ := corners_of_mem hplaces
  have hleft : project s.index.indexes_mapping u = ranges.map (fun r => r.left.field) :=
    le_antisymm (hone ▸ hr) hl
  obtain ⟨w, hw, hproj⟩ := mem_map.1 hfound
  rw [← hleft] at hproj
  -- every position is mapped, and none is dropped
  have hpositions : (s.mapping.map (fun m => m.tuple_index)).Perm (range s.size) := by
    refine (subperm_of_subset s.tuple_index_nodup ?_).perm_of_length_le (by simp [hsize])
    intro i hi
    obtain ⟨m, hm, rfl⟩ := mem_map.1 hi
    exact mem_range.2 (s.tuple_index_lt m hm)
  have hagree : ∀ i, i < s.size →
      w.getD i .POSITIVE_INFINITY = u.getD i .POSITIVE_INFINITY := by
    intro i hi
    obtain ⟨m, hm, rfl⟩ := mem_map.1 (hpositions.mem_iff.2 (mem_range.2 hi))
    have hret := (KeyTuplePositionMapping.retained_perm hdistinct).mem_iff.2 hm
    exact map_inj_left.1 hproj m hret
  have hlen := s.length_of_mem w hw
  have heq : u = w := by
    apply ext_getElem (by rw [hu.1, hlen])
    intro i hi hi'
    have := hagree i (hlen ▸ hi')
    rw [getD_eq_getElem?_getD, getD_eq_getElem?_getD, getElem?_eq_getElem hi,
      getElem?_eq_getElem hi'] at this
    simpa using this.symm
  rw [heq]
  exact hw

end Checked

/-- `(x, y) IN ((1, 2))`. -/
def pairOfTwoColumns : InSet ℤ where
  size := 2
  elements := [[.value 1, .value 2]]
  mapping := [⟨0, 0, []⟩, ⟨1, 1, []⟩]
  length_of_mem := by decide
  tuple_index_lt := by simp
  tuple_index_nodup := by simp

/-- `(x, x) IN ((1, 2))`. -/
def pairOfOneColumn : InSet ℤ where
  size := 2
  elements := [[.value 1, .value 2]]
  mapping := [⟨0, 0, []⟩, ⟨1, 0, []⟩]
  length_of_mem := by decide
  tuple_index_lt := by simp
  tuple_index_nodup := by simp

lemma pairOfOneColumn_extends :
    pairOfOneColumn.Extends [.value 1, .value 1] (fun _ => .value 1) :=
  ⟨rfl, by simp [pairOfOneColumn, applyChain]⟩

end InSet

end ClickHouse
