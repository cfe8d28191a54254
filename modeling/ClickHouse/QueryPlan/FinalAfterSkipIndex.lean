/-
`findPKRangesForFinalAfterSkipIndexImpl` (`src/Processors/QueryPlan/PartsSplitter.cpp`).

Skip indexes have selected some ranges of marks of every part and rejected the other marks.
With `FINAL` a rejected mark has to be read all the same if it may hold a row with the key
of a selected row, which would win over it. The function looks for the rejected marks whose
interval of keys meets the interval of a selected range, by one sweep over the two lists
sorted by their beginnings.

The sweep is shown to add every selected range, and exactly those rejected marks that meet
some selected range (`count_sweep`): the induction is on the sweep itself, and what it drops
without adding is apart from everything still to come, because both lists are sorted. That
the ranges of a part do not intersect in the end, so that the last `std::sort` does not
throw, follows from the same count.
-/
import ClickHouse.IO.Text
import ClickHouse.QueryPlan.PartsRanges

set_option autoImplicit false

namespace ClickHouse.PartsSplitter

open Lib List Function RangesInDataPartsBuilder
open PartsRangesIterator (sort sort_perm sort_sorted value_le_of_key_le)

/-! ## `std::sort` of the ranges of a part -/

/-- `is_intersection` in `MarkRange::operator<`. -/
def isIntersection (range rhs : MarkRange) : Bool :=
  range.begin ≤ rhs.begin && rhs.begin < range.end_ ||
    rhs.begin ≤ range.begin && range.begin < rhs.end_

/-- What `MarkRange::operator<` throws. -/
def intersectingMarkRanges (range rhs : MarkRange) : Exception :=
  ⟨.LOGICAL_ERROR, str "Intersecting mark ranges are not allowed, it is a bug! First range (" ++
      natText range.begin ++ str ", " ++ natText range.end_ ++ str "), second range (" ++
      natText rhs.begin ++ str ", " ++ natText rhs.end_ ++ str ")"⟩

/-- A pair of ranges that cannot be compared. -/
def findIntersection : MarkRanges → Option (MarkRange × MarkRange)
  | [] => none
  | range :: ranges =>
    match ranges.find? (isIntersection range) with
    | some rhs => some (range, rhs)
    | none => findIntersection ranges

/-- The result if no two of the ranges intersect. Otherwise a comparison of two that do
throws; the pair in the exception is one of them. -/
def sortRanges (ranges : MarkRanges) : Eval MarkRanges :=
  match findIntersection ranges with
  | some (range, rhs) => .error (.exception (intersectingMarkRanges range rhs))
  | none =>
    .ok (ranges.mergeSort fun range rhs => !(rhs.begin < range.begin && rhs.end_ ≤ range.begin))

/-! ## The function -/

variable {α : Type*}

/-- `skip_and_return_all_part_ranges`. -/
def allPartRanges (parts : RangesInDataParts α) : RangesInDataParts α :=
  parts.map fun part =>
    { part with ranges := [⟨0, part.data_part.index_granularity.last_mark⟩] }

variable (parts : RangesInDataParts α) (columns : ℕ)

/-- An entry of `selected_ranges` or of `rejected_ranges`. -/
def startOf (selected : Bool) (part_index : Fin parts.length) (range : MarkRange) :
    PartsRangesIterator parts columns false :=
  ⟨getValue parts columns part_index range.begin, range, part_index, .RangeStart, selected⟩

/-- Whether the keys at the ends of the ranges and of the single marks of a part are in the
index: if not so for some part, the function gives up. -/
def endsDefined (part : RangesInDataPart α) : Bool :=
  let index_granularity := part.data_part.index_granularity
  part.ranges.all (fun range => range.end_ < index_granularity.marks_count) &&
    (List.range index_granularity.last_mark).all fun range_begin =>
      range_begin + 1 < index_granularity.marks_count

/-- The ranges of a part that the skip index has left. -/
def selectedRanges (part_index : Fin parts.length) :
    List (PartsRangesIterator parts columns false) :=
  (parts.get part_index).ranges.map (startOf parts columns true part_index)

/-- The marks for which `is_selected_range` is not set. -/
def rejectedRanges (part_index : Fin parts.length) :
    List (PartsRangesIterator parts columns false) :=
  let part := parts.get part_index
  let marks := (List.range part.data_part.index_granularity.last_mark).filter fun mark =>
    part.ranges.all fun range => mark ∉ range
  marks.map fun range_begin =>
    startOf parts columns false part_index ⟨range_begin, range_begin + 1⟩

variable {parts columns} [LinearOrder α]

/-- The loop over the two sorted lists, and the selected ranges that remain after it. -/
def sweep (selected rejected : List (PartsRangesIterator parts columns false))
    (result : RangesInDataPartsBuilder parts) : RangesInDataPartsBuilder parts :=
  match selected, rejected with
  | [], _ => result
  | s :: selected, [] => sweep selected [] (addRange result s.part_index s.range)
  | s :: selected, r :: rejected =>
    let selected_range_end := getValue parts columns s.part_index s.range.end_
    let result1 := compareValues r.value s.value
    let result2 := compareValues r.value selected_range_end
    -- The rejected range begins in the selected one.
    if result1 = .eq ∨ result2 = .eq ∨ result1 = .gt ∧ result2 = .lt then
      sweep (s :: selected) rejected (addRange result r.part_index r.range)
    -- It begins behind the selected one, which is therefore done.
    else if result1 = .gt then
      sweep selected (r :: rejected) (addRange result s.part_index s.range)
    else
      -- It begins before the selected one, so that its end decides.
      let rejected_range_end := getValue parts columns r.part_index r.range.end_
      let result3 := compareValues rejected_range_end s.value
      let result4 := compareValues rejected_range_end selected_range_end
      if result3 = .eq ∨ result4 = .eq ∨ result3 = .gt ∧ result4 = .lt ∨
          result1 = .lt ∧ result4 = .gt then
        sweep (s :: selected) rejected (addRange result r.part_index r.range)
      else sweep (s :: selected) rejected result
termination_by selected.length + rejected.length

variable (parts columns)

/-- `selected_ranges` and `rejected_ranges` after `::sort`. -/
def selected_ranges : List (PartsRangesIterator parts columns false) :=
  PartsRangesIterator.sort ((List.finRange parts.length).flatMap (selectedRanges parts columns))

@[inherit_doc selected_ranges]
def rejected_ranges : List (PartsRangesIterator parts columns false) :=
  PartsRangesIterator.sort ((List.finRange parts.length).flatMap (rejectedRanges parts columns))

/-- `findPKRangesForFinalAfterSkipIndexImpl`. -/
def findPKRangesForFinalAfterSkipIndexImpl (cannot_sort_primary_key : Bool) :
    Eval (RangesInDataParts α) :=
  if cannot_sort_primary_key || !parts.all endsDefined then .ok (allPartRanges parts)
  else
    let columns := loadedColumns parts allColumns
    let result := sweep (selected_ranges parts columns) (rejected_ranges parts columns) []
    (sortByPartIndex (getCurrentRangesInDataParts result)).mapM fun part =>
      (sortRanges part.ranges).map fun ranges => { part with ranges := ranges }

/-! ## The tests of the sweep in terms of the order -/

variable {parts columns} {a b x : Values α columns false}

lemma inside_iff (hab : a ≤ b) :
    (compareValues x a = .eq ∨ compareValues x b = .eq ∨
      compareValues x a = .gt ∧ compareValues x b = .lt) ↔ a ≤ x ∧ x ≤ b := by
  simp only [compareValues_eq_eq, compareValues_eq_gt, compareValues_eq_lt]
  constructor
  · rintro (rfl | rfl | ⟨ha, hb⟩)
    · exact ⟨le_rfl, hab⟩
    · exact ⟨hab, le_rfl⟩
    · exact ⟨ha.le, hb.le⟩
  · rintro ⟨ha, hb⟩
    rcases ha.eq_or_lt with heq | ha
    · exact .inl heq.symm
    · rcases hb.eq_or_lt with heq | hb
      · exact .inr (.inl heq)
      · exact .inr (.inr ⟨ha, hb⟩)

lemma lt_of_not_inside (hin : ¬ (compareValues x a = .eq ∨ compareValues x b = .eq ∨
      compareValues x a = .gt ∧ compareValues x b = .lt))
    (hgt : ¬ compareValues x a = .gt) : x < a := by
  rw [compareValues_eq_gt, not_lt] at hgt
  exact lt_of_le_of_ne hgt fun heq => hin (.inl (compareValues_eq_eq.2 heq))

/-- The second test is made for a rejected range that begins before the selected one. -/
lemma reaches_iff {a b x y : Values α columns false} (hab : a ≤ b) (hy : y < a) :
    (compareValues x a = .eq ∨ compareValues x b = .eq ∨
      compareValues x a = .gt ∧ compareValues x b = .lt ∨
        compareValues y a = .lt ∧ compareValues x b = .gt) ↔ a ≤ x := by
  have hregroup : ∀ p q r s : Prop, (p ∨ q ∨ r ∨ s) ↔ (p ∨ q ∨ r) ∨ s := by tauto
  rw [hregroup, inside_iff hab, compareValues_eq_lt, compareValues_eq_gt]
  constructor
  · rintro (hin | ⟨-, hlt⟩)
    · exact hin.1
    · exact hab.trans hlt.le
  · intro hax
    rcases le_or_gt x b with hxb | hbx
    · exact .inl ⟨hax, hxb⟩
    · exact .inr ⟨hy, hbx⟩

/-! ## One sweep -/

/-- An entry is a range that is not empty and whose key at the end is in the index. -/
structure Spans (e : PartsRangesIterator parts columns false) : Prop where
  nonempty : e.range.begin < e.range.end_
  value_le : e.value ≤ getValue parts columns e.part_index e.range.end_

/-- The closed intervals of keys of two entries have a key in common. -/
def Meets (s r : PartsRangesIterator parts columns false) : Prop :=
  s.value ≤ getValue parts columns r.part_index r.range.end_ ∧
    r.value ≤ getValue parts columns s.part_index s.range.end_

instance decidableMeets (s r : PartsRangesIterator parts columns false) : Decidable (Meets s r) :=
  inferInstanceAs (Decidable (_ ∧ _))

/-- The range meets one of the selected ones. -/
def MeetsAny (selected : List (PartsRangesIterator parts columns false))
    (r : PartsRangesIterator parts columns false) : Prop := ∃ s ∈ selected, Meets s r

instance decidableMeetsAny (selected : List (PartsRangesIterator parts columns false))
    (r : PartsRangesIterator parts columns false) : Decidable (MeetsAny selected r) :=
  inferInstanceAs (Decidable (∃ s ∈ selected, Meets s r))

/-- How many of the entries are for a mark. -/
def covering (its : List (PartsRangesIterator parts columns false)) (i : Fin parts.length)
    (mark : ℕ) : ℕ :=
  its.countP fun it => it.part_index = i ∧ mark ∈ it.range

omit [LinearOrder α] in
lemma covering_cons (e : PartsRangesIterator parts columns false)
    (its : List (PartsRangesIterator parts columns false)) (i : Fin parts.length) (mark : ℕ) :
    covering (e :: its) i mark =
      covering its i mark + if e.part_index = i ∧ mark ∈ e.range then 1 else 0 := by
  rw [covering, countP_cons, covering]
  simp only [decide_eq_true_eq]

variable {selected rejected : List (PartsRangesIterator parts columns false)}
  {r e : PartsRangesIterator parts columns false}

lemma covering_filter_of_meets (h : MeetsAny selected r) (i : Fin parts.length) (mark : ℕ) :
    covering ((r :: rejected).filter fun r' => MeetsAny selected r') i mark =
      covering (rejected.filter fun r' => MeetsAny selected r') i mark +
        if r.part_index = i ∧ mark ∈ r.range then 1 else 0 := by
  rw [filter_cons, if_pos (decide_eq_true h), covering_cons]

lemma count_add {builder : RangesInDataPartsBuilder parts} (hv : builder.Valid) (he : Spans e)
    (i : Fin parts.length) (mark : ℕ) :
    (addRange builder e.part_index e.range).count i mark =
      builder.count i mark + if e.part_index = i ∧ mark ∈ e.range then 1 else 0 :=
  count_addRange hv he.nonempty e.part_index i mark

lemma first_le (h : (r :: rejected).Pairwise fun a b => a.value ≤ b.value) :
    ∀ r' ∈ r :: rejected, r.value ≤ r'.value :=
  forall_mem_cons.2 ⟨le_rfl, fun _ => rel_of_pairwise_cons h⟩

/-- **The sweep adds the selected ranges, and of the rejected ones those that meet one.** -/
theorem count_sweep (hs : ∀ s ∈ selected, Spans s) (hr : ∀ r ∈ rejected, Spans r)
    (hsorted : selected.Pairwise fun a b => a.value ≤ b.value)
    (hsorted' : rejected.Pairwise fun a b => a.value ≤ b.value)
    {result : RangesInDataPartsBuilder parts} (hv : result.Valid) :
    (sweep selected rejected result).Valid ∧ ∀ i mark,
      (sweep selected rejected result).count i mark =
        result.count i mark + covering selected i mark +
          covering (rejected.filter fun r => MeetsAny selected r) i mark := by
  fun_induction sweep selected rejected result with
  | case1 rejected result =>
    refine ⟨hv, fun i mark => ?_⟩
    simp [covering, MeetsAny]
  | case2 result s selected ih =>
    rw [forall_mem_cons] at hs
    obtain ⟨hvalid, hcount⟩ := ih hs.2 hr hsorted.of_cons hsorted' (hv.addRange hs.1.nonempty _)
    refine ⟨hvalid, fun i mark => ?_⟩
    rw [hcount, count_add hv hs.1, covering_cons]
    simp only [filter_nil]
    omega
  | case3 result s selected r rejected selected_end result1 result2 hin ih =>
    rw [forall_mem_cons] at hr
    -- The rejected range begins inside the selected one.
    have hbegin := (inside_iff (hs s mem_cons_self).value_le).1 hin
    have hmeets : MeetsAny (s :: selected) r :=
      ⟨s, mem_cons_self, hbegin.1.trans hr.1.value_le, hbegin.2⟩
    obtain ⟨hvalid, hcount⟩ := ih hs hr.2 hsorted hsorted'.of_cons (hv.addRange hr.1.nonempty _)
    refine ⟨hvalid, fun i mark => ?_⟩
    rw [hcount, count_add hv hr.1, covering_filter_of_meets hmeets]
    omega
  | case4 result s selected r rejected selected_end result1 result2 hin hgt ih =>
    rw [forall_mem_cons] at hs
    have hbeyond : selected_end < r.value := by
      rw [inside_iff hs.1.value_le, not_and, not_le] at hin
      exact hin (compareValues_eq_gt.1 hgt).le
    -- So do the rejected ranges that follow, and the selected one is done with.
    have hapart : ∀ r' ∈ r :: rejected, ¬ Meets s r' := by
      intro r' hr' hmeets
      exact absurd (hbeyond.trans_le (first_le hsorted' r' hr')) hmeets.2.not_gt
    have hfilter : (r :: rejected).filter (fun r' => MeetsAny (s :: selected) r') =
        (r :: rejected).filter fun r' => MeetsAny selected r' := by
      refine filter_congr fun r' hr' => decide_eq_decide.2 ?_
      simp only [MeetsAny, exists_mem_cons_iff, hapart r' hr', false_or]
    obtain ⟨hvalid, hcount⟩ := ih hs.2 hr hsorted.of_cons hsorted' (hv.addRange hs.1.nonempty _)
    refine ⟨hvalid, fun i mark => ?_⟩
    rw [hcount, count_add hv hs.1, covering_cons s, hfilter]
    omega
  | case5 result s selected r rejected selected_end result1 result2 hin hgt rejected_end result3
      result4 hreach ih =>
    rw [forall_mem_cons] at hr
    have hbefore := lt_of_not_inside hin hgt
    have hend := (reaches_iff (hs s mem_cons_self).value_le hbefore).1 hreach
    have hmeets : MeetsAny (s :: selected) r :=
      ⟨s, mem_cons_self, hend, hbefore.le.trans (hs s mem_cons_self).value_le⟩
    obtain ⟨hvalid, hcount⟩ := ih hs hr.2 hsorted hsorted'.of_cons (hv.addRange hr.1.nonempty _)
    refine ⟨hvalid, fun i mark => ?_⟩
    rw [hcount, count_add hv hr.1, covering_filter_of_meets hmeets]
    omega
  | case6 result s selected r rejected selected_end result1 result2 hin hgt rejected_end result3
      result4 hreach ih =>
    rw [forall_mem_cons] at hr
    have hbefore := lt_of_not_inside hin hgt
    rw [reaches_iff (hs s mem_cons_self).value_le hbefore, not_le] at hreach
    -- The rejected range ends before the selected one, and before all that follow it.
    have hapart : ¬ MeetsAny (s :: selected) r := by
      rintro ⟨s', hs', hmeets⟩
      exact absurd (hreach.trans_le (first_le hsorted s' hs')) hmeets.1.not_gt
    obtain ⟨hvalid, hcount⟩ := ih hs hr.2 hsorted hsorted'.of_cons hv
    refine ⟨hvalid, fun i mark => ?_⟩
    rw [hcount, filter_cons_of_neg (by simpa using hapart)]

/-! ## The two lists -/

section Lists

variable (h : WellFormed parts) (hends : parts.all endsDefined = true) (i : Fin parts.length)

omit [LinearOrder α] in
include hends in
lemma end_lt_marks_count :
    (∀ r ∈ (parts.get i).ranges, r.end_ < (parts.get i).data_part.index_granularity.marks_count) ∧
      ∀ m < (parts.get i).data_part.index_granularity.last_mark,
        m + 1 < (parts.get i).data_part.index_granularity.marks_count := by
  have hpart := all_eq_true.1 hends _ (get_mem parts i)
  simpa [endsDefined] using hpart

lemma mem_single_iff {m mark : ℕ} : mark ∈ (⟨m, m + 1⟩ : MarkRange) ↔ m = mark := by
  exact ⟨fun hm => le_antisymm hm.1 (Nat.le_of_lt_succ hm.2),
    fun hm => ⟨hm.le, Nat.lt_succ_of_le hm.ge⟩⟩

variable (mark : ℕ)

omit [LinearOrder α] in
lemma covering_selected :
    covering ((finRange parts.length).flatMap (selectedRanges parts columns)) i mark =
      countMark (parts.get i).ranges mark := by
  rw [covering, countP_flatMap_finRange _ _ i]
  · rw [selectedRanges, countP_map, countMark]
    refine countP_congr fun r _ => ?_
    rw [comp_apply, decide_eq_true_iff, decide_eq_true_iff]
    exact and_iff_right rfl
  · intro j hj x hx
    obtain ⟨r, -, rfl⟩ := mem_map.1 hx
    exact decide_eq_false fun hx => hj hx.1

omit [LinearOrder α] in
lemma countMark_eq_zero_iff {ranges : MarkRanges} {mark : ℕ} :
    countMark ranges mark = 0 ↔ ranges.all (fun range => mark ∉ range) = true := by
  rw [countMark, countP_eq_zero, all_eq_true]
  simp

omit [LinearOrder α] in
/-- A mark is rejected once if no range of its part has it, and otherwise not at all. -/
lemma covering_rejected :
    covering ((finRange parts.length).flatMap (rejectedRanges parts columns)) i mark =
      if mark < (parts.get i).data_part.index_granularity.last_mark ∧
        countMark (parts.get i).ranges mark = 0 then 1 else 0 := by
  rw [covering, countP_flatMap_finRange _ _ i]
  · have hcount : ∀ marks : List ℕ,
        (marks.map fun m => startOf parts columns false i ⟨m, m + 1⟩).countP
          (fun it => it.part_index = i ∧ mark ∈ it.range) = marks.count mark := by
      intro marks
      rw [countP_map, List.count]
      refine countP_congr fun m _ => ?_
      rw [comp_apply, decide_eq_true_iff, beq_iff_eq]
      exact (and_iff_right rfl).trans mem_single_iff
    -- The marks `0, …, last_mark - 1` are different, so each of them is rejected once at most.
    rw [rejectedRanges, hcount, (nodup_range.filter _).count]
    simp only [mem_filter, mem_range, countMark_eq_zero_iff]
  · intro j hj x hx
    obtain ⟨m, -, rfl⟩ := mem_map.1 hx
    exact decide_eq_false fun hx => hj hx.1

include h hends in
lemma spans_selected (hidx : Indexed parts columns false) :
    ∀ e ∈ (finRange parts.length).flatMap (selectedRanges parts columns), Spans e := by
  intro e he
  obtain ⟨i, -, he⟩ := mem_flatMap.1 he
  obtain ⟨r, hr, rfl⟩ := mem_map.1 he
  have hne := h.nonempty _ (get_mem parts i) r hr
  exact ⟨hne, hidx.getValue_mono i hne.le ((end_lt_marks_count hends i).1 r hr)⟩

include hends in
lemma spans_rejected (hidx : Indexed parts columns false) :
    ∀ e ∈ (finRange parts.length).flatMap (rejectedRanges parts columns), Spans e := by
  intro e he
  obtain ⟨i, -, he⟩ := mem_flatMap.1 he
  obtain ⟨m, hm, rfl⟩ := mem_map.1 he
  have hlast := mem_range.1 (mem_filter.1 hm).1
  exact ⟨Nat.lt_succ_self m,
    hidx.getValue_mono i (Nat.le_succ m) ((end_lt_marks_count hends i).2 m hlast)⟩

omit [LinearOrder α] in
include h in
/-- Together the two lists have no mark twice. -/
lemma covering_le_one :
    covering ((finRange parts.length).flatMap (selectedRanges parts columns)) i mark +
      covering ((finRange parts.length).flatMap (rejectedRanges parts columns)) i mark ≤ 1 := by
  have hle := countMark_le_one (h.disjoint _ (get_mem parts i)) mark
  rw [covering_selected, covering_rejected]
  split_ifs <;> omega

end Lists

/-! ## The result -/

/-- Disjoint ranges are sorted without a complaint. -/
lemma sortRanges_of_disjoint {ranges : MarkRanges} (hne : ∀ r ∈ ranges, r.begin < r.end_)
    (h : ranges.Pairwise fun r r' => r.end_ ≤ r'.begin ∨ r'.end_ ≤ r.begin) :
    ∃ sorted, sortRanges ranges = .ok sorted ∧ sorted.Perm ranges := by
  -- Ranges that are disjoint pass the check for intersections.
  have hnone : findIntersection ranges = none := by
    induction ranges with
    | nil => rfl
    | cons range ranges ih =>
      rw [pairwise_cons] at h
      rw [forall_mem_cons] at hne
      have hfind : ranges.find? (isIntersection range) = none := by
        rw [find?_eq_none]
        intro r hr
        have hr' := hne.2 r hr
        simp only [isIntersection, Bool.or_eq_true, Bool.and_eq_true, decide_eq_true_eq]
        rcases h.1 r hr with hle | hle <;> omega
      rw [findIntersection, hfind]
      exact ih hne.2 h.2
  rw [sortRanges, hnone]
  exact ⟨_, rfl, mergeSort_perm _ _⟩

omit [LinearOrder α] in
/-- `std::sort` of the ranges of every part of an output. -/
lemma mapM_sortRanges {out : RangesInDataParts α}
    (hne : ∀ p ∈ out, ∀ r ∈ p.ranges, r.begin < r.end_)
    (h : ∀ p ∈ out, p.ranges.Pairwise fun r r' => r.end_ ≤ r'.begin ∨ r'.end_ ≤ r.begin) :
    ∃ out', (out.mapM fun part =>
        (sortRanges part.ranges).map fun ranges => { part with ranges := ranges }) = .ok out' ∧
      ∀ q mark, timesRead out' q mark = timesRead out q mark := by
  induction out with
  | nil => exact ⟨[], rfl, fun _ _ => rfl⟩
  | cons part out ih =>
    rw [forall_mem_cons] at hne h
    obtain ⟨ranges, hranges, hperm⟩ := sortRanges_of_disjoint hne.1 h.1
    obtain ⟨out', hout', hread⟩ := ih hne.2 h.2
    refine ⟨{ part with ranges := ranges } :: out', ?_, fun q mark => ?_⟩
    · rw [mapM_cons, hranges, hout']
      rfl
    · have hcount : countMark ranges mark = countMark part.ranges mark := hperm.countP_eq _
      have hrest := hread q mark
      rw [timesRead] at hrest ⊢
      rw [timesRead, map_cons, sum_cons, map_cons, sum_cons, hrest, hcount]
      rfl

variable {mark : ℕ}

omit [LinearOrder α] in
lemma timesRead_allPartRanges (i : Fin parts.length)
    (hmark : mark < (parts.get i).data_part.index_granularity.last_mark) :
    0 < timesRead (allPartRanges parts) (parts.get i).part_index_in_query mark := by
  rw [timesRead, allPartRanges, map_map, List.sum_pos_iff_exists_pos_nat]
  refine ⟨_, mem_map_of_mem (get_mem parts i), ?_⟩
  rw [comp_apply, if_pos rfl, countMark_pos_iff]
  exact ⟨_, mem_singleton_self _, Nat.zero_le mark, hmark⟩

section

variable (h : WellFormed parts) (hends : parts.all endsDefined = true)
include h hends

/-- The builder after the sweep: every selected mark once, and a rejected one if it meets a
selected range. -/
lemma count_result (hidx : Indexed parts columns false) :
    (sweep (selected_ranges parts columns) (rejected_ranges parts columns) []).Valid ∧ ∀ i mark,
      (sweep (selected_ranges parts columns) (rejected_ranges parts columns) []).count i mark =
        countMark (parts.get i).ranges mark +
          covering ((rejected_ranges parts columns).filter fun r =>
            MeetsAny (selected_ranges parts columns) r) i mark := by
  have hsorted : ∀ its : List (PartsRangesIterator parts columns false),
      (sort its).Pairwise fun a b => a.value ≤ b.value := fun its =>
    (sort_sorted its).imp value_le_of_key_le
  -- Sorting changes no counts.
  have hselected : (selected_ranges parts columns).Perm _ := sort_perm _
  have hrejected : (rejected_ranges parts columns).Perm _ := sort_perm _
  obtain ⟨hvalid, hcount⟩ := count_sweep
    (fun s hs => spans_selected h hends hidx s (hselected.mem_iff.1 hs))
    (fun r hr => spans_rejected hends hidx r (hrejected.mem_iff.1 hr))
    (hsorted _) (hsorted _) valid_nil
  refine ⟨hvalid, fun i mark => ?_⟩
  have hcovering : covering (selected_ranges parts columns) i mark =
      countMark (parts.get i).ranges mark :=
    (hselected.countP_eq _).trans (covering_selected i mark)
  rw [hcount, count_nil, zero_add, hcovering]

lemma count_result_le_one (hidx : Indexed parts columns false) (i : Fin parts.length) (mark : ℕ) :
    (sweep (selected_ranges parts columns) (rejected_ranges parts columns) []).count i mark ≤
      1 := by
  have hfilter : covering ((rejected_ranges parts columns).filter fun r =>
      MeetsAny (selected_ranges parts columns) r) i mark ≤
        covering (rejected_ranges parts columns) i mark := filter_sublist.countP_le
  have hrejected : covering (rejected_ranges parts columns) i mark = _ := (sort_perm _).countP_eq _
  have hle := @covering_le_one _ _ columns h i mark
  rw [covering_selected] at hle
  rw [(count_result h hends hidx).2]
  exact (Nat.add_le_add_left (hfilter.trans hrejected.le) _).trans hle

/-- How often the function reads a mark when it does sweep. -/
lemma timesRead_of_sweep (hidx : Indexed parts (loadedColumns parts allColumns) false) :
    ∃ out, findPKRangesForFinalAfterSkipIndexImpl parts false = .ok out ∧ ∀ i mark,
      timesRead out (parts.get i).part_index_in_query mark =
        countMark (parts.get i).ranges mark +
          covering ((rejected_ranges parts (loadedColumns parts allColumns)).filter fun r =>
            MeetsAny (selected_ranges parts (loadedColumns parts allColumns)) r) i mark := by
  obtain ⟨hvalid, hcount⟩ := count_result h hends hidx
  have hone := count_result_le_one h hends hidx
  rw [findPKRangesForFinalAfterSkipIndexImpl, hends]
  simp only [Bool.not_true, Bool.or_self, Bool.false_eq_true, if_false]
  generalize sweep (selected_ranges parts (loadedColumns parts allColumns))
    (rejected_ranges parts (loadedColumns parts allColumns)) [] = result at hvalid hcount hone ⊢
  have hne : ∀ p ∈ sortByPartIndex (getCurrentRangesInDataParts result),
      ∀ r ∈ p.ranges, r.begin < r.end_ := by
    intro p hp
    obtain ⟨entry, hentry, rfl⟩ := mem_sortByPartIndex_iff.1 hp
    exact hvalid.nonempty entry hentry
  -- No mark is counted twice, so the ranges of a part are disjoint.
  have hdisjoint : ∀ p ∈ sortByPartIndex (getCurrentRangesInDataParts result),
      p.ranges.Pairwise fun r r' => r.end_ ≤ r'.begin ∨ r'.end_ ≤ r.begin := by
    intro p hp
    refine disjoint_of_countMark_le_one (hne p hp) fun mark => ?_
    obtain ⟨entry, hentry, rfl⟩ := mem_sortByPartIndex_iff.1 hp
    exact (countMark_le_count hentry mark).trans (hone entry.1 mark)
  obtain ⟨out, hout, hread⟩ := mapM_sortRanges hne hdisjoint
  refine ⟨out, hout, fun i mark => ?_⟩
  rw [hread, timesRead_sortByPartIndex h, hcount]

end

/-! ## The purpose -/

/-- The closed interval of keys of a range of marks: from the key at its first mark to the one
at its end, if that is in the index. -/
def KeyInterval (parts : RangesInDataParts α) (i : Fin parts.length) (range : MarkRange) :
    Set (Values α (loadedColumns parts allColumns) false) :=
  { v | getValue parts _ i range.begin ≤ v ∧
    (range.end_ < (parts.get i).data_part.index_granularity.marks_count →
      v ≤ getValue parts _ i range.end_) }

/-- The rows of a mark of a range have keys in its interval. -/
lemma mem_keyInterval_of_rowAt (hidx : Indexed parts (loadedColumns parts allColumns) false)
    {i : Fin parts.length} {range : MarkRange} (hmark : mark ∈ range)
    (hlast : mark < (parts.get i).data_part.index_granularity.last_mark) {key : ℕ → Field α}
    (hrow : (parts.get i).data_part.RowAt false mark key) :
    Values.ofKey key ∈ KeyInterval parts i range := by
  constructor
  · have hcount := hlast.trans_le (Nat.sub_le _ _)
    exact (hidx.getValue_mono i hmark.1 hcount).trans (hidx.getValue_le_of_rowAt hrow)
  · intro hend
    have hnext : mark + 1 ≤ range.end_ := hmark.2
    exact (hidx.le_getValue_of_rowAt hrow (hnext.trans_lt hend)).trans
      (hidx.getValue_mono i hnext hend)

/-- A mark whose interval meets that of a selected range is selected, or among the rejected
marks that the sweep adds. -/
lemma covered_of_meets (hends : parts.all endsDefined = true) {i j : Fin parts.length}
    (hmark : mark < (parts.get i).data_part.index_granularity.last_mark)
    {r : MarkRange} (hr : r ∈ (parts.get j).ranges)
    (hmeet : (KeyInterval parts i ⟨mark, mark + 1⟩ ∩ KeyInterval parts j r).Nonempty) :
    0 < countMark (parts.get i).ranges mark +
      covering ((rejected_ranges parts (loadedColumns parts allColumns)).filter fun r =>
        MeetsAny (selected_ranges parts (loadedColumns parts allColumns)) r) i mark := by
  obtain ⟨v, hv, hv'⟩ := hmeet
  rcases Nat.eq_zero_or_pos (countMark (parts.get i).ranges mark) with hzero | hpos
  · apply Nat.add_pos_right
    rw [covering, countP_pos_iff]
    refine ⟨startOf parts _ false i ⟨mark, mark + 1⟩, mem_filter.2 ⟨?_, ?_⟩, ?_⟩
    · refine (sort_perm _).mem_iff.2 (mem_flatMap.2 ⟨i, ?_, ?_⟩)
      · exact mem_finRange i
      · refine mem_map.2 ⟨mark, mem_filter.2 ⟨mem_range.2 hmark, ?_⟩, rfl⟩
        exact countMark_eq_zero_iff.1 hzero
    · refine decide_eq_true ⟨startOf parts _ true j r, ?_, ?_⟩
      · refine (sort_perm _).mem_iff.2 (mem_flatMap.2 ⟨j, ?_, ?_⟩)
        · exact mem_finRange j
        · exact mem_map_of_mem hr
      · -- The common key is not before either beginning and not after either end.
        obtain ⟨hends_j, -⟩ := end_lt_marks_count hends j
        obtain ⟨-, hends_i⟩ := end_lt_marks_count hends i
        exact ⟨hv'.1.trans (hv.2 (hends_i mark hmark)), hv.1.trans (hv'.2 (hends_j r hr))⟩
    · exact decide_eq_true ⟨rfl, mem_single_iff.2 rfl⟩
  · exact Nat.add_pos_left hpos _

/-- **No row that competes with a selected one is skipped.** The result has every selected
mark, every mark whose closed interval of keys meets that of a selected range, and so every
mark with a row whose key a selected row has. -/
theorem findPKRangesForFinalAfterSkipIndexImpl_keeps (parts : RangesInDataParts α)
    (h : WellFormed parts) (cannot_sort_primary_key : Bool)
    (hsorted : cannot_sort_primary_key = false → ∀ p ∈ parts, p.data_part.Sorted false) :
    ∃ out, findPKRangesForFinalAfterSkipIndexImpl parts cannot_sort_primary_key = .ok out ∧
      (∀ i, ∀ r ∈ (parts.get i).ranges, ∀ mark ∈ r,
        0 < timesRead out (parts.get i).part_index_in_query mark) ∧
      (∀ i, ∀ mark < (parts.get i).data_part.index_granularity.last_mark,
        ∀ j, ∀ r ∈ (parts.get j).ranges,
          (KeyInterval parts i ⟨mark, mark + 1⟩ ∩ KeyInterval parts j r).Nonempty →
            0 < timesRead out (parts.get i).part_index_in_query mark) ∧
      (∀ i, ∀ mark < (parts.get i).data_part.index_granularity.last_mark,
        ∀ j, ∀ r ∈ (parts.get j).ranges, ∀ mark' ∈ r, ∀ key,
          (parts.get i).data_part.RowAt false mark key →
            (parts.get j).data_part.RowAt false mark' key →
              0 < timesRead out (parts.get i).part_index_in_query mark) := by
  have hlast : ∀ i, ∀ r ∈ (parts.get i).ranges, ∀ mark ∈ r,
      mark < (parts.get i).data_part.index_granularity.last_mark := fun i r hr mark hmark =>
    hmark.2.trans_le (h.bounded _ (get_mem parts i) r hr)
  by_cases hall : (cannot_sort_primary_key || !parts.all endsDefined) = true
  · -- Every mark of every part is read.
    refine ⟨allPartRanges parts, ?_, fun i r hr mark hmark => ?_, fun i mark hmark _ _ _ _ => ?_,
      fun i mark hmark _ _ _ _ _ _ _ _ => ?_⟩
    · rw [findPKRangesForFinalAfterSkipIndexImpl, if_pos hall]
    · exact timesRead_allPartRanges i (hlast i r hr mark hmark)
    · exact timesRead_allPartRanges i hmark
    · exact timesRead_allPartRanges i hmark
  · -- The sweep selects the marks that meet a selected range.
    obtain ⟨rfl, hends⟩ : cannot_sort_primary_key = false ∧ parts.all endsDefined = true := by
      simpa using hall
    have hidx := Indexed.loadedColumns (hsorted rfl) allColumns
    obtain ⟨out, hout, hread⟩ := timesRead_of_sweep h hends hidx
    refine ⟨out, hout, fun i r hr mark hmark => ?_, fun i mark hmark j r hr hmeet => ?_,
      fun i mark hmark j r hr mark' hmark' key hrow hrow' => ?_⟩
    · rw [hread]
      exact Nat.add_pos_left (countMark_pos_iff.2 ⟨r, hr, hmark⟩) _
    · rw [hread]
      exact covered_of_meets hends hmark hr hmeet
    · -- A row lies in the closed interval of its mark, so that a common key makes them meet.
      rw [hread]
      refine covered_of_meets hends hmark hr ⟨Values.ofKey key, ?_, ?_⟩
      · exact mem_keyInterval_of_rowAt hidx (mem_single_iff.2 rfl) hmark hrow
      · exact mem_keyInterval_of_rowAt hidx hmark' (hlast j r hr mark' hmark') hrow'

/-- The first mark of the first part is selected; the first one of the second part is rejected
and read all the same. -/
theorem findPKRangesForFinalAfterSkipIndexImpl_keeps_at_two_parts :
    ∃ out, findPKRangesForFinalAfterSkipIndexImpl (sampleParts [⟨0, 1⟩] []) false = .ok out ∧
      0 < timesRead out 0 0 ∧ 0 < timesRead out 1 0 := by
  have hwell : WellFormed (sampleParts [⟨0, 1⟩] []) := ⟨by decide, by decide, by decide, by decide⟩
  obtain ⟨out, hout, hselected, hmeets, -⟩ :=
    findPKRangesForFinalAfterSkipIndexImpl_keeps _ hwell false fun _ => sampleParts_sorted _ _
  refine ⟨out, hout, ?_, ?_⟩
  · exact hselected ⟨0, by decide⟩ ⟨0, 1⟩ (by decide) 0 (by decide)
  · refine hmeets ⟨1, by decide⟩ 0 (by decide) ⟨0, by decide⟩ ⟨0, 1⟩ (by decide) ?_
    -- The key 4 is in both intervals.
    exact ⟨Values.ofKey fun _ => .value 4, ⟨by decide, fun _ => by decide⟩,
      ⟨by decide, fun _ => by decide⟩⟩

end ClickHouse.PartsSplitter
