/-
`MergeTreeDataSelectExecutor::markRangesFromPKRange`
(`src/Storages/MergeTree/MergeTreeDataSelectExecutor.cpp`): the primary index
turned into ranges of marks to read.

The function asks one question about a range of marks, `check_in_range`: can
the condition be true, and can it be false, on a row of these marks. The three
conditions that answer it are parameters here, and what is assumed of the answer
is only that it never rules out what a row of the range does (`SoundFor`).
Everything else is the two searches themselves: the exclusion search, which
splits a stack of segments until single marks are left, and the pair of binary
searches for conditions that hold on one continuous range of keys.

Both searches are packaged as rules. `exclusionSearch_rule` turns a property of
(marks done, ranges, exact ranges) that survives a discarded segment and an added
mark into a property of the result, termination included; `bisect_spec` says
where a binary search stops. That no matching mark is lost, and what the exact
ranges are, are then two instances of the same rules.

`size_t` arithmetic is arithmetic on `ℕ` where the code cannot wrap; the one
place it can is `roundRowsOrBytesToMarks`.
-/
import ClickHouse.Core.Types
import ClickHouse.Lib.WhileLoop
import ClickHouse.MergeTree.BoolMask
import Mathlib

set_option autoImplicit false

namespace ClickHouse

open Lib List Option

/-- The marks `begin, …, end_ - 1`. -/
structure MarkRange where
  begin : ℕ
  end_ : ℕ
  deriving DecidableEq, Repr

abbrev MarkRanges : Type := List MarkRange

/-- What the search reads of `MergeTreeIndexGranularity`. A final mark holds no
rows and is written only after data (`write_final_mark = with_final_mark &&
data_written` in the part writers), so it is never the only mark. -/
structure IndexGranularity where
  marks_count : ℕ
  has_final_mark : Bool
  final_after_data : has_final_mark = true → 2 ≤ marks_count

/-- The marks that hold rows are `0, …, last_mark - 1`. -/
def IndexGranularity.last_mark (g : IndexGranularity) : ℕ :=
  g.marks_count - (if g.has_final_mark then 1 else 0)

/-- The three conditions and the index, as the searches see them: usefulness is
`!alwaysUnknownOrTrue()`, the exact-range flags are
`matchesExactContinuousRange()`, and `relaxed` is whether one of the conditions
`isRelaxed()`. -/
structure PKConditions where
  key_condition_useful : Bool
  part_offset_condition_useful : Bool
  total_offset_condition_useful : Bool
  key_condition_exact_range : Bool
  part_offset_condition_exact_range : Bool
  total_offset_condition_exact_range : Bool
  relaxed : Bool
  check_key_condition : MarkRange → BoolMask → BoolMask
  check_part_offset_condition : MarkRange → BoolMask → BoolMask
  check_total_offset_condition : MarkRange → BoolMask → BoolMask

/-- Whether rows of the marks can satisfy all the useful conditions, and whether
they can fail one. -/
def PKConditions.check_in_range (c : PKConditions) (range : MarkRange) (initial_mask : BoolMask) :
    BoolMask :=
  let result : BoolMask := ⟨true, false⟩
  let result := if c.key_condition_useful
    then result.and (c.check_key_condition range initial_mask) else result
  let result := if c.part_offset_condition_useful
    then result.and (c.check_part_offset_condition range initial_mask) else result
  if c.total_offset_condition_useful
    then result.and (c.check_total_offset_condition range initial_mask) else result

/-- The settings and part properties the searches read. A granularity of 0 is
refused when the table is created. -/
structure SeekSettings where
  merge_tree_coarse_index_granularity : ℕ
  merge_tree_min_rows_for_seek : ℕ
  merge_tree_min_bytes_for_seek : ℕ
  fixed_index_granularity : ℕ
  index_granularity_bytes : ℕ
  fixed_index_granularity_pos : 0 < fixed_index_granularity

/-- `roundRowsOrBytesToMarks`, in `size_t`: the sum before the division wraps around. -/
def roundRowsOrBytesToMarks (rows_setting bytes_setting rows_granularity bytes_granularity : ℕ) :
    ℕ :=
  let res := (rows_setting + rows_granularity - 1) % 2 ^ 64 / rows_granularity
  if bytes_granularity = 0 then res
  else max res ((bytes_setting + bytes_granularity - 1) % 2 ^ 64 / bytes_granularity)

def SeekSettings.min_marks_for_seek (s : SeekSettings) : ℕ :=
  roundRowsOrBytesToMarks s.merge_tree_min_rows_for_seek s.merge_tree_min_bytes_for_seek
    s.fixed_index_granularity s.index_granularity_bytes

namespace MarkRanges

/-! ## The exclusion search -/

/-- Add a range behind the last one, or extend the last one over the gap. -/
def pushOrExtend (min_marks_for_seek : ℕ) (res : MarkRanges) (range : MarkRange) : MarkRanges :=
  match res.getLast? with
  | none => [range]
  | some last =>
    if min_marks_for_seek < range.begin - last.end_ then res ++ [range]
    else res.dropLast ++ [⟨last.begin, range.end_⟩]

/-- The locals of the exclusion search; the top of `ranges_stack` is its head. -/
structure ExclusionState where
  ranges_stack : List MarkRange
  res : MarkRanges := []
  exact_ranges : MarkRanges := []

/-- Break a segment and put the pieces on the stack from right to left. -/
def splitSegment (fuel step : ℕ) (range : MarkRange) (stack : List MarkRange) :
    Option (List MarkRange) :=
  (whileLoop (fun s : ℕ × List MarkRange => decide (range.begin + step < s.1))
    (fun s => some (s.1 - step, ⟨s.1 - step, s.1⟩ :: s.2)) fuel (range.end_, stack)).map
    (fun s => ⟨range.begin, s.1⟩ :: s.2)

/-- The mask `check_in_range` starts from: both components matter only for a
single mark, and only when exact ranges are wanted. -/
def exclusionMask (exact : Bool) (range : MarkRange) : BoolMask :=
  if exact && decide (range.end_ = range.begin + 1) then {}
  else BoolMask.consider_only_can_be_true

variable (check : MarkRange → BoolMask → BoolMask)

/-- One iteration of the exclusion search. -/
def exclusionStep (exact : Bool)
    (coarse min_marks_for_seek fuel : ℕ) (s : ExclusionState) : Option ExclusionState :=
  match s.ranges_stack with
  | [] => some s
  | range :: stack =>
    let result := check range (exclusionMask exact range)
    -- nothing in the segment can match
    if !result.can_be_true then some { s with ranges_stack := stack }
    else if range.end_ = range.begin + 1 then
      some
        { ranges_stack := stack
          res := pushOrExtend min_marks_for_seek s.res range
          exact_ranges :=
            if exact && !result.can_be_false then
              pushOrExtend min_marks_for_seek s.exact_ranges range
            else s.exact_ranges }
    else
      -- the segment is split into `coarse` steps, or fewer
      let step := (range.end_ - range.begin - 1) / coarse + 1
      (splitSegment fuel step range stack).map (fun st => { s with ranges_stack := st })

/-- The generic exclusion search, from the range of all marks. -/
def exclusionSearch (exact : Bool)
    (coarse min_marks_for_seek last_mark fuel : ℕ) : Option ExclusionState :=
  whileLoop (fun s : ExclusionState => !s.ranges_stack.isEmpty)
    (exclusionStep check exact coarse min_marks_for_seek fuel) fuel
      { ranges_stack := [⟨0, last_mark⟩] }

/-! ## The binary searches -/

/-- The locals of one binary search; `checked` is `check_left`, `check_right`. -/
structure BisectState where
  searched_left : ℕ
  searched_right : ℕ
  checked : Bool := false

/-- The loop of both searches: `probe` is asked about the middle mark, and the
answer `closes` moves the right end there, the other one the left end. -/
def bisect (probe : ℕ → Bool) (closes : Bool) (fuel : ℕ) (s : BisectState) : Option BisectState :=
  whileLoop (fun s : BisectState => decide (s.searched_left + 1 < s.searched_right))
    (fun s =>
      let middle := (s.searched_left + s.searched_right) / 2
      if probe middle = closes then some ⟨s.searched_left, middle, true⟩
      else some ⟨middle, s.searched_right, true⟩) fuel s

/-- What is made of the two bounds: `res` and `exact_ranges`. -/
def binarySearchResult (exact checked : Bool)
    (result_range : MarkRange) : MarkRanges × MarkRanges :=
  if result_range.begin < result_range.end_ then
    if exact then
      -- a single mark is asked about once more, for both answers
      if result_range.begin + 1 = result_range.end_ then
        let check_result := check result_range {}
        if check_result.can_be_true then
          ([result_range], if !check_result.can_be_false then [result_range] else [])
        else ([], [])
      else
        -- an end is exact if the index excludes a row that does not match
        let first := check ⟨result_range.begin, result_range.begin + 1⟩
          BoolMask.consider_only_can_be_false
        let last := check ⟨result_range.end_ - 1, result_range.end_⟩
          BoolMask.consider_only_can_be_false
        let result_exact_range : MarkRange :=
          ⟨if first.can_be_false then result_range.begin + 1 else result_range.begin,
            if last.can_be_false then result_range.end_ - 1 else result_range.end_⟩
        ([result_range],
          if result_exact_range.begin < result_exact_range.end_ then [result_exact_range] else [])
    -- no probe has looked at the range if neither search has moved its end
    else if checked || (check result_range BoolMask.consider_only_can_be_true).can_be_true then
      ([result_range], [])
    else ([], [])
  else ([], [])

/-- Whether the condition can be true on the marks before `middle`. -/
def probeLeft (middle : ℕ) : Bool :=
  (check ⟨0, middle⟩ BoolMask.consider_only_can_be_true).can_be_true

/-- Whether the condition can be true on the marks from `middle` on. -/
def probeRight (last_mark middle : ℕ) : Bool :=
  (check ⟨middle, last_mark⟩ BoolMask.consider_only_can_be_true).can_be_true

/-- The two bounds one after the other; the second search starts at the first bound. -/
def binarySearch (exact : Bool) (last_mark fuel : ℕ) : Option (MarkRanges × MarkRanges) :=
  (bisect (probeLeft check) true fuel ⟨0, last_mark, false⟩).bind fun left =>
    (bisect (probeRight check last_mark) false fuel ⟨left.searched_left, last_mark, false⟩).map
      fun right => binarySearchResult check exact (left.checked && right.checked)
        ⟨left.searched_left, right.searched_right⟩

/-! ## The function -/

/-- The conditions hold on one continuous range of keys, as far as the code can tell. -/
def exactRange (c : PKConditions) : Bool :=
  (!c.key_condition_useful || c.key_condition_exact_range)
    && (!c.part_offset_condition_useful || c.part_offset_condition_exact_range)
    && (!c.total_offset_condition_useful || c.total_offset_condition_exact_range)

/-- Some condition is useful. -/
def indexUsed (c : PKConditions) : Bool :=
  c.key_condition_useful || c.part_offset_condition_useful || c.total_offset_condition_useful

/-- `markRangesFromPKRange`: the ranges and, when `want_exact` (the pointer is
not null), the exact ranges; `none` is a search that has not ended. -/
def markRangesFromPKRange (fuel : ℕ) (g : IndexGranularity) (c : PKConditions)
    (want_exact : Bool) (settings : SeekSettings) :
    Option (Except Exception (MarkRanges × MarkRanges)) :=
  if g.marks_count = 0 then some (.ok ([], []))
  else if !indexUsed c then
    some (.ok ([⟨0, if g.has_final_mark then g.marks_count - 1 else g.marks_count⟩], []))
  else
    let exact := want_exact && !c.relaxed
    if !exactRange c then
      if settings.merge_tree_coarse_index_granularity ≤ 1 then
        some (.error ⟨.ARGUMENT_OUT_OF_BOUND,
          str "Setting merge_tree_coarse_index_granularity should be greater than 1"⟩)
      else
        (exclusionSearch c.check_in_range exact settings.merge_tree_coarse_index_granularity
          settings.min_marks_for_seek g.last_mark fuel).map (fun s => .ok (s.res, s.exact_ranges))
    else (binarySearch c.check_in_range exact g.last_mark fuel).map .ok

lemma last_mark_pos {g : IndexGranularity} (hg : g.marks_count ≠ 0) : 0 < g.last_mark := by
  unfold IndexGranularity.last_mark
  cases hf : g.has_final_mark with
  | false => simp; omega
  | true =>
    have := g.final_after_data hf
    simp only [if_true]
    omega

lemma last_mark_eq (g : IndexGranularity) :
    (if g.has_final_mark then g.marks_count - 1 else g.marks_count) = g.last_mark := by
  unfold IndexGranularity.last_mark
  cases g.has_final_mark <;> simp

/-! The function branch by branch. -/

section Branches

variable (fuel : ℕ) {g : IndexGranularity} {c : PKConditions} (want_exact : Bool)
  (settings : SeekSettings)

lemma markRangesFromPKRange_of_empty (hmarks : g.marks_count = 0) :
    markRangesFromPKRange fuel g c want_exact settings = some (.ok ([], [])) := by
  rw [markRangesFromPKRange, if_pos hmarks]

lemma markRangesFromPKRange_of_unused (hmarks : g.marks_count ≠ 0) (huse : indexUsed c = false) :
    markRangesFromPKRange fuel g c want_exact settings = some (.ok ([⟨0, g.last_mark⟩], [])) := by
  rw [markRangesFromPKRange, if_neg hmarks, if_pos (by rw [huse]; rfl), last_mark_eq]

section

variable (hmarks : g.marks_count ≠ 0) (huse : indexUsed c = true)
include hmarks huse

lemma markRangesFromPKRange_of_binary (hrange : exactRange c = true) :
    markRangesFromPKRange fuel g c want_exact settings =
      (binarySearch c.check_in_range (want_exact && !c.relaxed) g.last_mark fuel).map .ok := by
  rw [markRangesFromPKRange, if_neg hmarks, if_neg (by simp [huse]), if_neg (by simp [hrange])]

lemma markRangesFromPKRange_of_coarse (hrange : exactRange c = false)
    (hcoarse : settings.merge_tree_coarse_index_granularity ≤ 1) :
    markRangesFromPKRange fuel g c want_exact settings = some (.error ⟨.ARGUMENT_OUT_OF_BOUND,
      str "Setting merge_tree_coarse_index_granularity should be greater than 1"⟩) := by
  rw [markRangesFromPKRange, if_neg hmarks, if_neg (by simp [huse]), if_pos (by simp [hrange]),
    if_pos hcoarse]

lemma markRangesFromPKRange_of_exclusion (hrange : exactRange c = false)
    (hcoarse : 2 ≤ settings.merge_tree_coarse_index_granularity) :
    markRangesFromPKRange fuel g c want_exact settings =
      (exclusionSearch c.check_in_range (want_exact && !c.relaxed)
        settings.merge_tree_coarse_index_granularity settings.min_marks_for_seek g.last_mark
        fuel).map (fun s => .ok (s.res, s.exact_ranges)) := by
  rw [markRangesFromPKRange, if_neg hmarks, if_neg (by simp [huse]), if_pos (by simp [hrange]),
    if_neg (by omega)]

end

end Branches

/-! ## Ranges in ascending order -/

/-- The mark is in one of the ranges. -/
def Covers (res : MarkRanges) (i : ℕ) : Prop := ∃ r ∈ res, r.begin ≤ i ∧ i < r.end_

/-- Ascending, disjoint, non-empty ranges that end by `pos`. -/
structure Upto (res : MarkRanges) (pos : ℕ) : Prop where
  ascending : res.Pairwise (fun a b => a.end_ ≤ b.begin)
  nonempty : ∀ r ∈ res, r.begin < r.end_
  end_le : ∀ r ∈ res, r.end_ ≤ pos

lemma upto_nil (pos : ℕ) : Upto [] pos := ⟨List.Pairwise.nil, by simp, by simp⟩

variable {r : MarkRange}

lemma upto_singleton {pos : ℕ} (hr : r.begin < r.end_) (hpos : r.end_ ≤ pos) : Upto [r] pos :=
  ⟨pairwise_singleton _ _, by simpa using hr, by simpa using hpos⟩

variable {res : MarkRanges}

lemma Upto.mono {pos pos' : ℕ} (h : Upto res pos) (hle : pos ≤ pos') :
    Upto res pos' :=
  ⟨h.ascending, h.nonempty, fun r hr => (h.end_le r hr).trans hle⟩

@[simp] lemma not_covers_nil (i : ℕ) : ¬ Covers [] i := by
  simp [Covers]

@[simp] lemma covers_singleton {i : ℕ} : Covers [r] i ↔ r.begin ≤ i ∧ i < r.end_ := by
  simp [Covers]

variable {i : ℕ}

lemma covers_append {l l' : MarkRanges} :
    Covers (l ++ l') i ↔ Covers l i ∨ Covers l' i := by
  simp only [Covers, mem_append]
  constructor
  · rintro ⟨r, hr | hr, hi⟩
    · exact .inl ⟨r, hr, hi⟩
    · exact .inr ⟨r, hr, hi⟩
  · rintro (⟨r, hr, hi⟩ | ⟨r, hr, hi⟩)
    · exact ⟨r, .inl hr, hi⟩
    · exact ⟨r, .inr hr, hi⟩

lemma Upto.append_singleton {l : MarkRanges} (h : Upto l r.begin)
    (hr : r.begin < r.end_) : Upto (l ++ [r]) r.end_ := by
  refine ⟨?_, ?_, ?_⟩
  · rw [pairwise_append]
    refine ⟨h.ascending, pairwise_singleton _ _, ?_⟩
    intro a ha b hb
    rw [mem_singleton] at hb
    rw [hb]
    exact h.end_le a ha
  · intro a ha
    rcases mem_append.1 ha with ha | ha
    · exact h.nonempty a ha
    · rwa [mem_singleton.1 ha]
  · intro a ha
    rcases mem_append.1 ha with ha | ha
    · have := h.end_le a ha
      omega
    · rw [mem_singleton.1 ha]

/-- The ranges before the last one end where it begins. -/
lemma Upto.init {l : MarkRanges} {pos : ℕ} (h : Upto (l ++ [r]) pos) :
    Upto l r.begin ∧ r.begin < r.end_ ∧ r.end_ ≤ pos := by
  have hasc := pairwise_append.1 h.ascending
  refine ⟨⟨hasc.1, ?_, ?_⟩, h.nonempty r (by simp), h.end_le r (by simp)⟩
  · intro a ha
    exact h.nonempty a (mem_append_left _ ha)
  · intro a ha
    exact hasc.2.2 a ha r (by simp)

/-! `pushOrExtend` through its two equations. -/

@[simp] lemma pushOrExtend_nil (m : ℕ) (range : MarkRange) : pushOrExtend m [] range = [range] :=
  rfl

lemma pushOrExtend_concat (m : ℕ) (l : MarkRanges) (last range : MarkRange) :
    pushOrExtend m (l ++ [last]) range =
      if m < range.begin - last.end_ then (l ++ [last]) ++ [range]
      else l ++ [⟨last.begin, range.end_⟩] := by
  simp [pushOrExtend]

lemma getLast?_pushOrExtend (m : ℕ) (res : MarkRanges) (range : MarkRange) :
    ∃ last, (pushOrExtend m res range).getLast? = some last ∧ last.end_ = range.end_ := by
  rcases eq_nil_or_concat res with rfl | ⟨l, last, rfl⟩
  · exact ⟨range, rfl, rfl⟩
  · rw [concat_eq_append, pushOrExtend_concat]
    split_ifs with hgap
    · exact ⟨range, by simp, rfl⟩
    · exact ⟨⟨last.begin, range.end_⟩, by simp, rfl⟩

lemma Upto.pushOrExtend {m : ℕ}
    (h : Upto res r.begin) (hr : r.begin < r.end_) : Upto (pushOrExtend m res r) r.end_ := by
  rcases eq_nil_or_concat res with rfl | ⟨l, last, rfl⟩
  · exact upto_singleton hr le_rfl
  rw [concat_eq_append] at h ⊢
  rw [pushOrExtend_concat]
  split_ifs with hgap
  · exact h.append_singleton hr
  · obtain ⟨hinit, hne, hle⟩ := h.init
    exact Upto.append_singleton (r := ⟨last.begin, r.end_⟩) hinit
      (show last.begin < r.end_ by omega)

/-- A range added at the end covers its own marks, and those of the gap that it
is extended over. -/
lemma covers_pushOrExtend {m : ℕ} (h : Upto res r.begin) (hr : r.begin < r.end_) :
    Covers (pushOrExtend m res r) i ↔
      Covers res i ∨ (r.begin ≤ i ∧ i < r.end_) ∨
        ∃ last, res.getLast? = some last ∧ r.begin - last.end_ ≤ m ∧
          last.end_ ≤ i ∧ i < r.begin := by
  rcases eq_nil_or_concat res with rfl | ⟨l, last, rfl⟩
  · simp
  rw [concat_eq_append] at h ⊢
  obtain ⟨-, hne, hle⟩ := h.init
  rw [pushOrExtend_concat]
  split_ifs with hgap
  · -- the gap is too wide, and a new range is begun
    rw [covers_append, covers_singleton]
    constructor
    · rintro (hi | hi)
      · exact .inl hi
      · exact .inr (.inl hi)
    · rintro (hi | hi | ⟨last', hlast, hm, -⟩)
      · exact .inl hi
      · exact .inr hi
      · obtain rfl : last = last' := by simpa using hlast
        omega
  · -- the last range is extended over the gap
    rw [covers_append, covers_append, covers_singleton, covers_singleton]
    constructor
    · rintro (hi | ⟨hge, hlt⟩)
      · exact .inl (.inl hi)
      · by_cases h1 : i < last.end_
        · exact .inl (.inr ⟨hge, h1⟩)
        · by_cases h2 : i < r.begin
          · exact .inr (.inr ⟨last, by simp, by omega, by omega, h2⟩)
          · exact .inr (.inl ⟨by omega, hlt⟩)
    · rintro ((hi | ⟨hge, hlt⟩) | ⟨hge, hlt⟩ | ⟨last', hlast, -, hge, hlt⟩)
      · exact .inl hi
      · exact .inr ⟨hge, show i < r.end_ by omega⟩
      · exact .inr ⟨show last.begin ≤ i by omega, hlt⟩
      · obtain rfl : last = last' := by simpa using hlast
        exact .inr ⟨show last.begin ≤ i by omega, show i < r.end_ by omega⟩

/-! ## The stack of the exclusion search -/

/-- Non-empty segments that follow one another from `a` to `z`. -/
def Chain : ℕ → List MarkRange → ℕ → Prop
  | a, [], z => a = z
  | a, r :: rs, z => r.begin = a ∧ r.begin < r.end_ ∧ Chain r.end_ rs z

variable {stack : List MarkRange}

lemma Chain.le {a z : ℕ} (h : Chain a stack z) : a ≤ z := by
  induction stack generalizing a with
  | nil => exact Nat.le_of_eq h
  | cons r rs ih =>
    obtain ⟨rfl, hlt, hrest⟩ := h
    have := ih hrest
    omega

/-- The variant: an upper bound for the number of iterations a stack still takes.
A segment of `n` marks is a binary tree with `n` leaves at worst. -/
def weight : List MarkRange → ℕ
  | [] => 0
  | r :: rs => (2 * (r.end_ - r.begin) - 1) + weight rs

/-- **Splitting a segment** leaves a chain over the same marks, of smaller weight. -/
theorem splitSegment_spec {fuel step : ℕ} {range : MarkRange} (stack : List MarkRange)
    (hstep : 0 < step) (hlen : range.begin + step < range.end_) (hfuel : range.end_ ≤ fuel) :
    ∃ stack', splitSegment fuel step range stack = some stack' ∧
      (∀ z, Chain range.end_ stack z → Chain range.begin stack' z) ∧
      weight stack' < weight (range :: stack) := by
  -- every piece taken off the right end costs one unit of weight
  let Inv : ℕ × List MarkRange → Prop := fun s =>
    range.begin < s.1 ∧ s.1 ≤ range.end_ ∧ (∀ z, Chain range.end_ stack z → Chain s.1 s.2 z) ∧
      (s = (range.end_, stack) ∨
        weight s.2 + 2 * (s.1 - range.begin) < weight stack + 2 * (range.end_ - range.begin))
  have hloop := whileLoop_spec
    (fun s : ℕ × List MarkRange => decide (range.begin + step < s.1))
    (fun s => some (s.1 - step, ⟨s.1 - step, s.1⟩ :: s.2)) Inv (fun s => s.1)
    (by
      rintro ⟨e, st⟩ ⟨hlo, hhi, hchain, hw⟩ hc
      have hc : range.begin + step < e := by simpa using hc
      refine ⟨_, rfl, ⟨?_, ?_, ?_, .inr ?_⟩, ?_⟩
      · show range.begin < e - step
        omega
      · show e - step ≤ range.end_
        omega
      · intro z hz
        exact ⟨rfl, show e - step < e by omega, hchain z hz⟩
      · have hle : weight st + 2 * (e - range.begin) ≤
            weight stack + 2 * (range.end_ - range.begin) := by
          rcases hw with hw | hw
          · rw [Prod.mk.injEq] at hw
            rw [hw.1, hw.2]
          · exact hw.le
        simp only [weight]
        omega
      · show e - step < e
        omega)
    fuel (range.end_, stack) ⟨by show range.begin < range.end_; omega, le_rfl, fun _ hz => hz,
      .inl rfl⟩ hfuel
  obtain ⟨⟨e, st⟩, hrun, ⟨hlo, hhi, hchain, hw⟩, hexit⟩ := hloop
  have hexit : e ≤ range.begin + step := by simpa using hexit
  refine ⟨⟨range.begin, e⟩ :: st, ?_, ?_, ?_⟩
  · rw [splitSegment, hrun, map_some]
  · intro z hz
    exact ⟨rfl, hlo, hchain z hz⟩
  · rcases hw with hw | hw
    · rw [Prod.mk.injEq] at hw
      omega
    · have hw : weight st + 2 * (e - range.begin) <
          weight stack + 2 * (range.end_ - range.begin) := hw
      simp only [weight]
      omega

/-- What one iteration does: it drops the top segment, takes it as a mark of the
result, or splits it. -/
lemma exclusionStep_cases (exact : Bool) (m : ℕ)
    {coarse fuel : ℕ} {s : ExclusionState} {range : MarkRange}
    (hs : s.ranges_stack = range :: stack) (hcoarse : 2 ≤ coarse)
    (hne : range.begin < range.end_) (hfuel : range.end_ ≤ fuel) :
    ((check range (exclusionMask exact range)).can_be_true = false ∧
      exclusionStep check exact coarse m fuel s = some { s with ranges_stack := stack }) ∨
    ((check range (exclusionMask exact range)).can_be_true = true ∧ range.end_ = range.begin + 1 ∧
      exclusionStep check exact coarse m fuel s = some
        { ranges_stack := stack
          res := pushOrExtend m s.res range
          exact_ranges :=
            if exact && !(check range (exclusionMask exact range)).can_be_false
            then pushOrExtend m s.exact_ranges range else s.exact_ranges }) ∨
    ∃ stack', exclusionStep check exact coarse m fuel s = some { s with ranges_stack := stack' } ∧
      (∀ z, Chain range.end_ stack z → Chain range.begin stack' z) ∧
      weight stack' < weight (range :: stack) := by
  rw [exclusionStep, hs]
  by_cases hres : (check range (exclusionMask exact range)).can_be_true = true
  · by_cases hone : range.end_ = range.begin + 1
    · -- a single mark is taken
      refine .inr (.inl ⟨hres, hone, ?_⟩)
      simp only [hres, Bool.not_true, Bool.false_eq_true, if_false, if_pos hone]
    · -- a longer segment is split, into steps that are shorter than it
      refine .inr (.inr ?_)
      have hstep : range.begin + ((range.end_ - range.begin - 1) / coarse + 1) < range.end_ := by
        have hdiv : (range.end_ - range.begin - 1) / coarse ≤ (range.end_ - range.begin - 1) / 2 :=
          Nat.div_le_div_left hcoarse (by omega)
        omega
      obtain ⟨stack', hsplit, hchain, hw⟩ := splitSegment_spec stack (Nat.succ_pos _) hstep hfuel
      refine ⟨stack', ?_, hchain, hw⟩
      simp only [hres, Bool.not_true, Bool.false_eq_true, if_false, if_neg hone, hsplit, map_some]
  · -- nothing in the segment can match
    have hres : (check range (exclusionMask exact range)).can_be_true = false := by
      simpa using hres
    refine .inl ⟨hres, ?_⟩
    simp only [hres, Bool.not_false, if_true]

/-- **The rule for the exclusion search.** A property of the marks done, the
ranges and the exact ranges that holds at the start, survives a segment found
useless and survives a mark taken, holds of the result; and the search ends. -/
theorem exclusionSearch_rule {check : MarkRange → BoolMask → BoolMask} {exact : Bool}
    {coarse m last_mark fuel : ℕ} (P : ℕ → MarkRanges → MarkRanges → Prop) (hinit : P 0 [] [])
    (hdrop : ∀ (range : MarkRange) (res ex : MarkRanges), range.begin < range.end_ →
      range.end_ ≤ last_mark → (check range (exclusionMask exact range)).can_be_true = false →
      P range.begin res ex → P range.end_ res ex)
    (htake : ∀ (a : ℕ) (res ex : MarkRanges), a < last_mark →
      (check ⟨a, a + 1⟩ (exclusionMask exact ⟨a, a + 1⟩)).can_be_true = true → P a res ex →
      P (a + 1) (pushOrExtend m res ⟨a, a + 1⟩)
        (if exact && !(check ⟨a, a + 1⟩ (exclusionMask exact ⟨a, a + 1⟩)).can_be_false
          then pushOrExtend m ex ⟨a, a + 1⟩ else ex))
    (hcoarse : 2 ≤ coarse) (hlast : 0 < last_mark) (hfuel : 2 * last_mark ≤ fuel) :
    ∃ s, exclusionSearch check exact coarse m last_mark fuel = some s ∧
      P last_mark s.res s.exact_ranges := by
  -- the stack is a chain of segments, from the first mark that is not done to the last one
  let Inv : ExclusionState → Prop := fun s =>
    ∃ pos, Chain pos s.ranges_stack last_mark ∧ P pos s.res s.exact_ranges
  obtain ⟨s, hrun, ⟨pos, hchain, hP⟩, hexit⟩ := whileLoop_spec
    (fun s : ExclusionState => !s.ranges_stack.isEmpty)
    (exclusionStep check exact coarse m fuel) Inv (fun s => weight s.ranges_stack)
    (by
      rintro s ⟨pos, hchain, hP⟩ hc
      obtain ⟨range, stack, hs⟩ : ∃ range stack, s.ranges_stack = range :: stack := by
        cases hst : s.ranges_stack with
        | nil => simp [hst] at hc
        | cons range stack => exact ⟨range, stack, rfl⟩
      rw [hs] at hchain
      obtain ⟨rfl, hne, hrest⟩ := hchain
      have hle := hrest.le
      rcases exclusionStep_cases check exact m hs hcoarse hne
        (show range.end_ ≤ fuel by omega) with ⟨hmask, heq⟩ | ⟨hmask, hone, heq⟩ |
          ⟨stack', heq, hch, hw⟩
      · -- the segment is dropped
        refine ⟨_, heq, ⟨range.end_, hrest, hdrop range _ _ hne hle hmask hP⟩, ?_⟩
        simp only [hs, weight]
        omega
      · -- a mark is taken
        obtain ⟨a, e⟩ := range
        obtain rfl : e = a + 1 := hone
        refine ⟨_, heq, ⟨a + 1, hrest, htake a _ _ hle hmask hP⟩, ?_⟩
        simp only [hs, weight]
        omega
      · -- the segment is split: no mark is done, but the stack weighs less
        refine ⟨_, heq, ⟨range.begin, hch _ hrest, hP⟩, ?_⟩
        rw [hs]
        exact hw)
    fuel { ranges_stack := [⟨0, last_mark⟩] } ⟨0, ⟨rfl, hlast, rfl⟩, hinit⟩
    (by simp only [weight]; omega)
  have hempty : s.ranges_stack = [] := by simpa using hexit
  rw [hempty] at hchain
  obtain rfl : pos = last_mark := hchain
  exact ⟨s, hrun, hP⟩

/-! ## Where a binary search stops -/

/-- **The binary search** stops at two neighbouring marks; unless it has not moved
that end at all, the probe `closes` at the right one and does not at the left one. -/
theorem bisect_spec (probe : ℕ → Bool) (closes : Bool) {l r fuel : ℕ} (hlr : l < r)
    (hfuel : r ≤ fuel) :
    ∃ s, bisect probe closes fuel ⟨l, r, false⟩ = some s ∧
      l ≤ s.searched_left ∧ s.searched_right ≤ r ∧ s.searched_right = s.searched_left + 1 ∧
      (s.searched_left = l ∨ probe s.searched_left ≠ closes) ∧
      (s.searched_right = r ∨ probe s.searched_right = closes) := by
  -- an end that was moved is at a mark that was probed
  let Inv : BisectState → Prop := fun s =>
    s.searched_left < s.searched_right ∧ l ≤ s.searched_left ∧ s.searched_right ≤ r ∧
      (s.searched_left = l ∨ probe s.searched_left ≠ closes) ∧
      (s.searched_right = r ∨ probe s.searched_right = closes)
  obtain ⟨s, hrun, ⟨hlt, hlo, hhi, hleft, hright⟩, hexit⟩ := whileLoop_spec
    (fun s : BisectState => decide (s.searched_left + 1 < s.searched_right))
    (fun s =>
      let middle := (s.searched_left + s.searched_right) / 2
      if probe middle = closes then some ⟨s.searched_left, middle, true⟩
      else some ⟨middle, s.searched_right, true⟩)
    Inv (fun s => s.searched_right - s.searched_left)
    (by
      rintro ⟨a, b, checked⟩ ⟨hlt, hlo, hhi, hleft, hright⟩ hc
      have hc : a + 1 < b := by simpa using hc
      simp only at hlt hlo hhi hleft hright
      by_cases hp : probe ((a + b) / 2) = closes
      · refine ⟨⟨a, (a + b) / 2, true⟩, by simp [hp], ⟨?_, hlo, ?_, hleft, .inr hp⟩, ?_⟩
        · show a < (a + b) / 2
          omega
        · show (a + b) / 2 ≤ r
          omega
        · show (a + b) / 2 - a < b - a
          omega
      · refine ⟨⟨(a + b) / 2, b, true⟩, by simp [hp], ⟨?_, ?_, hhi, .inr hp, hright⟩, ?_⟩
        · show (a + b) / 2 < b
          omega
        · show l ≤ (a + b) / 2
          omega
        · show b - (a + b) / 2 < b - a
          omega)
    fuel ⟨l, r, false⟩ ⟨hlr, le_rfl, le_rfl, .inl rfl, .inl rfl⟩
    (show r - l ≤ fuel by omega)
  have hexit : s.searched_right ≤ s.searched_left + 1 := by simpa using hexit
  exact ⟨s, hrun, hlo, hhi, by omega, hleft, hright⟩

/-- **The two binary searches** end, in a range `[b, e)`. Before `b` the condition
cannot be true, unless `b` is the first mark, and likewise from `e` on; and it can
be true on the marks up to `b` and on those from `e - 1` on, where these bounds
have been moved at all. -/
theorem binarySearch_spec (exact : Bool)
    {last_mark fuel : ℕ} (hlast : 0 < last_mark) (hfuel : last_mark ≤ fuel) :
    ∃ b e checked, binarySearch check exact last_mark fuel =
        some (binarySearchResult check exact checked ⟨b, e⟩) ∧
      b < e ∧ e ≤ last_mark ∧
      (b = 0 ∨ probeLeft check b = false) ∧ (e = last_mark ∨ probeRight check last_mark e = false) ∧
      (b + 1 = last_mark ∨ probeLeft check (b + 1) = true) ∧
      (b + 1 = e ∨ probeRight check last_mark (e - 1) = true) := by
  -- the left search, and the right one from where the left one ended
  obtain ⟨left, hleft, -, hle, hstop, hlo, hhi⟩ := bisect_spec (probeLeft check) true hlast hfuel
  obtain ⟨right, hright, hge', hle', hstop', hlo', hhi'⟩ :=
    bisect_spec (probeRight check last_mark) false (show left.searched_left < last_mark by omega)
      hfuel
  refine ⟨left.searched_left, right.searched_right, left.checked && right.checked, ?_, by omega,
    hle', ?_, ?_, ?_, ?_⟩
  · rw [binarySearch, hleft, bind_some, hright, map_some]
  · simpa using hlo
  · simpa using hhi'
  · rwa [hstop] at hhi
  · rcases hlo' with hlo' | hlo'
    · exact .inl (by omega)
    · refine .inr ?_
      rw [hstop', Nat.add_sub_cancel]
      simpa using hlo'

/-! ## No matching mark is lost -/

/-- The truth values of the condition on the rows of each mark. Every mark but the
final one holds rows. -/
structure PartRows (g : IndexGranularity) where
  rows : ℕ → List Bool
  rows_ne_nil : ∀ i, i < g.last_mark → rows i ≠ []
  rows_final : ∀ i, g.last_mark ≤ i → rows i = []

/-- The answers about ranges of marks allow for every row with the truth value `b`. -/
def SoundFor (rows : ℕ → List Bool) (last_mark : ℕ)
    (b : Bool) : Prop :=
  ∀ (range : MarkRange) (mask : BoolMask) (i : ℕ), range.begin ≤ i → i < range.end_ →
    range.end_ ≤ last_mark → b ∈ rows i → (check range mask).Admits b

variable (rows : ℕ → List Bool)

/-- The sharpest answer, of an index that knows every row of the range. -/
def scanCheck (range : MarkRange) (mask : BoolMask) : BoolMask :=
  let marks := (List.range range.end_).filter (fun i => range.begin ≤ i)
  ⟨mask.can_be_true || marks.any (fun i => (rows i).contains true),
    mask.can_be_false || marks.any (fun i => (rows i).contains false)⟩

lemma scanCheck_sound (last_mark : ℕ) (b : Bool) :
    SoundFor (scanCheck rows) rows last_mark b := by
  intro range mask i hlo hhi _ hi
  have hmem : i ∈ (List.range range.end_).filter (fun i => range.begin ≤ i) := by
    simp [hlo, hhi]
  have hany : ((List.range range.end_).filter (fun i => range.begin ≤ i)).any
      (fun i => (rows i).contains b) = true :=
    any_eq_true.2 ⟨i, hmem, by simpa using hi⟩
  cases b with
  | true => rw [BoolMask.admits_true, scanCheck, hany, Bool.or_true]
  | false => rw [BoolMask.admits_false, scanCheck, hany, Bool.or_true]

/-- A condition on the key alone, answered by a scan. -/
def scanConditions (exact_range : Bool) : PKConditions where
  key_condition_useful := true
  part_offset_condition_useful := false
  total_offset_condition_useful := false
  key_condition_exact_range := exact_range
  part_offset_condition_exact_range := false
  total_offset_condition_exact_range := false
  relaxed := false
  check_key_condition := scanCheck rows
  check_part_offset_condition := fun _ mask => mask
  check_total_offset_condition := fun _ mask => mask

lemma scanConditions_check (exact_range : Bool) :
    (scanConditions rows exact_range).check_in_range = scanCheck rows := by
  funext range mask
  simp [scanConditions, PKConditions.check_in_range, BoolMask.and]

def markList (rows : List (List Bool)) (i : ℕ) : List Bool := rows.getD i []

lemma markList_eq_nil {rows : List (List Bool)} (hi : rows.length ≤ i) :
    markList rows i = [] := by
  rw [markList, getD_eq_getElem?_getD, getElem?_eq_none hi, getD_none]

section Searches

variable {check : MarkRange → BoolMask → BoolMask} {rows : ℕ → List Bool} {last_mark : ℕ}

lemma not_mem_of_mask {b : Bool} (hsound : SoundFor check rows last_mark b)
    {mask : BoolMask} (hle : r.end_ ≤ last_mark)
    (hmask : (bif b then (check r mask).can_be_true else (check r mask).can_be_false) = false)
    (hlo : r.begin ≤ i) (hhi : i < r.end_) : b ∉ rows i := by
  intro hi
  have hadmits := hsound r mask i hlo hhi hle hi
  cases b <;> simp_all

/-- The exclusion search loses no mark on which the condition is true. -/
lemma exclusionSearch_covers (hsound : SoundFor check rows last_mark true) (exact : Bool)
    {coarse m fuel : ℕ} (hcoarse : 2 ≤ coarse) (hlast : 0 < last_mark)
    (hfuel : 2 * last_mark ≤ fuel) :
    ∃ s, exclusionSearch check exact coarse m last_mark fuel = some s ∧
      Upto s.res last_mark ∧ ∀ i, i < last_mark → true ∈ rows i → Covers s.res i := by
  apply exclusionSearch_rule
    (fun pos res _ => Upto res pos ∧ ∀ i, i < pos → true ∈ rows i → Covers res i)
  · exact ⟨upto_nil 0, fun i hi => absurd hi (Nat.not_lt_zero i)⟩
  · rintro range res - hne hle hmask ⟨hup, hcov⟩
    refine ⟨hup.mono hne.le, ?_⟩
    intro i hi hmatch
    -- a mark that was done before, or one of the segment, which has no match
    by_cases hlo : i < range.begin
    · exact hcov i hlo hmatch
    · exact absurd hmatch (not_mem_of_mask hsound hle hmask (not_lt.1 hlo) hi)
  · rintro a res - ha - ⟨hup, hcov⟩
    have hone : a < a + 1 := Nat.lt_succ_self a
    refine ⟨Upto.pushOrExtend (r := ⟨a, a + 1⟩) hup hone, ?_⟩
    intro i hi hmatch
    rw [covers_pushOrExtend (r := ⟨a, a + 1⟩) hup hone]
    -- a mark that was done before, or the mark that is taken
    by_cases hlo : i < a
    · exact .inl (hcov i hlo hmatch)
    · exact .inr (.inl ⟨not_lt.1 hlo, hi⟩)
  · exact hcoarse
  · exact hlast
  · exact hfuel

/-- The range found is returned, unless the index rules it out as a whole. -/
lemma binarySearchResult_fst (check : MarkRange → BoolMask → BoolMask) (exact checked : Bool)
    {b e : ℕ} (hbe : b < e) :
    (binarySearchResult check exact checked ⟨b, e⟩).1 = [⟨b, e⟩] ∨
      (binarySearchResult check exact checked ⟨b, e⟩).1 = [] ∧
        ∃ mask, (check ⟨b, e⟩ mask).can_be_true = false := by
  unfold binarySearchResult
  rw [if_pos hbe]
  cases exact with
  | true =>
    rw [if_pos rfl]
    split_ifs with hone
    · by_cases hres : (check ⟨b, e⟩ {}).can_be_true = true
      · exact .inl (by simp [hres])
      · exact .inr ⟨by simp [hres], {}, by simpa using hres⟩
    · exact .inl rfl
  | false =>
    rw [if_neg Bool.false_ne_true]
    by_cases hres : (checked ||
        (check ⟨b, e⟩ BoolMask.consider_only_can_be_true).can_be_true) = true
    · exact .inl (by rw [if_pos hres])
    · refine .inr ⟨by rw [if_neg hres], BoolMask.consider_only_can_be_true, ?_⟩
      rw [Bool.not_eq_true, Bool.or_eq_false_iff] at hres
      exact hres.2

/-- The binary search loses no mark on which the condition is true. -/
lemma binarySearch_covers (hsound : SoundFor check rows last_mark true) (exact : Bool)
    {fuel : ℕ} (hlast : 0 < last_mark) (hfuel : last_mark ≤ fuel) :
    ∃ res ex, binarySearch check exact last_mark fuel = some (res, ex) ∧
      Upto res last_mark ∧ ∀ i, i < last_mark → true ∈ rows i → Covers res i := by
  obtain ⟨b, e, checked, hrun, hbe, hle, hleft, hright, -, -⟩ :=
    binarySearch_spec check exact hlast hfuel
  -- a matching mark is in the range found: the marks on both sides are ruled out
  have hin : ∀ i, i < last_mark → true ∈ rows i → b ≤ i ∧ i < e := by
    intro i hi hmatch
    constructor
    · by_contra hlt
      rcases hleft with rfl | hprobe
      · omega
      · exact not_mem_of_mask (r := ⟨0, b⟩) hsound (show b ≤ last_mark by omega)
          hprobe (Nat.zero_le i) (not_le.1 hlt) hmatch
    · by_contra hge
      rcases hright with rfl | hprobe
      · omega
      · exact not_mem_of_mask (r := ⟨e, last_mark⟩) hsound le_rfl hprobe (not_lt.1 hge) hi hmatch
  refine ⟨(binarySearchResult check exact checked ⟨b, e⟩).1,
    (binarySearchResult check exact checked ⟨b, e⟩).2, hrun, ?_⟩
  rcases binarySearchResult_fst check exact checked hbe with hres | ⟨hres, mask, hmask⟩
  · rw [hres]
    refine ⟨upto_singleton hbe hle, ?_⟩
    intro i hi hmatch
    rw [covers_singleton]
    exact hin i hi hmatch
  · rw [hres]
    refine ⟨upto_nil _, ?_⟩
    intro i hi hmatch
    obtain ⟨hlo, hhi⟩ := hin i hi hmatch
    exact absurd hmatch (not_mem_of_mask (r := ⟨b, e⟩) hsound hle hmask hlo hhi)

end Searches

/-- **Primary-key pruning loses no row**: with enough fuel the search ends, and its
ranges are ascending, disjoint, inside the marks with rows, and contain every mark
that holds a matching row. -/
theorem markRangesFromPKRange_covers (g : IndexGranularity) (part : PartRows g) (c : PKConditions)
    (want_exact : Bool) (settings : SeekSettings) (fuel : ℕ)
    (hcoarse : 2 ≤ settings.merge_tree_coarse_index_granularity)
    (hsound : SoundFor c.check_in_range part.rows g.last_mark true)
    (hfuel : 2 * g.last_mark ≤ fuel) :
    ∃ res ex, markRangesFromPKRange fuel g c want_exact settings = some (.ok (res, ex)) ∧
      Upto res g.last_mark ∧ ∀ i, true ∈ part.rows i → Covers res i := by
  -- only marks below `last_mark` hold rows
  have hdata : ∀ i, true ∈ part.rows i → i < g.last_mark := by
    intro i hi
    by_contra hge
    rw [part.rows_final i (not_lt.1 hge)] at hi
    exact absurd hi not_mem_nil
  by_cases hmarks : g.marks_count = 0
  · refine ⟨[], [], markRangesFromPKRange_of_empty fuel want_exact settings hmarks, upto_nil _, ?_⟩
    intro i hi
    have := hdata i hi
    unfold IndexGranularity.last_mark at this
    omega
  have hlast := last_mark_pos hmarks
  cases huse : indexUsed c with
  | false =>
    refine ⟨_, _, markRangesFromPKRange_of_unused fuel want_exact settings hmarks huse,
      upto_singleton hlast le_rfl, ?_⟩
    intro i hi
    exact covers_singleton.2 ⟨Nat.zero_le i, hdata i hi⟩
  | true =>
    cases hrange : exactRange c with
    | false =>
      obtain ⟨s, hrun, hup, hcov⟩ := exclusionSearch_covers hsound (want_exact && !c.relaxed)
        (m := settings.min_marks_for_seek) hcoarse hlast hfuel
      refine ⟨s.res, s.exact_ranges, ?_, hup, fun i hi => hcov i (hdata i hi) hi⟩
      rw [markRangesFromPKRange_of_exclusion fuel want_exact settings hmarks huse hrange hcoarse,
        hrun, map_some]
    | true =>
      obtain ⟨res, ex, hrun, hup, hcov⟩ := binarySearch_covers hsound (want_exact && !c.relaxed)
        hlast (show g.last_mark ≤ fuel by omega)
      refine ⟨res, ex, ?_, hup, fun i hi => hcov i (hdata i hi) hi⟩
      rw [markRangesFromPKRange_of_binary fuel want_exact settings hmarks huse hrange, hrun,
        map_some]

theorem markRangesFromPKRange_covers_at_three_marks :
    ∃ res ex, markRangesFromPKRange 6 ⟨4, true, by decide⟩
        (scanConditions (markList [[true], [false], [true, false]]) false) true
        ⟨8, 8192, 0, 8192, 0, by decide⟩ = some (.ok (res, ex)) ∧
      Upto res 3 ∧ ∀ i, true ∈ markList [[true], [false], [true, false]] i → Covers res i :=
  markRangesFromPKRange_covers ⟨4, true, by decide⟩
    ⟨markList [[true], [false], [true, false]], by decide, fun _ hi => markList_eq_nil hi⟩
    (scanConditions (markList [[true], [false], [true, false]]) false) true
    ⟨8, 8192, 0, 8192, 0, by decide⟩ 6 (by decide)
    (by rw [scanConditions_check]; exact scanCheck_sound _ _ _) (by decide)

end MarkRanges

end ClickHouse
