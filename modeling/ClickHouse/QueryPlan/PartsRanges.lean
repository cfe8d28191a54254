/-
What the functions of `src/Processors/QueryPlan/PartsSplitter.cpp` share: parts with their
primary index and the ranges of marks to read (`RangesInDataParts`), `IndexAccess`, the
events at the ends of the ranges (`PartsRangesIterator`) and `RangesInDataPartsBuilder`.

The order of the events is lexicographic in a tuple (`PartsRangesIterator.lt_iff`), so the
events are a linear order and a sweep over them can say what came before and what comes
after. The builder glues adjacent ranges, so ranges cannot be traced through it; what can
be traced is how often a mark has been added (`count_addRange`), and every statement about
an output is about these numbers.

`size_t` is `ℕ`. A `NULL` in the index is read as `POSITIVE_INFINITY`, and `Field` has no
other `NULL`.
-/
import ClickHouse.Lib.HashTable
import ClickHouse.Lib.PartitionPoint
import ClickHouse.MergeTree.MarkRanges
import ClickHouse.QueryPlan.KeyValues

set_option autoImplicit false

namespace ClickHouse.PartsSplitter

open Lib List Finset Function

/-! ## Parts -/

instance membershipMarkRange : Membership ℕ MarkRange :=
  ⟨fun range mark => range.begin ≤ mark ∧ mark < range.end_⟩

variable {range : MarkRange}

lemma mem_markRange_iff {mark : ℕ} :
    mark ∈ range ↔ range.begin ≤ mark ∧ mark < range.end_ := Iff.rfl

instance decidableMemMarkRange (mark : ℕ) (range : MarkRange) : Decidable (mark ∈ range) :=
  inferInstanceAs (Decidable (_ ∧ _))

/-- How many of the ranges contain a mark. -/
def countMark (ranges : MarkRanges) (mark : ℕ) : ℕ := ranges.countP fun range => mark ∈ range

variable {α : Type*}

/-- What is read of a data part: `info.level`, the granularity, and of the primary index the
columns that are loaded, at each mark. -/
structure DataPart (α : Type*) where
  level : ℕ
  index_granularity : IndexGranularity
  getMarkRows : ℕ → ℕ
  index_size : ℕ
  index : (column mark : ℕ) → Field α

/-- The rows are sorted by the key in the given direction, and so is the index. -/
def DataPart.Sorted [LinearOrder α] (in_reverse_order : Bool) (part : DataPart α) : Prop :=
  ∀ {m m' : ℕ}, m ≤ m' → m' < part.index_granularity.marks_count →
    (Values.ofKey fun i => part.index i m : Values α part.index_size in_reverse_order) ≤
      Values.ofKey fun i => part.index i m'

/-- The key of a row of the granule at a mark: not before the key at the mark, and not after
the one at the next mark, where there is one. -/
def DataPart.RowAt [LinearOrder α] (in_reverse_order : Bool) (part : DataPart α) (mark : ℕ)
    (key : ℕ → Field α) : Prop :=
  (Values.ofKey fun i => part.index i mark : Values α part.index_size in_reverse_order) ≤
      Values.ofKey key ∧
    (mark + 1 < part.index_granularity.marks_count →
      (Values.ofKey key : Values α part.index_size in_reverse_order) ≤
        Values.ofKey fun i => part.index i (mark + 1))

/-- `RangesInDataPart`: the marks of a part that are to be read. -/
structure RangesInDataPart (α : Type*) where
  data_part : DataPart α
  part_index_in_query : ℕ
  part_starting_offset_in_query : ℕ
  ranges : MarkRanges

abbrev RangesInDataParts (α : Type*) : Type _ := List (RangesInDataPart α)

/-- What the callers pass: each part once, with ranges of its marks that are not empty and do
not intersect (`assertSortedAndNonIntersecting`). -/
structure WellFormed (parts : RangesInDataParts α) : Prop where
  distinct : parts.Pairwise fun p p' => p.part_index_in_query ≠ p'.part_index_in_query
  nonempty : ∀ p ∈ parts, ∀ r ∈ p.ranges, r.begin < r.end_
  bounded : ∀ p ∈ parts, ∀ r ∈ p.ranges, r.end_ ≤ p.data_part.index_granularity.last_mark
  disjoint : ∀ p ∈ parts, p.ranges.Pairwise fun r r' => r.end_ ≤ r'.begin ∨ r'.end_ ≤ r.begin

/-- How often an output reads a mark of the part with the given number in the query. -/
def timesRead (out : RangesInDataParts α) (part_index_in_query mark : ℕ) : ℕ :=
  (out.map fun p =>
    if p.part_index_in_query = part_index_in_query then countMark p.ranges mark else 0).sum

/-! ## `IndexAccess` -/

/-- `loaded_columns`. -/
def loadedColumns (parts : RangesInDataParts α) (max_columns_in_index : ℕ) : ℕ :=
  parts.foldl (fun loaded part => min loaded part.data_part.index_size) max_columns_in_index

/-- The default of `max_columns_in_index`, `std::numeric_limits<size_t>::max()`. -/
def allColumns : ℕ := 2 ^ 64 - 1

section IndexAccess

variable (parts : RangesInDataParts α) (columns : ℕ) {rev : Bool}

/-- `IndexAccess::getValue`: the key at a mark, in its first columns. -/
def getValue (part_index : Fin parts.length) (mark : ℕ) : Values α columns rev :=
  Values.ofKey fun i => (parts.get part_index).data_part.index i mark

variable {columns} [LinearOrder α]

/-- The loop ends with `left` and `right` equal. -/
def findRightmostMarkLessThanValueInRange (part_index : Fin parts.length)
    (value : Values α columns rev) (range : MarkRange) : Option ℕ :=
  let right := partitionPoint
    (fun middle => compareValues (getValue parts columns part_index middle) value = .lt)
    range.begin range.end_
  if right = range.begin then none else some (right - 1)

/-- `findLeftmostMarkGreaterThanValueInRange`. -/
def findLeftmostMarkGreaterThanValueInRange (part_index : Fin parts.length)
    (value : Values α columns rev) (range : MarkRange) : Option ℕ :=
  let left := partitionPoint
    (fun middle => compareValues (getValue parts columns part_index middle) value ≠ .gt)
    range.begin range.end_
  if left = range.end_ then none else some left

end IndexAccess

/-! ## Events -/

/-- `EventType`: at one value, starts come before ends. -/
inductive EventType where
  | RangeStart
  | RangeEnd
  deriving DecidableEq, Repr

/-- The numbers of the enumeration. -/
def EventType.toNat : EventType → ℕ
  | RangeStart => 0
  | RangeEnd => 1

lemma EventType.toNat_injective : Injective EventType.toNat := by
  intro a b h
  cases a <;> cases b <;> first | rfl | cases h

instance linearOrderEventType : LinearOrder EventType :=
  LinearOrder.lift' EventType.toNat EventType.toNat_injective

lemma EventType.start_lt_end : RangeStart < RangeEnd := Nat.zero_lt_one

/-- `PartsRangesIterator`: an end of a range, with the key at it. -/
structure PartsRangesIterator (parts : RangesInDataParts α) (columns : ℕ)
    (in_reverse_order : Bool) where
  value : Values α columns in_reverse_order
  range : MarkRange
  part_index : Fin parts.length
  event : EventType
  selected : Bool

/-- `PartRangeIndex`: a range of a part. -/
structure PartRangeIndex (parts : RangesInDataParts α) where
  part_index : Fin parts.length
  range : MarkRange
  deriving DecidableEq

namespace PartsRangesIterator

variable {parts : RangesInDataParts α} {columns : ℕ} {rev : Bool}

variable (it : PartsRangesIterator parts columns rev)

/-- `ev_mark`. -/
def mark : ℕ :=
  match it.event with
  | .RangeStart => it.range.begin
  | .RangeEnd => it.range.end_

/-- The constructor of `PartRangeIndex`. -/
def index : PartRangeIndex parts :=
  ⟨it.part_index, it.range⟩

variable [LinearOrder α]

/-- `operator<`. -/
def lt (it other : PartsRangesIterator parts columns rev) : Bool :=
  match compareValues it.value other.value with
  | .lt => true
  | .gt => false
  | .eq =>
    if it.event = other.event then
      if !it.selected && other.selected then true
      else if it.selected && !other.selected then false
      else if it.part_index = other.part_index then it.mark < other.mark
      else it.part_index < other.part_index
    else it.event < other.event

/-- What two events are compared by. -/
def key : Values α columns rev ×ₗ EventType ×ₗ Bool ×ₗ Fin parts.length ×ₗ ℕ :=
  toLex (it.value, toLex (it.event, toLex (it.selected, toLex (it.part_index, it.mark))))

/-- `operator<` is the order of the keys. -/
lemma lt_iff {it other : PartsRangesIterator parts columns rev} :
    it.lt other = true ↔ it.key < other.key := by
  rw [lt, key, key, Prod.Lex.toLex_lt_toLex]
  cases hc : compareValues it.value other.value with
  | lt => exact iff_of_true rfl (.inl (compareValues_eq_lt.1 hc))
  | gt =>
    have hlt := compareValues_eq_gt.1 hc
    exact iff_of_false Bool.false_ne_true fun h => h.elim hlt.asymm fun h => hlt.ne' h.1
  | eq =>
    have heq := compareValues_eq_eq.1 hc
    simp only [heq, lt_irrefl, true_and, false_or, Prod.Lex.toLex_lt_toLex]
    have hsame : ∀ a b : Bool, ¬ (!a && b) = true → ¬ (a && !b) = true → a = b := by decide
    split_ifs with hev hsel hsel' hpart
    · simp_all [Bool.lt_iff]
    · simp_all [Bool.lt_iff]
    · simp [hev, hsame _ _ hsel hsel', hpart]
    · simp [hev, hsame _ _ hsel hsel', hpart]
    · simp [hev]

variable {a b : PartsRangesIterator parts columns rev}

lemma value_le_of_key_le (h : a.key ≤ b.key) : a.value ≤ b.value := by
  rw [key, key, Prod.Lex.toLex_le_toLex] at h
  exact h.elim le_of_lt fun h => h.1.le

/-- A start comes before the ends with the same value. -/
lemma value_lt_of_key_lt (h : a.key < b.key)
    (ha : a.event = .RangeEnd) (hb : b.event = .RangeStart) : a.value < b.value := by
  rw [key, key, Prod.Lex.toLex_lt_toLex, Prod.Lex.toLex_lt_toLex, ha, hb] at h
  rcases h with hlt | ⟨-, hev | ⟨hev, -⟩⟩
  · exact hlt
  · exact absurd hev EventType.start_lt_end.asymm
  · exact absurd hev EventType.start_lt_end.ne'

variable (its : List (PartsRangesIterator parts columns rev))

/-- The order of the events with `::sort`; which of two equal ones is first does not matter. -/
def sort : List (PartsRangesIterator parts columns rev) :=
  its.mergeSort fun a b => !b.lt a

lemma sort_perm : (sort its).Perm its := mergeSort_perm its _

lemma sort_sorted : (sort its).Pairwise fun a b => a.key ≤ b.key := by
  have hle : ∀ a b : PartsRangesIterator parts columns rev, (!b.lt a) = true ↔ a.key ≤ b.key := by
    intro a b
    rw [Bool.not_eq_true', ← Bool.not_eq_true, lt_iff, not_lt]
  refine (pairwise_mergeSort ?_ ?_ its).imp fun {a b} h => (hle a b).1 h
  · intro a b c hab hbc
    exact (hle a c).2 (((hle a b).1 hab).trans ((hle b c).1 hbc))
  · intro a b
    simp only [Bool.or_eq_true, hle]
    exact le_total _ _

end PartsRangesIterator

/-! ## The events of the ranges -/

section Events

variable (parts : RangesInDataParts α) (columns : ℕ) (rev : Bool)

/-- The event where a range starts. -/
def startEvent (index : PartRangeIndex parts) : PartsRangesIterator parts columns rev :=
  ⟨getValue parts columns index.part_index index.range.begin, index.range, index.part_index,
    .RangeStart, false⟩

/-- The event where a range ends. -/
def endEvent (index : PartRangeIndex parts) : PartsRangesIterator parts columns rev :=
  ⟨getValue parts columns index.part_index index.range.end_, index.range, index.part_index,
    .RangeEnd, false⟩

variable {parts}

/-- `value_is_defined_at_end_mark`. -/
def EndDefined (index : PartRangeIndex parts) : Prop :=
  index.range.end_ < (parts.get index.part_index).data_part.index_granularity.marks_count

instance decidableEndDefined (index : PartRangeIndex parts) : Decidable (EndDefined index) :=
  inferInstanceAs (Decidable (_ < _))

variable (parts)

/-- What is pushed for a range: its start, and its end if the key there is in the index. -/
def rangeEvents (part_index : Fin parts.length) (range : MarkRange) :
    List (PartsRangesIterator parts columns rev) :=
  startEvent parts columns rev ⟨part_index, range⟩ ::
    if @EndDefined _ parts ⟨part_index, range⟩ then
      [endEvent parts columns rev ⟨part_index, range⟩]
    else []

/-- `parts_ranges`, before it is sorted. -/
def partsRanges : List (PartsRangesIterator parts columns rev) :=
  (List.finRange parts.length).flatMap fun part_index =>
    (parts.get part_index).ranges.flatMap (rangeEvents parts columns rev part_index)

variable {parts columns rev}

/-- A range of the input. -/
def IsInput (index : PartRangeIndex parts) : Prop :=
  index.range ∈ (parts.get index.part_index).ranges

section Input

variable {index : PartRangeIndex parts} (h : WellFormed parts) (hinput : IsInput index)
include h hinput

lemma WellFormed.range_lt : index.range.begin < index.range.end_ :=
  h.nonempty _ (get_mem parts _) _ hinput

lemma WellFormed.end_le : index.range.end_ ≤
    (parts.get index.part_index).data_part.index_granularity.marks_count :=
  (h.bounded _ (get_mem parts _) _ hinput).trans (Nat.sub_le _ _)

end Input

variable {e : PartsRangesIterator parts columns rev}

lemma mem_partsRanges_iff :
    e ∈ partsRanges parts columns rev ↔
      ∃ index, IsInput index ∧ (e = startEvent parts columns rev index ∨
        EndDefined index ∧ e = endEvent parts columns rev index) := by
  simp only [partsRanges, mem_flatMap, mem_finRange, true_and, rangeEvents, List.mem_cons]
  constructor
  · rintro ⟨i, r, hr, he⟩
    refine ⟨⟨i, r⟩, hr, he.imp_right fun he => ?_⟩
    split_ifs at he with hend
    · exact ⟨hend, List.mem_singleton.1 he⟩
    · cases he
  · rintro ⟨⟨i, r⟩, hr, he⟩
    refine ⟨i, r, hr, he.imp_right fun he => ?_⟩
    rw [if_pos he.1]
    exact List.mem_singleton.2 he.2

/-- The start of a range of the input, read off the event itself. -/
lemma eq_startEvent (he : e ∈ partsRanges parts columns rev) (hevent : e.event = .RangeStart) :
    IsInput e.index ∧ e = startEvent parts columns rev e.index := by
  obtain ⟨index, hinput, rfl | ⟨-, rfl⟩⟩ := mem_partsRanges_iff.1 he
  · exact ⟨hinput, rfl⟩
  · cases hevent

lemma eq_endEvent (he : e ∈ partsRanges parts columns rev) (hevent : e.event = .RangeEnd) :
    IsInput e.index ∧ EndDefined e.index ∧ e = endEvent parts columns rev e.index := by
  obtain ⟨index, hinput, rfl | ⟨hend, rfl⟩⟩ := mem_partsRanges_iff.1 he
  · cases hevent
  · exact ⟨hinput, hend, rfl⟩

variable {index : PartRangeIndex parts}

lemma startEvent_mem_iff :
    startEvent parts columns rev index ∈ partsRanges parts columns rev ↔ IsInput index :=
  ⟨fun h => (eq_startEvent h rfl).1, fun h => mem_partsRanges_iff.2 ⟨index, h, .inl rfl⟩⟩

lemma endEvent_mem_iff :
    endEvent parts columns rev index ∈ partsRanges parts columns rev ↔
      IsInput index ∧ EndDefined index :=
  ⟨fun h => ⟨(eq_endEvent h rfl).1, (eq_endEvent h rfl).2.1⟩,
    fun h => mem_partsRanges_iff.2 ⟨index, h.1, .inr ⟨h.2, rfl⟩⟩⟩

variable {a b : PartsRangesIterator parts columns rev}

/-- What an event has besides its value. -/
lemma key_eq_iff :
    a.key = b.key ↔ a.value = b.value ∧ a.event = b.event ∧ a.selected = b.selected ∧
      a.part_index = b.part_index ∧ a.mark = b.mark := by
  simp only [PartsRangesIterator.key, toLex_inj, Prod.mk.injEq]

lemma index_of_mem_rangeEvents {i : Fin parts.length} {r : MarkRange}
    (h : e ∈ rangeEvents parts columns rev i r) : e.part_index = i ∧ e.range = r := by
  rw [rangeEvents, List.mem_cons] at h
  rcases h with rfl | h
  · exact ⟨rfl, rfl⟩
  · split_ifs at h
    · rw [List.mem_singleton.1 h]
      exact ⟨rfl, rfl⟩
    · cases h

/-- Events at the same mark begin or end the same range. -/
lemma mark_ne_of_disjoint (ha : a.range.begin < a.range.end_) (hb : b.range.begin < b.range.end_)
    (h : a.range.end_ ≤ b.range.begin ∨ b.range.end_ ≤ a.range.begin)
    (hevent : a.event = b.event) : a.mark ≠ b.mark := by
  rw [PartsRangesIterator.mark, PartsRangesIterator.mark, hevent]
  cases b.event with
  | RangeStart => dsimp only; omega
  | RangeEnd => dsimp only; omega

/-- No two events of the input are equal in the order. -/
lemma partsRanges_key_ne (h : WellFormed parts) :
    (partsRanges parts columns rev).Pairwise fun a b => a.key ≠ b.key := by
  rw [partsRanges, pairwise_flatMap]
  constructor
  · intro i _
    rw [pairwise_flatMap]
    constructor
    · -- The start and the end of one range.
      intro r _
      rw [rangeEvents, List.pairwise_cons]
      split_ifs
      · simp [key_eq_iff, startEvent, endEvent]
      · simp
    · have hne := h.nonempty _ (get_mem parts i)
      refine (h.disjoint _ (get_mem parts i)).imp_of_mem fun {r r'} hr hr' hdisj a ha b hb => ?_
      obtain ⟨-, rfl⟩ := index_of_mem_rangeEvents ha
      obtain ⟨-, rfl⟩ := index_of_mem_rangeEvents hb
      intro hkey
      obtain ⟨-, hevent, -, -, hmark⟩ := key_eq_iff.1 hkey
      exact mark_ne_of_disjoint (hne _ hr) (hne _ hr') hdisj hevent hmark
  · refine (nodup_finRange parts.length).imp fun {i j} hij a ha b hb hkey => hij ?_
    -- Each of the two is in the events of a range of its part.
    obtain ⟨r, -, ha⟩ := mem_flatMap.1 ha
    obtain ⟨r', -, hb⟩ := mem_flatMap.1 hb
    rw [← (index_of_mem_rangeEvents ha).1, ← (index_of_mem_rangeEvents hb).1]
    exact (key_eq_iff.1 hkey).2.2.2.1

/-- **The events in the order of the sweep.** -/
theorem sort_partsRanges_lt [LinearOrder α] (h : WellFormed parts) :
    (PartsRangesIterator.sort (partsRanges parts columns rev)).Pairwise
      fun a b => a.key < b.key := by
  have hne : (PartsRangesIterator.sort (partsRanges parts columns rev)).Pairwise
      fun a b => a.key ≠ b.key :=
    ((PartsRangesIterator.sort_perm _).pairwise_iff fun hab => hab.symm).2 (partsRanges_key_ne h)
  exact (PartsRangesIterator.sort_sorted _).imp₂ (fun _ _ hle hne => lt_of_le_of_ne hle hne) hne

end Events

/-! ## `RangesInDataPartsBuilder` -/

section Builder

variable (parts : RangesInDataParts α)

/-- The ranges collected so far. An entry of `ranges_in_data_parts` repeats the part it is
for; here it has the part's number, by which the two hash tables find the entry. -/
abbrev RangesInDataPartsBuilder : Type := List (Fin parts.length × MarkRanges)

variable {parts}

/-- The ranges of a part that already has some: `back()`, then extended or pushed to. -/
def addToRanges (ranges : MarkRanges) (mark_range : MarkRange) : MarkRanges :=
  match ranges.getLast? with
  | some back =>
    if back.end_ = mark_range.begin then ranges.dropLast ++ [⟨back.begin, mark_range.end_⟩]
    else ranges ++ [mark_range]
  | none => [mark_range]

/-- `addRange`: a part that is not there yet is put behind the others. -/
def addRange (builder : RangesInDataPartsBuilder parts) (part_index : Fin parts.length)
    (mark_range : MarkRange) : RangesInDataPartsBuilder parts :=
  match builder with
  | [] => [(part_index, [mark_range])]
  | (i, ranges) :: rest =>
    if i = part_index then (i, addToRanges ranges mark_range) :: rest
    else (i, ranges) :: addRange rest part_index mark_range

/-- `getCurrentRangesInDataParts`. -/
def getCurrentRangesInDataParts (builder : RangesInDataPartsBuilder parts) : RangesInDataParts α :=
  builder.map fun entry => { parts.get entry.1 with ranges := entry.2 }

/-- `std::stable_sort` by `part_index_in_query`. -/
def sortByPartIndex (out : RangesInDataParts α) : RangesInDataParts α :=
  out.mergeSort fun lhs rhs => lhs.part_index_in_query ≤ rhs.part_index_in_query

/-- How often a mark has been added. -/
def RangesInDataPartsBuilder.count (builder : RangesInDataPartsBuilder parts)
    (part_index : Fin parts.length) (mark : ℕ) : ℕ :=
  (builder.map fun entry => if entry.1 = part_index then countMark entry.2 mark else 0).sum

/-- Every part has one entry, and its ranges are not empty. -/
structure RangesInDataPartsBuilder.Valid (builder : RangesInDataPartsBuilder parts) : Prop where
  nodup : (builder.map Prod.fst).Nodup
  nonempty : ∀ entry ∈ builder, ∀ r ∈ entry.2, r.begin < r.end_

lemma countMark_append (ranges ranges' : MarkRanges) (mark : ℕ) :
    countMark (ranges ++ ranges') mark = countMark ranges mark + countMark ranges' mark :=
  countP_append

lemma countMark_singleton (range : MarkRange) (mark : ℕ) :
    countMark [range] mark = if mark ∈ range then 1 else 0 := by
  rw [countMark, countP_singleton]
  simp only [decide_eq_true_eq]

variable {ranges : MarkRanges}

variable (hranges : ∀ r ∈ ranges, r.begin < r.end_) (hrange : range.begin < range.end_)

include hranges hrange in
lemma countMark_addToRanges (mark : ℕ) :
    countMark (addToRanges ranges range) mark =
      countMark ranges mark + if mark ∈ range then 1 else 0 := by
  rw [addToRanges]
  rcases eq_nil_or_concat ranges with rfl | ⟨init, back, rfl⟩
  · simp [countMark]
  have hback := hranges back (by simp)
  simp only [concat_eq_append, getLast?_concat, dropLast_concat]
  split_ifs with heq hmark hmark
  all_goals
    simp only [countMark_append, countMark_singleton, mem_markRange_iff] at hmark ⊢
    split_ifs <;> omega

include hranges hrange in
lemma nonempty_addToRanges
    : ∀ r ∈ addToRanges ranges range, r.begin < r.end_ := by
  rw [addToRanges]
  rcases eq_nil_or_concat ranges with rfl | ⟨init, back, rfl⟩
  · simpa using hrange
  simp only [concat_eq_append, mem_append, List.mem_singleton] at hranges
  have hback := hranges back (.inr rfl)
  simp only [concat_eq_append, getLast?_concat, dropLast_concat]
  split_ifs with heq
  all_goals
    intro r hr
    simp only [mem_append, List.mem_singleton] at hr
  · rcases hr with hr | rfl
    · exact hranges r (.inl hr)
    · exact hback.trans (heq ▸ hrange)
  · rcases hr with hr | rfl
    · exact hranges r hr
    · exact hrange

namespace RangesInDataPartsBuilder

lemma count_nil (part_index : Fin parts.length) (mark : ℕ) :
    count ([] : RangesInDataPartsBuilder parts) part_index mark = 0 := rfl

lemma count_cons (entry : Fin parts.length × MarkRanges) (builder : RangesInDataPartsBuilder parts)
    (part_index : Fin parts.length) (mark : ℕ) :
    count (entry :: builder) part_index mark =
      (if entry.1 = part_index then countMark entry.2 mark else 0) +
        count builder part_index mark := by
  rw [count, List.map_cons, List.sum_cons, count]

variable {builder : RangesInDataPartsBuilder parts} {entry : Fin parts.length × MarkRanges}

lemma countMark_le_count (h : entry ∈ builder)
    (mark : ℕ) : countMark entry.2 mark ≤ count builder entry.1 mark := by
  refine le_sum_of_mem (mem_map.2 ⟨entry, h, ?_⟩)
  rw [if_pos rfl]

lemma valid_nil : Valid ([] : RangesInDataPartsBuilder parts) := ⟨nodup_nil, by simp⟩

lemma valid_cons_iff :
    Valid (entry :: builder) ↔
      entry.1 ∉ builder.map Prod.fst ∧ (∀ r ∈ entry.2, r.begin < r.end_) ∧ Valid builder := by
  constructor
  · rintro ⟨hnodup, hne⟩
    rw [List.map_cons, nodup_cons] at hnodup
    rw [List.forall_mem_cons] at hne
    exact ⟨hnodup.1, hne.1, hnodup.2, hne.2⟩
  · rintro ⟨hnot, hne, hv⟩
    exact ⟨nodup_cons.2 ⟨hnot, hv.nodup⟩, forall_mem_cons.2 ⟨hne, hv.nonempty⟩⟩

/-- **One more range: one more of each of its marks.** -/
theorem count_addRange (hv : Valid builder)
    (hrange : range.begin < range.end_) (part_index i : Fin parts.length) (mark : ℕ) :
    count (addRange builder part_index range) i mark =
      count builder i mark + if part_index = i ∧ mark ∈ range then 1 else 0 := by
  induction builder with
  | nil =>
    rw [addRange, count_cons, countMark_singleton, ite_and, count_nil, zero_add, add_zero]
  | cons entry rest ih =>
    obtain ⟨j, ranges⟩ := entry
    obtain ⟨-, hne, hrest⟩ := valid_cons_iff.1 hv
    -- the part has an entry already, or the entry is further on
    by_cases hj : j = part_index
    · rw [addRange, if_pos hj, count_cons, count_cons, countMark_addToRanges hne hrange]
      subst hj
      by_cases hji : j = i
      · simp only [hji, if_true, true_and]
        omega
      · simp only [hji, if_false, false_and]
        omega
    · rw [addRange, if_neg hj, count_cons, count_cons, ih hrest]
      omega

lemma map_fst_addRange (builder : RangesInDataPartsBuilder parts) (part_index : Fin parts.length)
    (range : MarkRange) {i : Fin parts.length} :
    i ∈ (addRange builder part_index range).map Prod.fst ↔
      i ∈ builder.map Prod.fst ∨ i = part_index := by
  induction builder with
  | nil => simp [addRange]
  | cons entry rest ih =>
    rw [addRange]
    split_ifs with hj
    · simp only [List.map_cons, List.mem_cons]
      rw [hj]
      tauto
    · simp only [List.map_cons, List.mem_cons, ih]
      tauto

lemma Valid.addRange (hv : Valid builder)
    (hrange : range.begin < range.end_) (part_index : Fin parts.length) :
    Valid (addRange builder part_index range) := by
  induction builder with
  | nil =>
    rw [PartsSplitter.addRange, valid_cons_iff]
    exact ⟨by simp, by simpa using hrange, valid_nil⟩
  | cons entry rest ih =>
    obtain ⟨hnot, hne, hrest⟩ := valid_cons_iff.1 hv
    rw [PartsSplitter.addRange]
    split_ifs with hj
    · exact valid_cons_iff.2 ⟨hnot, nonempty_addToRanges hne hrange, hrest⟩
    · refine valid_cons_iff.2 ⟨?_, hne, ih hrest⟩
      rw [map_fst_addRange]
      exact fun h => h.elim hnot hj

end RangesInDataPartsBuilder

/-! ### Ranges that do not intersect -/

lemma countMark_cons (range : MarkRange) (ranges : MarkRanges) (mark : ℕ) :
    countMark (range :: ranges) mark = countMark ranges mark + if mark ∈ range then 1 else 0 := by
  rw [countMark, countP_cons, countMark]
  simp only [decide_eq_true_eq]

lemma countMark_pos_iff {mark : ℕ} : 0 < countMark ranges mark ↔ ∃ r ∈ ranges, mark ∈ r := by
  rw [countMark, countP_pos_iff]
  simp only [decide_eq_true_eq]

lemma countMark_le_one (h : ranges.Pairwise fun r r' => r.end_ ≤ r'.begin ∨ r'.end_ ≤ r.begin)
    (mark : ℕ) : countMark ranges mark ≤ 1 := by
  induction ranges with
  | nil => exact Nat.zero_le 1
  | cons range ranges ih =>
    rw [List.pairwise_cons] at h
    rw [countMark_cons]
    split_ifs with hmem
    · -- The mark is in this range, so in none of the others.
      have hzero : ¬ 0 < countMark ranges mark := by
        rw [countMark_pos_iff]
        rintro ⟨r, hr, hmem'⟩
        rw [mem_markRange_iff] at hmem hmem'
        rcases h.1 r hr with hle | hle <;> omega
      omega
    · exact ih h.2

/-- Ranges that never have a mark twice are disjoint. -/
lemma disjoint_of_countMark_le_one (hne : ∀ r ∈ ranges, r.begin < r.end_)
    (h : ∀ mark, countMark ranges mark ≤ 1) :
    ranges.Pairwise fun r r' => r.end_ ≤ r'.begin ∨ r'.end_ ≤ r.begin := by
  induction ranges with
  | nil => exact Pairwise.nil
  | cons range ranges ih =>
    rw [List.forall_mem_cons] at hne
    refine pairwise_cons.2 ⟨fun r hr => ?_, ih hne.2 fun mark => ?_⟩
    · by_contra hmeet
      push Not at hmeet
      have hnonempty := hne.2 r hr
      -- The greater of the two beginnings would be counted twice.
      have htwice := h (max range.begin r.begin)
      have hpos : 0 < countMark ranges (max range.begin r.begin) :=
        countMark_pos_iff.2 ⟨r, hr, mem_markRange_iff.2 (by omega)⟩
      rw [countMark_cons, if_pos (mem_markRange_iff.2 (by omega))] at htwice
      omega
    · have hle := h mark
      rw [countMark_cons] at hle
      omega

/-- What is counted for one part of all is counted in its own share. -/
lemma countP_flatMap_finRange {β : Type*} {n : ℕ} (f : Fin n → List β) (p : β → Bool)
    (i : Fin n) (h : ∀ j, j ≠ i → ∀ x ∈ f j, p x = false) :
    ((finRange n).flatMap f).countP p = (f i).countP p := by
  rw [countP_flatMap, ← Fin.sum_univ_def]
  refine sum_eq_single i (fun j _ hj => ?_) fun hi => absurd (mem_univ i) hi
  rw [comp_apply, countP_eq_zero]
  exact fun x hx => by rw [h j hj x hx]; exact Bool.false_ne_true

/-! ### The output -/

lemma sortByPartIndex_perm (out : RangesInDataParts α) : (sortByPartIndex out).Perm out :=
  mergeSort_perm out _

/-- An output has parts of the input, with other ranges. -/
lemma mem_sortByPartIndex_iff {builder : RangesInDataPartsBuilder parts}
    {part : RangesInDataPart α} :
    part ∈ sortByPartIndex (getCurrentRangesInDataParts builder) ↔
      ∃ entry ∈ builder, part = { parts.get entry.1 with ranges := entry.2 } := by
  rw [(sortByPartIndex_perm _).mem_iff, getCurrentRangesInDataParts, List.mem_map]
  exact exists_congr fun _ => and_congr_right fun _ => eq_comm

lemma WellFormed.part_index_injective (h : WellFormed parts) :
    Injective fun i : Fin parts.length => (parts.get i).part_index_in_query := by
  intro i j hij
  by_contra hne
  rcases lt_or_gt_of_ne hne with hlt | hlt
  · exact pairwise_iff_get.1 h.distinct i j hlt hij
  · exact pairwise_iff_get.1 h.distinct j i hlt hij.symm

lemma timesRead_sortByPartIndex (h : WellFormed parts)
    (builder : RangesInDataPartsBuilder parts) (i : Fin parts.length) (mark : ℕ) :
    timesRead (sortByPartIndex (getCurrentRangesInDataParts builder))
        (parts.get i).part_index_in_query mark =
      builder.count i mark := by
  rw [timesRead, ((sortByPartIndex_perm _).map _).sum_eq, getCurrentRangesInDataParts,
    List.map_map, RangesInDataPartsBuilder.count]
  congr 1
  refine map_congr_left fun entry _ => ?_
  simp only [comp_apply, h.part_index_injective.eq_iff]

end Builder

/-! ## What is known of the index -/

lemma loadedColumns_le {parts : RangesInDataParts α} (max_columns : ℕ) :
    loadedColumns parts max_columns ≤ max_columns ∧
      ∀ p ∈ parts, loadedColumns parts max_columns ≤ p.data_part.index_size := by
  rw [loadedColumns]
  induction parts generalizing max_columns with
  | nil => simp
  | cons part parts ih =>
    obtain ⟨hmax, hparts⟩ := ih (min max_columns part.data_part.index_size)
    rw [foldl_cons, List.forall_mem_cons]
    exact ⟨hmax.trans (min_le_left _ _), hmax.trans (min_le_right _ _), hparts⟩

/-- The values that are read are of columns which every part has loaded, and the parts are
sorted in the direction of the comparisons. -/
structure Indexed [LinearOrder α] (parts : RangesInDataParts α) (columns : ℕ)
    (in_reverse_order : Bool) : Prop where
  columns_le : ∀ p ∈ parts, columns ≤ p.data_part.index_size
  sorted : ∀ p ∈ parts, p.data_part.Sorted in_reverse_order

namespace Indexed

variable [LinearOrder α] {parts : RangesInDataParts α} {columns : ℕ} {rev : Bool}

lemma loadedColumns (hsorted : ∀ p ∈ parts, p.data_part.Sorted rev) (max_columns : ℕ) :
    Indexed parts (loadedColumns parts max_columns) rev :=
  ⟨(loadedColumns_le max_columns).2, hsorted⟩

lemma getValue_mono (h : Indexed parts columns rev) (i : Fin parts.length) {m m' : ℕ}
    (hle : m ≤ m') (hm' : m' < (parts.get i).data_part.index_granularity.marks_count) :
    (getValue parts columns i m : Values α columns rev) ≤ getValue parts columns i m' :=
  Values.ofKey_le_of_le (h.columns_le _ (get_mem _ _))
    (h.sorted _ (get_mem _ _) hle hm')

variable {i : Fin parts.length}

section

variable {m : ℕ} {key : ℕ → Field α} (h : Indexed parts columns rev)
  (hrow : (parts.get i).data_part.RowAt rev m key)
include h hrow

lemma getValue_le_of_rowAt :
    (getValue parts columns i m : Values α columns rev) ≤ Values.ofKey key :=
  Values.ofKey_le_of_le (h.columns_le _ (get_mem _ _)) hrow.1

lemma le_getValue_of_rowAt (hm : m + 1 < (parts.get i).data_part.index_granularity.marks_count) :
    (Values.ofKey key : Values α columns rev) ≤ getValue parts columns i (m + 1) :=
  Values.ofKey_le_of_le (h.columns_le _ (get_mem _ _)) (hrow.2 hm)

end

section

variable {range : MarkRange} (h : Indexed parts columns rev) (hrange : range.begin ≤ range.end_)
  (hend : range.end_ ≤ (parts.get i).data_part.index_granularity.marks_count)
include h hrange hend

/-- The rightmost mark with a lesser key, if there is one. -/
lemma findRightmost_eq_some {value : Values α columns rev} {e : ℕ}
    (hfind : findRightmostMarkLessThanValueInRange parts i value range = some e) :
    range.begin ≤ e ∧ e < range.end_ ∧ getValue parts columns i e < value := by
  obtain ⟨hl, hr, hiff⟩ := partitionPoint_spec
    (p := fun middle => compareValues (getValue parts columns i middle) value = .lt) hrange
    fun a b _ hab hb hlt => by
      rw [decide_eq_true_iff, compareValues_eq_lt] at hlt ⊢
      exact (h.getValue_mono i hab (hb.trans_le hend)).trans_lt hlt
  rw [findRightmostMarkLessThanValueInRange] at hfind
  split_ifs at hfind with hbegin
  obtain rfl := Option.some.inj hfind
  have hlt := (hiff _ (by omega) (by omega)).2 (Nat.sub_one_lt (by omega))
  rw [decide_eq_true_iff, compareValues_eq_lt] at hlt
  exact ⟨by omega, by omega, hlt⟩

/-- The leftmost mark with a greater key, if there is one. -/
lemma findLeftmost_eq_some {value : Values α columns rev} {b : ℕ}
    (hfind : findLeftmostMarkGreaterThanValueInRange parts i value range = some b) :
    range.begin ≤ b ∧ b < range.end_ ∧ value < getValue parts columns i b := by
  obtain ⟨hl, hr, hiff⟩ := partitionPoint_spec
    (p := fun middle => compareValues (getValue parts columns i middle) value ≠ .gt) hrange
    fun a b _ hab hb hle => by
      rw [decide_eq_true_iff, ne_eq, compareValues_eq_gt, not_lt] at hle ⊢
      exact (h.getValue_mono i hab (hb.trans_le hend)).trans hle
  rw [findLeftmostMarkGreaterThanValueInRange] at hfind
  split_ifs at hfind with hbegin
  obtain rfl := Option.some.inj hfind
  have hlt := (hiff _ hl (by omega)).not.2 (lt_irrefl _)
  rw [decide_eq_true_iff, not_not, compareValues_eq_gt] at hlt
  exact ⟨hl, by omega, hlt⟩

end

lemma key_startEvent_lt (h : Indexed parts columns rev) {index : PartRangeIndex parts}
    (hne : index.range.begin ≤ index.range.end_) (hend : EndDefined index) :
    (startEvent parts columns rev index).key < (endEvent parts columns rev index).key := by
  rw [PartsRangesIterator.key, PartsRangesIterator.key, Prod.Lex.toLex_lt_toLex]
  rcases (h.getValue_mono index.part_index hne hend).lt_or_eq with hlt | heq
  · exact .inl hlt
  · exact .inr ⟨heq, Prod.Lex.toLex_lt_toLex.2 (.inl EventType.start_lt_end)⟩

end Indexed

/-! ## A small input -/

/-- A part of level 1 with one key column, two marks and the final one. -/
def samplePart (keys : List ℕ) : DataPart ℕ :=
  ⟨1, ⟨3, true, fun _ => by decide⟩, fun _ => 8192, 1, fun _ mark => .value (keys.getD mark 0)⟩

/-- Two parts, with the marks at 0, 5, 10 and at 3, 7, 12. -/
def sampleParts (ranges ranges' : MarkRanges) : RangesInDataParts ℕ :=
  [⟨samplePart [0, 5, 10], 0, 0, ranges⟩, ⟨samplePart [3, 7, 12], 1, 0, ranges'⟩]

lemma samplePart_sorted :
    (samplePart [0, 5, 10]).Sorted false ∧ (samplePart [3, 7, 12]).Sorted false := by
  constructor
  all_goals
    intro m m' hle hm'
    have hm' : m' < 3 := hm'
    interval_cases m' <;> interval_cases m <;> decide

lemma sampleParts_sorted (ranges ranges' : MarkRanges) :
    ∀ p ∈ sampleParts ranges ranges', p.data_part.Sorted false := by
  simp only [sampleParts, List.forall_mem_cons]
  exact ⟨samplePart_sorted.1, samplePart_sorted.2, by simp⟩

end ClickHouse.PartsSplitter
