/-
`splitPartsRanges` (`src/Processors/QueryPlan/PartsSplitter.cpp`): which marks of the parts
can be read with `FINAL` without merging.

The starts and the ends of all ranges are sorted by the key, and a sweep over them keeps the
ranges that are open. Where a single range is open, marks of it may have keys that no other
range has: these go to the non-intersecting output, everything else to the intersecting one.

A step looks at the event before it, so the invariant (`Swept`) is about a list of events
cut in three: those done, the last of them, and those still to come. From the order of the
events it follows that, when one range is open, every other one has ended in the past or
starts in the future (`ended_or_starts`). Each of the cases of the source adds a piece whose
keys are apart from both, with the same lemma (`safe_of_apart`); the marks are accounted for
by a sum over the two builders and the open ranges, which a step changes by the marks of the
range it starts.

The table of the open ranges is walked in an unspecified order, which is a parameter.
-/
import ClickHouse.QueryPlan.PartsRanges

set_option autoImplicit false

namespace ClickHouse.PartsSplitter

open Lib List HashTable
open PartsRangesIterator (sort sort_perm value_le_of_key_le value_lt_of_key_lt)
open AList (lookup_isSome mem_insert)

variable {α : Type*} [LinearOrder α] {parts : RangesInDataParts α} {columns : ℕ} {rev : Bool}

/-! ## The function -/

/-- The two builders and `part_index_start_to_range`. -/
structure SplitState (parts : RangesInDataParts α) where
  intersecting : RangesInDataPartsBuilder parts
  non_intersecting : RangesInDataPartsBuilder parts
  part_index_start_to_range : HashTable (PartRangeIndex parts) MarkRange

/-- A shorter piece is left with the intersecting ranges. -/
def min_number_of_marks_for_non_intersecting_range : ℕ := 2

/-- `data_part->info.level` of a part. -/
def level (parts : RangesInDataParts α) (part_index : Fin parts.length) : ℕ :=
  (parts.get part_index).data_part.level

namespace SplitState

def empty : SplitState parts := ⟨[], [], ∅⟩

variable (s : SplitState parts)

/-- `part_index_start_to_range[index]`; a missing entry would be made with a range that is not
initialised. -/
def rangeAt (index : PartRangeIndex parts) : Eval MarkRange :=
  match s.part_index_start_to_range.lookup index with
  | some range => .ok range
  | none => .error .undefined_behaviour

@[simps] def setRange (index : PartRangeIndex parts) (range : MarkRange) : SplitState parts :=
  { s with part_index_start_to_range := s.part_index_start_to_range.insert index range }

/-- `part_index_start_to_range.erase(index)`. -/
@[simps] def close (index : PartRangeIndex parts) : SplitState parts :=
  { s with part_index_start_to_range := s.part_index_start_to_range.erase index }

@[simps] def addIntersecting (part_index : Fin parts.length) (range : MarkRange) :
    SplitState parts :=
  { s with intersecting := addRange s.intersecting part_index range }

@[simps] def addNonIntersecting (part_index : Fin parts.length)
    (range : MarkRange) : SplitState parts :=
  { s with non_intersecting := addRange s.non_intersecting part_index range }

end SplitState

/-- A start after a start: the marks before the new range are only in the previous one. -/
def startAfterStart (previous current : PartsRangesIterator parts columns rev)
    (s : SplitState parts) : Eval (SplitState parts) :=
  -- a part of level 0 may have a key twice
  if level parts previous.part_index = 0 then .ok s
  else
    match findRightmostMarkLessThanValueInRange parts previous.part_index current.value
        previous.range with
    | none => .ok s
    | some end_ =>
      let begin := previous.range.begin
      if min_number_of_marks_for_non_intersecting_range ≤ end_ - begin then do
        let range ← s.rangeAt previous.index
        return (s.setRange previous.index ⟨end_, range.end_⟩).addNonIntersecting
          previous.part_index ⟨begin, end_⟩
      else .ok s

variable (order : HashOrder (PartRangeIndex parts) MarkRange)

/-- A start after an end. The source sets both bounds of the piece to the same mark, so it
is never long enough. -/
def startAfterEnd
    (previous current : PartsRangesIterator parts columns rev) (s : SplitState parts) :
    Eval (SplitState parts) :=
  -- the range that is open beside the current one
  match (order.walk s.part_index_start_to_range).find? fun entry => entry.1 ≠ current.index with
  | none => throwException .LOGICAL_ERROR (str "PartsSplitter expected single other interval")
  | some other =>
    let other_part_index := other.1.part_index
    let other_range := other.2
    -- a part of level 0 may have a key twice
    if level parts other_part_index = 0 then .ok s
    else
      match findLeftmostMarkGreaterThanValueInRange parts other_part_index previous.value
          other_range with
      | none => .ok s
      | some _ =>
        match findRightmostMarkLessThanValueInRange parts other_part_index current.value
            other_range with
        | none => .ok s
        | some end_ =>
          let begin := end_
          if min_number_of_marks_for_non_intersecting_range ≤ end_ - begin then
            .ok (((s.setRange other.1 ⟨end_, other_range.end_⟩).addIntersecting other_part_index
              ⟨other_range.begin, begin⟩).addNonIntersecting other_part_index ⟨begin, end_⟩)
          else .ok s

/-- A range starts. Only with one other range open is there a piece of its own to cut off. -/
def rangeStart (previous current : PartsRangesIterator parts columns rev) (s : SplitState parts) :
    Eval (SplitState parts) :=
  let intersecting_parts := s.part_index_start_to_range.keys.length
  if current.index ∈ s.part_index_start_to_range then
    throwException .LOGICAL_ERROR (str "PartsSplitter expected unique range")
  else
    let s := s.setRange current.index current.range
    if intersecting_parts ≠ 1 then .ok s
    else
      match previous.event with
      | .RangeStart => startAfterStart previous current s
      | .RangeEnd => startAfterEnd order previous current s

/-- An end after an end: the marks after the range that ended last are only in this one. -/
def endAfterEnd (previous current : PartsRangesIterator parts columns rev)
    (s : SplitState parts) : Eval (SplitState parts) := do
  let end_ := current.range.end_
  let range ← s.rangeAt current.index
  match findLeftmostMarkGreaterThanValueInRange parts current.part_index previous.value
      current.range with
  | some begin =>
    if min_number_of_marks_for_non_intersecting_range ≤ end_ - begin then
      return ((s.addIntersecting current.part_index ⟨range.begin, begin⟩).addNonIntersecting
        current.part_index ⟨begin, end_⟩).close current.index
    else
      return (s.addIntersecting current.part_index ⟨range.begin, end_⟩).close current.index
  | none => return (s.addIntersecting current.part_index ⟨range.begin, end_⟩).close current.index

/-- A range ends. Only if no other range is open is there a piece of its own to cut off. -/
def rangeEnd (previous current : PartsRangesIterator parts columns rev) (s : SplitState parts) :
    Eval (SplitState parts) :=
  if s.part_index_start_to_range.keys.length ≠ 1 ∨ level parts current.part_index = 0 then do
    let range ← s.rangeAt current.index
    return (s.addIntersecting current.part_index range).close current.index
  else
    match previous.event with
    | .RangeStart =>
      .ok ((s.addNonIntersecting current.part_index current.range).close current.index)
    | .RangeEnd => endAfterEnd previous current s

/-- One iteration, by the event. -/
def splitStep (previous current : PartsRangesIterator parts columns rev) (s : SplitState parts) :
    Eval (SplitState parts) :=
  match current.event with
  | .RangeStart => rangeStart order previous current s
  | .RangeEnd => rangeEnd previous current s

/-- The loop over `parts_ranges`, from its second element on. -/
def splitLoop (order : HashOrder (PartRangeIndex parts) MarkRange) :
    PartsRangesIterator parts columns rev → List (PartsRangesIterator parts columns rev) →
      SplitState parts → Eval (SplitState parts)
  | _, [], s => .ok s
  | previous, current :: rest, s => do
    let s ← splitStep order previous current s
    splitLoop order current rest s

structure SplitPartsRangesResult (α : Type*) where
  non_intersecting_parts_ranges : RangesInDataParts α
  intersecting_parts_ranges : RangesInDataParts α

/-- `splitPartsRanges`; it is called with some range to read, `parts_ranges[0]` is otherwise out
of bounds. -/
def splitPartsRanges (parts : RangesInDataParts α) (in_reverse_order : Bool)
    (order : HashOrder (PartRangeIndex parts) MarkRange) : Eval (SplitPartsRangesResult α) :=
  let columns := loadedColumns parts allColumns
  match PartsRangesIterator.sort (partsRanges parts columns in_reverse_order) with
  | [] => .error .undefined_behaviour
  | first :: rest =>
    (splitLoop order first rest (SplitState.empty.setRange first.index first.range)).map fun s =>
      -- The ranges whose end is not in the index are still open.
      let intersecting := (order.walk s.part_index_start_to_range).foldl
        (fun builder entry => addRange builder entry.1.part_index entry.2) s.intersecting
      ⟨sortByPartIndex (getCurrentRangesInDataParts s.non_intersecting),
        sortByPartIndex (getCurrentRangesInDataParts intersecting)⟩

/-! ## Keys that no other part has -/

section Safe

variable (columns rev)

/-- All keys of a range come before those of a mark, or all after. -/
def Apart (i : Fin parts.length) (mark : ℕ) (index : PartRangeIndex parts) : Prop :=
  EndDefined index ∧
      (getValue parts columns index.part_index index.range.end_ : Values α columns rev) <
        getValue parts columns i mark ∨
    mark + 1 < (parts.get i).data_part.index_granularity.marks_count ∧
      (getValue parts columns i (mark + 1) : Values α columns rev) <
        getValue parts columns index.part_index index.range.begin

/-- A mark that may go to the non-intersecting output. -/
def Safe (i : Fin parts.length) (mark : ℕ) : Prop :=
  level parts i ≠ 0 ∧
    ∀ index : PartRangeIndex parts, IsInput index → index.part_index ≠ i →
      Apart columns rev i mark index

variable {columns rev} (hidx : Indexed parts columns rev) {i : Fin parts.length}

include hidx in
/-- A piece of a range is safe if its two ends are apart from the other ranges. -/
lemma safe_of_apart (hlevel : level parts i ≠ 0) (piece : MarkRange)
    (hend : piece.end_ < (parts.get i).data_part.index_granularity.marks_count)
    (happart : ∀ index : PartRangeIndex parts, IsInput index → index.part_index ≠ i →
      EndDefined index ∧
          (getValue parts columns index.part_index index.range.end_ : Values α columns rev) <
            getValue parts columns i piece.begin ∨
        (getValue parts columns i piece.end_ : Values α columns rev) <
          getValue parts columns index.part_index index.range.begin)
    {mark : ℕ} (hmark : mark ∈ piece) : Safe columns rev i mark := by
  have hnext : mark + 1 ≤ piece.end_ := hmark.2
  refine ⟨hlevel, fun index hinput hpart => ?_⟩
  rcases happart index hinput hpart with ⟨hdef, hlt⟩ | hlt
  · have hmono := hidx.getValue_mono i hmark.1 (hmark.2.trans hend)
    exact .inl ⟨hdef, hlt.trans_le hmono⟩
  · have hmono := hidx.getValue_mono i hnext hend
    exact .inr ⟨hnext.trans_lt hend, hmono.trans_lt hlt⟩

include hidx in
lemma key_ne_of_safe {mark : ℕ} (hsafe : Safe columns rev i mark)
    {index : PartRangeIndex parts} (hinput : IsInput index) (hpart : index.part_index ≠ i)
    (hend : index.range.end_ ≤ (parts.get index.part_index).data_part.index_granularity.marks_count)
    {mark' : ℕ} (hmark' : mark' ∈ index.range) {key key' : ℕ → Field α}
    (hrow : (parts.get i).data_part.RowAt rev mark key)
    (hrow' : (parts.get index.part_index).data_part.RowAt rev mark' key') :
    (Values.ofKey key : Values α columns rev) ≠ Values.ofKey key' := by
  have hnext : mark' + 1 ≤ index.range.end_ := hmark'.2
  rcases hsafe.2 index hinput hpart with ⟨hdef, hlt⟩ | ⟨hdef, hlt⟩
  · -- The row of the range comes before its end, and the end before the mark.
    have hle' := (hidx.le_getValue_of_rowAt hrow' (hnext.trans_lt hdef)).trans
      (hidx.getValue_mono index.part_index hnext hdef)
    exact ((hle'.trans_lt hlt).trans_le (hidx.getValue_le_of_rowAt hrow)).ne'
  · have hle' := (hidx.getValue_mono index.part_index hmark'.1 (hmark'.2.trans_le hend)).trans
      (hidx.getValue_le_of_rowAt hrow')
    exact (((hidx.le_getValue_of_rowAt hrow hdef).trans_lt hlt).trans_le hle').ne

end Safe

/-! ## The events done and to come -/

/-- The events of the input in their order, cut at the previous one. -/
structure Timeline (done : List (PartsRangesIterator parts columns rev))
    (previous : PartsRangesIterator parts columns rev)
    (todo : List (PartsRangesIterator parts columns rev)) : Prop where
  mem_iff : ∀ e, e ∈ previous :: done ∨ e ∈ todo ↔ e ∈ partsRanges parts columns rev
  before : ∀ e ∈ done, e.key < previous.key
  after : ∀ e ∈ todo, previous.key < e.key
  sorted : todo.Pairwise fun a b => a.key < b.key

namespace Timeline

variable {done todo : List (PartsRangesIterator parts columns rev)}
  {previous current : PartsRangesIterator parts columns rev}

variable (h : Timeline done previous (current :: todo))

include h in
lemma next :
    Timeline (previous :: done) current todo := by
  have hsorted := pairwise_cons.1 h.sorted
  refine ⟨fun e => ?_, ?_, hsorted.1, hsorted.2⟩
  · rw [← h.mem_iff]
    simp only [mem_cons]
    tauto
  · have hprevious := h.after current mem_cons_self
    rw [forall_mem_cons]
    exact ⟨hprevious, fun e he => (h.before e he).trans hprevious⟩

include h in
lemma current_notMem :
    current ∉ previous :: done := fun hmem => (h.next.before current hmem).false

lemma previous_mem (h : Timeline done previous todo) :
    previous ∈ partsRanges parts columns rev := (h.mem_iff previous).1 (.inl mem_cons_self)

include h in
lemma current_mem :
    current ∈ partsRanges parts columns rev :=
  (h.mem_iff current).1 (.inr mem_cons_self)

end Timeline

/-! ## The invariant -/

open SplitState

/-- One for a mark of the part in the range. -/
def holds (i : Fin parts.length) (mark : ℕ) (part_index : Fin parts.length) (range : MarkRange) :
    ℕ :=
  if part_index = i ∧ mark ∈ range then 1 else 0

/-- How many of the ranges that have started hold a mark. -/
def started (events : List (PartsRangesIterator parts columns rev)) (i : Fin parts.length)
    (mark : ℕ) : ℕ :=
  events.countP fun e => e.event = .RangeStart ∧ e.part_index = i ∧ mark ∈ e.range

/-- What is left of a range that is open: its end is that of the range, and where the beginning
has moved, its key there is less than that of some event which has been seen. -/
structure Remains (events : List (PartsRangesIterator parts columns rev))
    (index : PartRangeIndex parts) (range : MarkRange) : Prop where
  end_eq : range.end_ = index.range.end_
  begin_lt : range.begin < range.end_
  moved : range.begin = index.range.begin ∨ index.range.begin ≤ range.begin ∧
    ∃ e ∈ events, getValue parts columns index.part_index range.begin < e.value

/-- The state after the events up to `previous`. -/
structure Swept (done : List (PartsRangesIterator parts columns rev))
    (previous : PartsRangesIterator parts columns rev) (s : SplitState parts) : Prop where
  valid_intersecting : s.intersecting.Valid
  valid_non_intersecting : s.non_intersecting.Valid
  -- the table has the ranges that have started and not ended
  open_iff : ∀ index, index ∈ s.part_index_start_to_range ↔
    startEvent parts columns rev index ∈ previous :: done ∧
      endEvent parts columns rev index ∉ previous :: done
  -- with the marks that are left of them
  remains : ∀ index range, s.part_index_start_to_range.lookup index = some range →
    Remains (previous :: done) index range
  fresh : previous.event = .RangeStart →
    s.part_index_start_to_range.lookup previous.index = some previous.range
  -- each mark of a range that has started is in an output or in the table
  count : ∀ i mark, s.non_intersecting.count i mark + s.intersecting.count i mark +
      HashTable.total (fun index range => holds i mark index.part_index range)
        s.part_index_start_to_range =
    started (previous :: done) i mark
  safe : ∀ i mark, 0 < s.non_intersecting.count i mark → Safe columns rev i mark

variable {e : PartsRangesIterator parts columns rev}

omit [LinearOrder α] in
lemma started_cons_start
    (he : e.event = .RangeStart) (events : List (PartsRangesIterator parts columns rev))
    (i : Fin parts.length) (mark : ℕ) :
    started (e :: events) i mark = started events i mark + holds i mark e.part_index e.range := by
  rw [started, countP_cons, started, holds]
  simp [he]

omit [LinearOrder α] in
lemma started_cons_end (he : e.event = .RangeEnd)
    (events : List (PartsRangesIterator parts columns rev)) (i : Fin parts.length) (mark : ℕ) :
    started (e :: events) i mark = started events i mark := by
  rw [started, countP_cons, started]
  simp [he]

omit [LinearOrder α] in
lemma holds_split (i : Fin parts.length) (mark : ℕ) (part_index : Fin parts.length)
    {a b c : ℕ} (hab : a ≤ b) (hbc : b ≤ c) :
    holds i mark part_index ⟨a, c⟩ =
      holds i mark part_index ⟨a, b⟩ + holds i mark part_index ⟨b, c⟩ := by
  simp only [holds, mem_markRange_iff]
  split_ifs <;> omega

variable {index : PartRangeIndex parts} {s : SplitState parts} {range : MarkRange}

lemma SplitState.rangeAt_eq (h : s.part_index_start_to_range.lookup index = some range) :
    s.rangeAt index = .ok range := by
  rw [rangeAt, h]

lemma Remains.mono {events events' : List (PartsRangesIterator parts columns rev)}
    (h : Remains events index range)
    (hsub : events ⊆ events') : Remains events' index range :=
  ⟨h.end_eq, h.begin_lt, h.moved.imp_right fun ⟨hle, e, he, hlt⟩ => ⟨hle, e, hsub he, hlt⟩⟩

section Step

variable {done todo : List (PartsRangesIterator parts columns rev)}
  {previous current : PartsRangesIterator parts columns rev} {s : SplitState parts}

/-- When one range is open, every other one has ended or is still to start. -/
lemma ended_or_starts (ht : Timeline done previous todo) (hs : Swept done previous s)
    (hone : s.part_index_start_to_range.keys.length = 1) {index₀ index : PartRangeIndex parts}
    (hopen : index₀ ∈ s.part_index_start_to_range) (hinput : IsInput index)
    (hpart : index.part_index ≠ index₀.part_index) :
    EndDefined index ∧ endEvent parts columns rev index ∈ previous :: done ∨
      startEvent parts columns rev index ∈ todo := by
  rcases (ht.mem_iff _).2 (startEvent_mem_iff.2 hinput) with hdone | htodo
  · left
    have hclosed : index ∉ s.part_index_start_to_range := by
      obtain ⟨k, hk⟩ := length_eq_one_iff.1 hone
      rw [AList.mem_keys, hk, mem_singleton] at hopen ⊢
      exact fun h => hpart (congrArg _ (h.trans hopen.symm))
    rw [hs.open_iff, not_and, not_not] at hclosed
    have hend := hclosed hdone
    exact ⟨(endEvent_mem_iff.1 ((ht.mem_iff _).1 (.inl hend))).2, hend⟩
  · exact .inr htodo

variable (hwf : WellFormed parts) (hidx : Indexed parts columns rev)
  (ht : Timeline done previous (current :: todo)) (hs : Swept done previous s)

include hwf hidx ht hs in
/-- **A range starts.** It was not open, and now it is. -/
theorem Swept.start (hevent : current.event = .RangeStart) :
    current.index ∉ s.part_index_start_to_range ∧
      Swept (previous :: done) current (s.setRange current.index current.range) := by
  obtain ⟨hinput, hcurrent⟩ := eq_startEvent ht.current_mem hevent
  have hnonempty : current.range.begin < current.range.end_ := hwf.range_lt hinput
  have hnew : current.index ∉ s.part_index_start_to_range := by
    rw [hs.open_iff, ← hcurrent]
    exact fun h => ht.current_notMem h.1
  refine ⟨hnew, hs.valid_intersecting, hs.valid_non_intersecting, fun index => ?_,
    fun index range hlookup => ?_, fun _ => AList.lookup_insert _, fun i mark => ?_, hs.safe⟩
  · rw [setRange, mem_insert, hs.open_iff]
    by_cases hindex : index = current.index
    · -- Its end is not among the events done: it comes after the start.
      have hend : endEvent parts columns rev index ∉ current :: previous :: done := by
        rw [mem_cons, not_or]
        refine ⟨fun heq => ?_, fun hmem => ?_⟩
        · rw [← heq] at hevent
          cases hevent
        · have hdef := (endEvent_mem_iff.1 ((ht.mem_iff _).1 (.inl hmem))).2
          have hlt := hidx.key_startEvent_lt (hindex ▸ hnonempty.le) hdef
          rw [hindex, ← hcurrent, ← hindex] at hlt
          exact lt_asymm hlt (ht.next.before _ hmem)
      refine iff_of_true (.inl hindex) ⟨?_, hend⟩
      rw [hindex, ← hcurrent]
      exact mem_cons_self
    · -- the event is of another range
      have hstart : startEvent parts columns rev index ≠ current := fun heq =>
        hindex (congrArg PartsRangesIterator.index heq)
      have hend : endEvent parts columns rev index ≠ current := fun heq =>
        hindex (congrArg PartsRangesIterator.index heq)
      rw [mem_cons (b := current), mem_cons (b := current), or_iff_right hindex,
        or_iff_right hstart, or_iff_right hend]
  · rcases of_lookup_insert hlookup with ⟨rfl, rfl⟩ | ⟨-, hlookup⟩
    · exact ⟨rfl, hnonempty, .inl rfl⟩
    · exact (hs.remains index range hlookup).mono (subset_cons_self _ _)
  · -- its marks are counted among those started, and they are in the table now
    have hcount := hs.count i mark
    simp only [setRange, total_insert, HashTable.erase_of_not_mem hnew, started_cons_start hevent]
    change _ + (holds i mark current.part_index current.range + _) = _
    omega

variable {range : MarkRange} {builder : RangesInDataPartsBuilder parts}

omit [LinearOrder α] in
lemma count_addRange_eq (hv : builder.Valid)
    (hrange : range.begin < range.end_) (part_index i : Fin parts.length) (mark : ℕ) :
    (addRange builder part_index range).count i mark =
      builder.count i mark + holds i mark part_index range :=
  RangesInDataPartsBuilder.count_addRange hv hrange part_index i mark

/-- A piece that is safe may be added to the non-intersecting output. -/
lemma safe_addRange (hv : builder.Valid)
    (hsafe : ∀ i mark, 0 < builder.count i mark → Safe columns rev i mark)
    {i : Fin parts.length} {piece : MarkRange} (hpiece : piece.begin < piece.end_)
    (hnew : ∀ mark ∈ piece, Safe columns rev i mark) (j : Fin parts.length) (mark : ℕ)
    (hcount : 0 < (addRange builder i piece).count j mark) : Safe columns rev j mark := by
  rw [count_addRange_eq hv hpiece, holds] at hcount
  split_ifs at hcount with hmark
  · obtain ⟨rfl, hmark⟩ := hmark
    exact hnew mark hmark
  · exact hsafe j mark hcount

/-- **The first marks of the previous range are taken off it.** -/
theorem Swept.peel (hs : Swept (previous :: done) current s) (hne : current.index ≠ previous.index)
    (hlookup : s.part_index_start_to_range.lookup previous.index = some previous.range) {e : ℕ}
    (hbegin : previous.range.begin < e) (hend : e < previous.range.end_)
    (hmoved : getValue parts columns previous.part_index e < current.value)
    (hsafe : ∀ mark ∈ (⟨previous.range.begin, e⟩ : MarkRange),
      Safe columns rev previous.part_index mark) :
    Swept (previous :: done) current
      ((s.setRange previous.index ⟨e, previous.range.end_⟩).addNonIntersecting
        previous.part_index ⟨previous.range.begin, e⟩) := by
  have hvalid := hs.valid_non_intersecting
  refine ⟨hs.valid_intersecting, hvalid.addRange hbegin _, fun index => ?_,
    fun index range hrange => ?_, fun hevent => ?_, fun i mark => ?_,
    safe_addRange hvalid hs.safe hbegin hsafe⟩
  · have hmem : previous.index ∈ s.part_index_start_to_range :=
      lookup_isSome.1 (hlookup ▸ rfl)
    rw [← hs.open_iff]
    simp only [addNonIntersecting, setRange, mem_insert]
    exact or_iff_right_of_imp fun h => h ▸ hmem
  · -- what is left of the previous range starts at `e`, whose value the sweep has passed
    rcases of_lookup_insert hrange with ⟨rfl, rfl⟩ | ⟨-, hrange⟩
    · exact ⟨rfl, hend, .inr ⟨hbegin.le, current, mem_cons_self, hmoved⟩⟩
    · exact hs.remains index range hrange
  · simp only [addNonIntersecting, setRange, AList.lookup_insert_ne hne]
    exact hs.fresh hevent
  · -- The marks of the range are now in two pieces.
    have hcount := hs.count i mark
    rw [total_of_lookup hlookup] at hcount
    have hsplit : holds i mark previous.part_index previous.range =
        holds i mark previous.part_index ⟨previous.range.begin, e⟩ +
          holds i mark previous.part_index ⟨e, previous.range.end_⟩ :=
      holds_split i mark previous.part_index hbegin.le hend.le
    have hadd : (addRange s.non_intersecting previous.part_index
        ⟨previous.range.begin, e⟩).count i mark = _ := count_addRange_eq hvalid hbegin _ i mark
    simp only [addNonIntersecting, setRange, total_insert, hadd]
    change _ + (holds i mark previous.part_index previous.range + _) = _ at hcount
    change _ + (holds i mark previous.part_index ⟨e, previous.range.end_⟩ + _) = _
    omega

include hwf hidx ht hs in
/-- A range that ends is open: its start comes before its end. -/
lemma Swept.lookup_of_end (hevent : current.event = .RangeEnd) :
    ∃ range, s.part_index_start_to_range.lookup current.index = some range := by
  obtain ⟨hinput, hdef, hcurrent⟩ := eq_endEvent ht.current_mem hevent
  have hlt : (startEvent parts columns rev current.index).key < current.key := by
    have hnonempty := hwf.range_lt hinput
    rw [hcurrent]
    exact hidx.key_startEvent_lt hnonempty.le hdef
  have hopen : current.index ∈ s.part_index_start_to_range := by
    rw [hs.open_iff, ← hcurrent]
    refine ⟨?_, ht.current_notMem⟩
    refine ((ht.mem_iff _).2 (startEvent_mem_iff.2 hinput)).resolve_right fun hmem => ?_
    rcases mem_cons.1 hmem with heq | hmem
    · exact hlt.ne (congrArg _ heq)
    · exact lt_asymm hlt (ht.next.after _ hmem)
  exact Option.isSome_iff_exists.1 (lookup_isSome.2 hopen)

include ht hs in
/-- **A range ends.** What was left of it goes to the two outputs. -/
theorem Swept.finish (hevent : current.event = .RangeEnd)
    (hlookup : s.part_index_start_to_range.lookup current.index = some range)
    {s' : SplitState parts} (hint : s'.intersecting.Valid) (hnon : s'.non_intersecting.Valid)
    (htable : s'.part_index_start_to_range = s.part_index_start_to_range.erase current.index)
    (hcount : ∀ i mark, s'.non_intersecting.count i mark + s'.intersecting.count i mark =
      s.non_intersecting.count i mark + s.intersecting.count i mark +
        holds i mark current.part_index range)
    (hsafe : ∀ i mark, 0 < s'.non_intersecting.count i mark → Safe columns rev i mark) :
    Swept (previous :: done) current s' := by
  obtain ⟨-, -, hcurrent⟩ := eq_endEvent ht.current_mem hevent
  refine ⟨hint, hnon, fun index => ?_, fun index range' hrange => ?_, fun h => ?_,
    fun i mark => ?_, hsafe⟩
  · -- the event is an end, so no range is begun
    have hstart : startEvent parts columns rev index ≠ current := fun heq => by
      rw [← heq] at hevent
      cases hevent
    have hend : endEvent parts columns rev index = current ↔ index = current.index :=
      ⟨fun heq => congrArg PartsRangesIterator.index heq, fun heq => by rw [heq, ← hcurrent]⟩
    rw [htable, AList.mem_erase, hs.open_iff, mem_cons (b := current),
      mem_cons (b := current), or_iff_right hstart, hend, not_or]
    tauto
  · rw [htable] at hrange
    have hindex : index ≠ current.index := by
      rintro rfl
      rw [AList.lookup_erase] at hrange
      cases hrange
    rw [AList.lookup_erase_ne hindex] at hrange
    exact (hs.remains index range' hrange).mono (subset_cons_self _ _)
  · rw [hevent] at h
    cases h
  · have hold := hs.count i mark
    rw [total_of_lookup hlookup] at hold
    rw [started_cons_end hevent, htable, hcount]
    change _ + (holds i mark current.part_index range + _) = _ at hold
    omega

variable {index : PartRangeIndex parts}

/-- Ranges that ended before another one started have lesser keys. -/
lemma lt_of_ended (ht : Timeline done previous todo) (hevent : previous.event = .RangeStart)
    (hmem : endEvent parts columns rev index ∈ previous :: done) :
    (endEvent parts columns rev index).value < previous.value := by
  rcases mem_cons.1 hmem with heq | hmem
  · rw [← heq] at hevent
    cases hevent
  · exact value_lt_of_key_lt (ht.before _ hmem) rfl hevent

include hwf hidx ht hs in
/-- A start after a start cuts off the marks before the new range. -/
lemma startAfterStart_spec
    (hevent : current.event = .RangeStart) (hprevious : previous.event = .RangeStart)
    (hone : s.part_index_start_to_range.keys.length = 1) :
    ∃ s', startAfterStart previous current (s.setRange current.index current.range) = .ok s' ∧
      Swept (previous :: done) current s' := by
  obtain ⟨hnew, hs'⟩ := hs.start hwf hidx ht hevent
  obtain ⟨hinput, hstart⟩ := eq_startEvent ht.previous_mem hprevious
  have hfresh := hs.fresh hprevious
  have hopen : previous.index ∈ s.part_index_start_to_range := lookup_isSome.1 (hfresh ▸ rfl)
  have hne : current.index ≠ previous.index := fun h => hnew (h ▸ hopen)
  have hrange : previous.range.begin < previous.range.end_ := hwf.range_lt hinput
  have hmarks : previous.range.end_ ≤
      (parts.get previous.part_index).data_part.index_granularity.marks_count :=
    hwf.end_le hinput
  rw [startAfterStart]
  split_ifs with hlevel
  · -- a part of level 0 keeps all its marks
    exact ⟨_, rfl, hs'⟩
  cases hfind : findRightmostMarkLessThanValueInRange parts previous.part_index current.value
      previous.range with
  | none => exact ⟨_, rfl, hs'⟩
  | some e =>
    obtain ⟨hle, hlt, hvalue⟩ := hidx.findRightmost_eq_some hrange.le hmarks hfind
    dsimp only
    split_ifs with hlong
    · -- enough marks are before the value: they are taken off the range
      have hbegin : previous.range.begin < e := by
        rw [min_number_of_marks_for_non_intersecting_range] at hlong
        omega
      have hlookup : (s.setRange current.index current.range).part_index_start_to_range.lookup
          previous.index = some previous.range := by
        rw [setRange_part_index_start_to_range, AList.lookup_insert_ne hne.symm, hfresh]
      rw [rangeAt_eq hlookup]
      refine ⟨_, rfl, hs'.peel hne hlookup hbegin hlt hvalue fun mark hmark => ?_⟩
      refine safe_of_apart hidx hlevel ⟨previous.range.begin, e⟩ (hlt.trans_le hmarks)
        (fun index hindex hpart => ?_) hmark
      rcases ended_or_starts ht hs hone hopen hindex hpart with ⟨hdef, hmem⟩ | hmem
      · -- It ended before the previous range started.
        have hended := lt_of_ended ht hprevious hmem
        rw [hstart] at hended
        exact .inl ⟨hdef, hended⟩
      · -- it starts with the current event or later
        right
        refine hvalue.trans_le ?_
        rcases mem_cons.1 hmem with heq | hmem
        · rw [← heq]
          exact le_rfl
        · exact value_le_of_key_le (ht.next.after _ hmem).le
    · -- too few marks for a range of their own
      exact ⟨_, rfl, hs'⟩

/-- A start after an end changes nothing more than that a range is open. -/
lemma startAfterEnd_eq (hother : ∃ index ∈ s.part_index_start_to_range, index ≠ current.index) :
    startAfterEnd order previous current s = .ok s := by
  have hfind : ((order.walk s.part_index_start_to_range).find? fun entry =>
      entry.1 ≠ current.index).isSome = true := by
    obtain ⟨index, hmem, hne⟩ := hother
    obtain ⟨range, hrange⟩ := Option.isSome_iff_exists.1 (lookup_isSome.2 hmem)
    rw [find?_isSome]
    exact ⟨⟨index, range⟩, (mem_walk_iff order).2 hrange, decide_eq_true hne⟩
  obtain ⟨other, hother⟩ := Option.isSome_iff_exists.1 hfind
  rw [startAfterEnd, hother]
  dsimp only
  split_ifs
  · rfl
  · split
    · rfl
    · split
      · rfl
      · rw [if_neg (by simp [min_number_of_marks_for_non_intersecting_range])]

include hwf in
/-- A range starts: whichever branch is taken, the state fits the events so far. -/
lemma rangeStart_spec (hidx : Indexed parts columns rev)
    (order : HashOrder (PartRangeIndex parts) MarkRange)
    (ht : Timeline done previous (current :: todo)) (hs : Swept done previous s)
    (hevent : current.event = .RangeStart) :
    ∃ s', rangeStart order previous current s = .ok s' ∧ Swept (previous :: done) current s' := by
  obtain ⟨hnew, hs'⟩ := hs.start hwf hidx ht hevent
  rw [rangeStart, if_neg hnew]
  split_ifs with hone
  · -- more ranges than one were open, or none was
    exact ⟨_, rfl, hs'⟩
  cases hprevious : previous.event with
  | RangeStart => exact startAfterStart_spec hwf hidx ht hs hevent hprevious (not_not.1 hone)
  | RangeEnd =>
    -- one other range is open, and what `startAfterEnd` looks for in it is never long enough
    refine ⟨_, startAfterEnd_eq order ?_, hs'⟩
    obtain ⟨index, hkeys⟩ := length_eq_one_iff.1 (not_not.1 hone)
    have hmem : index ∈ s.part_index_start_to_range := by
      rw [AList.mem_keys, hkeys]
      exact mem_singleton_self index
    refine ⟨index, ?_, fun h => hnew (h ▸ hmem)⟩
    exact (mem_insert _).2 (.inr hmem)

section

variable (hevent : current.event = .RangeEnd)
  (hlookup : s.part_index_start_to_range.lookup current.index = some range)
include ht hs hevent hlookup

/-- What was left of the range goes to the intersecting output as a whole. -/
lemma Swept.finish_intersecting :
    Swept (previous :: done) current
      ((s.addIntersecting current.part_index range).close current.index) := by
  have hvalid := hs.valid_intersecting
  have hrange := (hs.remains _ _ hlookup).begin_lt
  refine hs.finish ht hevent hlookup (hvalid.addRange hrange _) hs.valid_non_intersecting rfl
    (fun i mark => ?_) hs.safe
  simp only [close, addIntersecting, count_addRange_eq hvalid hrange]
  omega

/-- What was left of the range is cut in two, and its last marks go to the non-intersecting
output. -/
lemma Swept.finish_pieces {b : ℕ} (hbegin : range.begin < b) (hend : b < current.range.end_)
    (hsafe : ∀ mark ∈ (⟨b, current.range.end_⟩ : MarkRange),
      Safe columns rev current.part_index mark) :
    Swept (previous :: done) current
      (((s.addIntersecting current.part_index ⟨range.begin, b⟩).addNonIntersecting
        current.part_index ⟨b, current.range.end_⟩).close current.index) := by
  have hvalid := hs.valid_intersecting
  have hvalid' := hs.valid_non_intersecting
  refine hs.finish ht hevent hlookup (hvalid.addRange hbegin _) (hvalid'.addRange hend _) rfl
    (fun i mark => ?_) (safe_addRange hvalid' hs.safe hend hsafe)
  -- the marks that were left are in two pieces
  have hsplit : holds i mark current.part_index range =
      holds i mark current.part_index ⟨range.begin, b⟩ +
        holds i mark current.part_index ⟨b, current.range.end_⟩ := by
    rw [← holds_split i mark current.part_index hbegin.le hend.le]
    exact congrArg _ (congrArg (MarkRange.mk range.begin) (hs.remains _ _ hlookup).end_eq)
  have hint : (addRange s.intersecting current.part_index ⟨range.begin, b⟩).count i mark = _ :=
    count_addRange_eq hvalid hbegin _ i mark
  have hnon : (addRange s.non_intersecting current.part_index
      ⟨b, current.range.end_⟩).count i mark = _ := count_addRange_eq hvalid' hend _ i mark
  simp only [close, addNonIntersecting, addIntersecting, hint, hnon]
  omega

end

include ht in
/-- Ranges that start after another one has ended have greater keys. -/
lemma lt_of_starts (hevent : current.event = .RangeEnd)
    (hmem : startEvent parts columns rev index ∈ current :: todo) :
    current.value < (startEvent parts columns rev index).value := by
  rcases mem_cons.1 hmem with heq | hmem
  · rw [← heq] at hevent
    cases hevent
  · exact value_lt_of_key_lt (ht.next.after _ hmem) hevent rfl

lemma Timeline.value_le (ht : Timeline done previous todo) :
    ∀ e ∈ previous :: done, e.value ≤ previous.value := by
  rw [forall_mem_cons]
  exact ⟨le_rfl, fun e he => value_le_of_key_le (ht.before e he).le⟩

/-- What is left of a range begins at a key that has been passed. -/
lemma Remains.value_le (ht : Timeline done previous todo)
    (hstart : startEvent parts columns rev index ∈ previous :: done)
    (h : Remains (previous :: done) index range) :
    getValue parts columns index.part_index range.begin ≤ previous.value := by
  rcases h.moved with heq | ⟨-, e, he, hlt⟩
  · rw [heq]
    exact ht.value_le _ hstart
  · exact hlt.le.trans (ht.value_le e he)

section

variable (hevent : current.event = .RangeEnd)
include hidx ht hs hevent

section

variable (hone : s.part_index_start_to_range.keys.length = 1)
  (hlevel : level parts current.part_index ≠ 0)
  (hlookup : s.part_index_start_to_range.lookup current.index = some range)
include hone hlevel hlookup

/-- An end after a start, with one range open: both are events of that range. -/
lemma endAfterStart_spec (hprevious : previous.event = .RangeStart) :
    Swept (previous :: done) current
      ((s.addNonIntersecting current.part_index current.range).close current.index) := by
  obtain ⟨-, hdef, hcurrent⟩ := eq_endEvent ht.current_mem hevent
  obtain ⟨-, hstart⟩ := eq_startEvent ht.previous_mem hprevious
  have hopen : current.index ∈ s.part_index_start_to_range := lookup_isSome.1 (hlookup ▸ rfl)
  -- only one range is open
  have hsame : previous.index = current.index := by
    have hopen' : previous.index ∈ s.part_index_start_to_range :=
      lookup_isSome.1 (hs.fresh hprevious ▸ rfl)
    obtain ⟨k, hk⟩ := length_eq_one_iff.1 hone
    rw [AList.mem_keys, hk, mem_singleton] at hopen hopen'
    exact hopen'.trans hopen.symm
  have hrange : range = current.range := by
    have hfresh := hs.fresh hprevious
    rw [hsame, hlookup] at hfresh
    exact (Option.some.inj hfresh).trans (congrArg PartRangeIndex.range hsame)
  subst hrange
  have hvalid := hs.valid_non_intersecting
  have hnonempty := (hs.remains _ _ hlookup).begin_lt
  refine hs.finish ht hevent hlookup hs.valid_intersecting (hvalid.addRange hnonempty _) rfl
    (fun i mark => ?_) (safe_addRange hvalid hs.safe hnonempty fun mark hmark => ?_)
  · simp only [close, addNonIntersecting, count_addRange_eq hvalid hnonempty]
    omega
  refine safe_of_apart hidx hlevel current.range hdef (fun index hindex hpart => ?_) hmark
  rcases ended_or_starts ht hs hone hopen hindex hpart with ⟨hdef', hmem⟩ | hmem
  · -- it ended before this range started
    have hended := lt_of_ended ht hprevious hmem
    rw [hstart, hsame] at hended
    exact .inl ⟨hdef', hended⟩
  · -- it starts after this range ends
    have hstarts := lt_of_starts ht hevent hmem
    rw [hcurrent] at hstarts
    exact .inr hstarts

include hwf in
/-- An end after an end cuts off the marks behind the range that ended before. -/
lemma endAfterEnd_spec :
    ∃ s', endAfterEnd previous current s = .ok s' ∧ Swept (previous :: done) current s' := by
  obtain ⟨hinput, hdef, hcurrent⟩ := eq_endEvent ht.current_mem hevent
  have hremains := hs.remains _ _ hlookup
  have hopen : current.index ∈ s.part_index_start_to_range := lookup_isSome.1 (hlookup ▸ rfl)
  have hwhole : (⟨range.begin, current.range.end_⟩ : MarkRange) = range :=
    congrArg (MarkRange.mk range.begin) hremains.end_eq.symm
  have hplain : Swept (previous :: done) current ((s.addIntersecting current.part_index
      ⟨range.begin, current.range.end_⟩).close current.index) := by
    rw [hwhole]
    exact hs.finish_intersecting ht hevent hlookup
  rw [endAfterEnd, rangeAt_eq hlookup]
  cases hfind : findLeftmostMarkGreaterThanValueInRange parts current.part_index previous.value
      current.range with
  | none => exact ⟨_, rfl, hplain⟩
  | some b =>
    have hnonempty := hwf.range_lt hinput
    obtain ⟨-, hend, hvalue⟩ := hidx.findLeftmost_eq_some hnonempty.le hdef.le hfind
    -- The mark found is after what has been passed, so the range is cut in two.
    have hbegin : range.begin < b := by
      by_contra hle
      have hmono := hidx.getValue_mono current.part_index (not_lt.1 hle)
        (hremains.begin_lt.trans (hremains.end_eq ▸ hdef))
      exact absurd (hvalue.trans_le hmono) (hremains.value_le ht ((hs.open_iff _).1 hopen).1).not_gt
    dsimp only [bind, Except.bind]
    split_ifs with hlong
    · refine ⟨_, rfl, hs.finish_pieces ht hevent hlookup hbegin hend fun mark hmark => ?_⟩
      refine safe_of_apart hidx hlevel ⟨b, current.range.end_⟩ hdef
        (fun index hindex hpart => ?_) hmark
      rcases ended_or_starts ht hs hone hopen hindex hpart with ⟨hdef', hmem⟩ | hmem
      · exact .inl ⟨hdef', (ht.value_le _ hmem).trans_lt hvalue⟩
      · have hstarts := lt_of_starts ht hevent hmem
        rw [hcurrent] at hstarts
        exact .inr hstarts
    · exact ⟨_, rfl, hplain⟩

end

include hwf in
lemma rangeEnd_spec :
    ∃ s', rangeEnd previous current s = .ok s' ∧ Swept (previous :: done) current s' := by
  obtain ⟨range, hlookup⟩ := hs.lookup_of_end hwf hidx ht hevent
  rw [rangeEnd]
  split_ifs with hmany
  · rw [rangeAt_eq hlookup]
    exact ⟨_, rfl, hs.finish_intersecting ht hevent hlookup⟩
  rw [not_or, not_not] at hmany
  obtain ⟨hone, hlevel⟩ := hmany
  cases hprevious : previous.event with
  | RangeStart =>
    exact ⟨_, rfl, endAfterStart_spec hidx ht hs hevent hone hlevel hlookup hprevious⟩
  | RangeEnd => exact endAfterEnd_spec hwf hidx ht hs hevent hone hlevel hlookup

end

end Step

/-! ## The run -/

/-- **The loop keeps the invariant to the last event.** -/
theorem splitLoop_spec (hwf : WellFormed parts) (hidx : Indexed parts columns rev)
    (order : HashOrder (PartRangeIndex parts) MarkRange)
    {done todo : List (PartsRangesIterator parts columns rev)}
    {previous : PartsRangesIterator parts columns rev}
    (ht : Timeline done previous todo) (hs : Swept done previous s) :
    ∃ done' last s', splitLoop order previous todo s = .ok s' ∧ Timeline done' last [] ∧
      Swept done' last s' ∧ (last :: done').Perm (todo ++ previous :: done) := by
  induction todo generalizing done previous s with
  | nil => exact ⟨done, previous, s, rfl, ht, hs, Perm.refl _⟩
  | cons current todo ih =>
    -- one event
    have hstep : ∃ s', splitStep order previous current s = .ok s' ∧
        Swept (previous :: done) current s' := by
      rw [splitStep]
      cases hevent : current.event with
      | RangeStart => exact rangeStart_spec hwf hidx order ht hs hevent
      | RangeEnd => exact rangeEnd_spec hwf hidx ht hs hevent
    obtain ⟨s', hok, hs'⟩ := hstep
    obtain ⟨done', last, s'', hloop, ht', hs'', hperm⟩ := ih ht.next hs'
    refine ⟨done', last, s'', ?_, ht', hs'', hperm.trans ?_⟩
    · rw [splitLoop, hok]
      exact hloop
    · exact perm_middle

section

variable {first : PartsRangesIterator parts columns rev}
  {rest : List (PartsRangesIterator parts columns rev)} (hwf : WellFormed parts)
  (hidx : Indexed parts columns rev) (ht : Timeline [] first rest)
include hwf hidx ht

/-- The first event starts a range. -/
lemma event_of_first : first.event = .RangeStart := by
  cases hevent : first.event with
  | RangeStart => rfl
  | RangeEnd =>
    obtain ⟨hinput, hdef, hfirst⟩ := eq_endEvent ht.previous_mem hevent
    have hnonempty := hwf.range_lt hinput
    have hlt := hidx.key_startEvent_lt hnonempty.le hdef
    rw [← hfirst] at hlt
    rcases (ht.mem_iff _).2 (startEvent_mem_iff.2 hinput) with hmem | hmem
    · exact absurd (congrArg _ (mem_singleton.1 hmem)) hlt.ne
    · exact absurd (ht.after _ hmem) hlt.asymm

/-- The first event opens a range. -/
lemma swept_first : Swept [] first (empty.setRange first.index first.range) := by
  have hevent := event_of_first hwf hidx ht
  obtain ⟨hinput, hfirst⟩ := eq_startEvent ht.previous_mem hevent
  refine ⟨RangesInDataPartsBuilder.valid_nil, RangesInDataPartsBuilder.valid_nil,
    fun index => ?_, fun index range hrange => ?_, fun _ => AList.lookup_insert _,
    fun i mark => ?_, fun i mark hcount => absurd hcount (lt_irrefl 0)⟩
  · -- the table has the first range and no other
    have hstart : startEvent parts columns rev index = first ↔ index = first.index :=
      ⟨fun heq => congrArg PartsRangesIterator.index heq, fun heq => by rw [heq, ← hfirst]⟩
    have hend : endEvent parts columns rev index ≠ first := fun heq => by
      rw [← heq] at hevent
      cases hevent
    rw [setRange_part_index_start_to_range, mem_insert, mem_singleton, mem_singleton, hstart]
    exact ⟨fun h => ⟨h.resolve_right (AList.notMem_empty index), hend⟩, fun h => .inl h.1⟩
  · rcases of_lookup_insert hrange with ⟨rfl, rfl⟩ | ⟨-, hrange⟩
    · exact ⟨rfl, hwf.range_lt hinput, .inl rfl⟩
    · cases hrange
  · rw [started_cons_start hevent, setRange_part_index_start_to_range, total_insert]
    change 0 + 0 + (holds i mark first.part_index first.range + 0) = 0 + _
    omega

end

omit [LinearOrder α] in
/-- Ranges added one after another. -/
lemma count_foldl_addRange {builder : RangesInDataPartsBuilder parts} (hv : builder.Valid)
    (entries : List (Σ _ : PartRangeIndex parts, MarkRange))
    (hne : ∀ entry ∈ entries, entry.2.begin < entry.2.end_) :
    (entries.foldl (fun builder entry => addRange builder entry.1.part_index entry.2)
        builder).Valid ∧
      ∀ i mark, (entries.foldl (fun builder entry => addRange builder entry.1.part_index entry.2)
          builder).count i mark =
        builder.count i mark +
          (entries.map fun entry => holds i mark entry.1.part_index entry.2).sum := by
  induction entries generalizing builder with
  | nil => exact ⟨hv, fun i mark => rfl⟩
  | cons entry entries ih =>
    rw [forall_mem_cons] at hne
    obtain ⟨hvalid, hcount⟩ := ih (hv.addRange hne.1 entry.1.part_index) hne.2
    refine ⟨hvalid, fun i mark => ?_⟩
    rw [foldl_cons, hcount, count_addRange_eq hv hne.1, map_cons, sum_cons]
    omega

omit [LinearOrder α] in
/-- Every range starts once. -/
lemma started_partsRanges (i : Fin parts.length) (mark : ℕ) :
    started (partsRanges parts columns rev) i mark = countMark (parts.get i).ranges mark := by
  rw [started, partsRanges, countP_flatMap_finRange _ _ i]
  · generalize (parts.get i).ranges = ranges
    induction ranges with
    | nil => rfl
    | cons r ranges ih =>
      have hone : (rangeEvents parts columns rev i r).countP (fun e =>
          e.event = .RangeStart ∧ e.part_index = i ∧ mark ∈ e.range) =
            if mark ∈ r then 1 else 0 := by
        rw [rangeEvents, countP_cons]
        split_ifs <;> simp_all [startEvent, endEvent]
      rw [flatMap_cons, countP_append, ih, countMark_cons, hone, add_comm]
  · intro j hj e he
    obtain ⟨r, -, he⟩ := mem_flatMap.1 he
    rw [decide_eq_false_iff_not, (index_of_mem_rangeEvents he).1]
    exact fun h => hj h.2.1

/-- What the function returns, in terms of the two builders. -/
lemma splitPartsRanges_counts (hwf : WellFormed parts)
    (hidx : Indexed parts (loadedColumns parts allColumns) rev)
    (hsome : ∃ p ∈ parts, p.ranges ≠ []) (order : HashOrder (PartRangeIndex parts) MarkRange) :
    ∃ non_intersecting intersecting : RangesInDataPartsBuilder parts,
      splitPartsRanges parts rev order =
          .ok ⟨sortByPartIndex (getCurrentRangesInDataParts non_intersecting),
            sortByPartIndex (getCurrentRangesInDataParts intersecting)⟩ ∧
        non_intersecting.Valid ∧ intersecting.Valid ∧
        (∀ i mark, non_intersecting.count i mark + intersecting.count i mark =
          countMark (parts.get i).ranges mark) ∧
        ∀ i mark, 0 < non_intersecting.count i mark →
          Safe (loadedColumns parts allColumns) rev i mark := by
  generalize hcolumns : loadedColumns parts allColumns = columns at hidx
  rw [splitPartsRanges, hcolumns]
  have hperm := sort_perm (partsRanges parts columns rev)
  have hsorted := @sort_partsRanges_lt _ parts columns rev _ hwf
  cases hevents : sort (partsRanges parts columns rev) with
  | nil =>
    -- There is a range, so there is an event.
    obtain ⟨p, hp, hranges⟩ := hsome
    obtain ⟨i, rfl⟩ := mem_iff_get.1 hp
    obtain ⟨r, hr⟩ := exists_mem_of_ne_nil _ hranges
    have hmem : startEvent parts columns rev ⟨i, r⟩ ∈ partsRanges parts columns rev :=
      startEvent_mem_iff.2 hr
    rw [← hperm.mem_iff, hevents] at hmem
    cases hmem
  | cons first rest =>
    rw [hevents] at hperm hsorted
    have ht : Timeline [] first rest := by
      have hcons := pairwise_cons.1 hsorted
      refine ⟨fun e => ?_, by simp, hcons.1, hcons.2⟩
      rw [← hperm.mem_iff]
      simp
    obtain ⟨done, last, s, hloop, -, hs, hall⟩ :=
      splitLoop_spec hwf hidx order ht (swept_first hwf hidx ht)
    have hne : ∀ entry ∈ order.walk s.part_index_start_to_range,
        entry.2.begin < entry.2.end_ := fun entry hentry =>
      (hs.remains entry.1 entry.2 ((mem_walk_iff order).1 hentry)).begin_lt
    obtain ⟨hvalid, hcount⟩ := count_foldl_addRange hs.valid_intersecting _ hne
    refine ⟨s.non_intersecting, _, ?_, hs.valid_non_intersecting, hvalid, fun i mark => ?_, hs.safe⟩
    · dsimp only
      rw [hloop]
      rfl
    have hold := hs.count i mark
    have hstarted : started (last :: done) i mark = countMark (parts.get i).ranges mark := by
      rw [← started_partsRanges i mark]
      exact ((hall.trans perm_append_comm).trans hperm).countP_eq _
    rw [hcount, total_walk order fun index range => holds i mark index.part_index range]
    omega

/-- **The split is safe.** Every mark of the input is in exactly one of the two outputs, once;
marks of parts of level 0 are in the intersecting output; and no row of a mark in the
non-intersecting output has the key of a row of another part: their keys differ in one of
the columns compared. -/
theorem splitPartsRanges_safe (parts : RangesInDataParts α) (in_reverse_order : Bool)
    (order : HashOrder (PartRangeIndex parts) MarkRange) (hwf : WellFormed parts)
    (hsorted : ∀ p ∈ parts, p.data_part.Sorted in_reverse_order)
    (hsome : ∃ p ∈ parts, p.ranges ≠ []) :
    ∃ result, splitPartsRanges parts in_reverse_order order = .ok result ∧
      (∀ i, ∀ r ∈ (parts.get i).ranges, ∀ mark ∈ r, let q := (parts.get i).part_index_in_query
        timesRead result.non_intersecting_parts_ranges q mark = 1 ∧
            timesRead result.intersecting_parts_ranges q mark = 0 ∨
          timesRead result.non_intersecting_parts_ranges q mark = 0 ∧
            timesRead result.intersecting_parts_ranges q mark = 1) ∧
      (∀ i mark, (parts.get i).data_part.level = 0 →
        timesRead result.non_intersecting_parts_ranges (parts.get i).part_index_in_query mark = 0) ∧
      ∀ i mark,
        0 < timesRead result.non_intersecting_parts_ranges (parts.get i).part_index_in_query mark →
          ∀ j ≠ i, ∀ r ∈ (parts.get j).ranges, ∀ mark' ∈ r, ∀ key key',
            (parts.get i).data_part.RowAt in_reverse_order mark key →
              (parts.get j).data_part.RowAt in_reverse_order mark' key' →
                ∃ c < loadedColumns parts allColumns, key c ≠ key' c := by
  have hidx := Indexed.loadedColumns hsorted allColumns
  obtain ⟨non, int, hok, -, -, hcount, hsafe⟩ := splitPartsRanges_counts hwf hidx hsome order
  refine ⟨_, hok, fun i r hr mark hmark => ?_, fun i mark hlevel => ?_,
    fun i mark hpos j hj r hr mark' hmark' key key' hrow hrow' => ?_⟩
  · -- the ranges of one part are disjoint, so that a mark is in one of them only
    have hle := countMark_le_one (hwf.disjoint _ (get_mem parts i)) mark
    have hpos := countMark_pos_iff.2 ⟨r, hr, hmark⟩
    have hsum := hcount i mark
    simp only [timesRead_sortByPartIndex hwf]
    omega
  · rw [timesRead_sortByPartIndex hwf]
    by_contra hne
    exact (hsafe i mark (Nat.pos_of_ne_zero hne)).1 hlevel
  · rw [timesRead_sortByPartIndex hwf] at hpos
    have hend := (hwf.bounded _ (get_mem parts j) r hr).trans (Nat.sub_le _ _)
    have hinput : @IsInput _ parts ⟨j, r⟩ := hr
    have hkeys := key_ne_of_safe hidx (hsafe i mark hpos) hinput hj hend hmark' hrow hrow'
    rw [ne_eq, Values.ofKey_eq_iff] at hkeys
    push Not at hkeys
    exact hkeys

/-- With the whole of both parts to read, the first mark of the first part goes to one of the
outputs. -/
theorem splitPartsRanges_safe_at_two_parts :
    ∃ result, splitPartsRanges (sampleParts [⟨0, 2⟩] [⟨0, 2⟩]) false
        ⟨AList.entries, fun _ => List.Perm.refl _⟩ = .ok result ∧
      timesRead result.non_intersecting_parts_ranges 0 0 +
        timesRead result.intersecting_parts_ranges 0 0 = 1 := by
  have hwell : WellFormed (sampleParts [⟨0, 2⟩] [⟨0, 2⟩]) :=
    ⟨by decide, by decide, by decide, by decide⟩
  obtain ⟨result, hok, hplaced, -⟩ := splitPartsRanges_safe (sampleParts [⟨0, 2⟩] [⟨0, 2⟩]) false
    ⟨AList.entries, fun _ => Perm.refl _⟩ hwell (sampleParts_sorted _ _)
    ⟨_, mem_cons_self, by decide⟩
  refine ⟨result, hok, ?_⟩
  have hmark : (0 : ℕ) ∈ (⟨0, 2⟩ : MarkRange) := by decide
  rcases hplaced ⟨0, by decide⟩ ⟨0, 2⟩ mem_cons_self 0 hmark with ⟨hn, hi⟩ | ⟨hn, hi⟩
  · exact congrArg₂ (· + ·) hn hi
  · exact congrArg₂ (· + ·) hn hi

end ClickHouse.PartsSplitter
