/-
`splitIntersectingPartsRangesIntoLayers` (`src/Processors/QueryPlan/PartsSplitter.cpp`): the
ranges of the parts cut into layers by borders of the key, so that layers can be merged
apart from each other.

A queue has the next mark of every range, and the ends of the ranges, by their keys. A layer
takes marks from it until it has enough rows, and then all the marks with the key of the
last one, which becomes the border. A mark before the border may hold rows after it, so the
last mark of every range that is still open is read by the next layer once more; which of
the layers a row belongs to is left to a filter on the borders.

How far the queue has been read is a number for each range and whether its end was passed
(`Cursor`): everything in the state, the queue, the two tables and the builder of the layer,
is determined by the cursor and the one at the beginning of the layer (`Consistent`), and
taking an event from the queue moves the cursor by one. When a border is set, what has been
passed is not after the border and what has not is after it (`Border`), so that the cursors
at the two ends of a layer say which marks it reads. That is what the rows between two
borders need: a layer reads the marks of all of them, once (`Keeps`).

The loops are `whileLoop`s, with the number of events left in the queue as the variant.
-/
import ClickHouse.QueryPlan.PartsRanges

set_option autoImplicit false

namespace ClickHouse.PartsSplitter

open Lib List Function RangesInDataPartsBuilder
open Bool (and_eq_true eq_false_iff)
open Option (getD_some map_some some toList_some)

variable {α : Type*} [LinearOrder α]

/-! ## The queue -/

/-- `PartsRangesIteratorWithIndex`: an event and the range of the input it belongs to. -/
structure QueueItem (parts : RangesInDataParts α) (columns : ℕ) (in_reverse_order : Bool) where
  first : PartsRangesIterator parts columns in_reverse_order
  second : PartRangeIndex parts

namespace QueueItem

variable {parts : RangesInDataParts α} {columns : ℕ} {rev : Bool}

/-- What `operator<` of the pairs compares. -/
def key (item : QueueItem parts columns rev) :
    (Values α columns rev ×ₗ EventType ×ₗ Bool ×ₗ Fin parts.length ×ₗ ℕ) ×ₗ
      Fin parts.length ×ₗ ℕ ×ₗ ℕ :=
  toLex (item.first.key, toLex (item.second.part_index,
    toLex (item.second.range.begin, item.second.range.end_)))

/-- `std::priority_queue::push`: the queue is kept with the least item first. -/
def push (item : QueueItem parts columns rev) (queue : List (QueueItem parts columns rev)) :
    List (QueueItem parts columns rev) :=
  queue.orderedInsert (fun a b => a.key ≤ b.key) item

end QueueItem

/-! ## The function -/

variable (parts : RangesInDataParts α) (columns : ℕ) (rev : Bool)

/-- The locals of `splitIntersectingPartsRangesIntoLayers`. -/
structure LayersState where
  parts_ranges_queue : List (QueueItem parts columns rev)
  current_part_range_begin : HashTable (PartRangeIndex parts) ℕ
  current_part_range_end : HashTable (PartRangeIndex parts) ℕ
  borders : List (Values α columns rev)
  result_layers : List (RangesInDataParts α)
  rows_in_current_layer : ℕ
  marks_in_current_layer : ℕ
  current_layer_builder : RangesInDataPartsBuilder parts
  last_value : Option (Values α columns rev)

/-- The start and the end of every range, pushed one after another. -/
def initialQueue : List (QueueItem parts columns rev) :=
  (partsRanges parts columns rev).foldl (fun queue it => QueueItem.push ⟨it, it.index⟩ queue) []

variable {parts columns rev}

variable (s : LayersState parts columns rev)

/-- `last_value.empty()`: nothing has been assigned, or there are no columns to compare. -/
def lastValueEmpty : Bool :=
  match s.last_value with
  | none => true
  | some value => value.fields.isEmpty

/-- Whether one more event is taken. -/
def advanceCond : Bool :=
  match s.parts_ranges_queue with
  | [] => false
  | top :: _ => lastValueEmpty s || s.last_value = some top.first.value

/-- An end: what the layer has of the range. -/
def takeEnd (item : QueueItem parts columns rev) (s : LayersState parts columns rev) :
    LayersState parts columns rev :=
  let begin := (s.current_part_range_begin.lookup item.second).getD 0
  { s with
    current_layer_builder :=
      addRange s.current_layer_builder item.first.part_index ⟨begin, item.first.range.end_⟩
    current_part_range_begin := s.current_part_range_begin.erase item.second
    current_part_range_end := s.current_part_range_end.erase item.second }

/-- A mark: it is now the last one seen of the range, and the next one is pushed. -/
def takeMark (item : QueueItem parts columns rev) (s : LayersState parts columns rev) :
    LayersState parts columns rev :=
  let current := item.first
  let mark := current.range.begin
  let next : QueueItem parts columns rev :=
    ⟨{ current with
        range := ⟨mark + 1, current.range.end_⟩
        value := getValue parts columns current.part_index (mark + 1) }, item.second⟩
  { s with
    last_value := some current.value
    rows_in_current_layer := s.rows_in_current_layer +
      (parts.get current.part_index).data_part.getMarkRows mark
    marks_in_current_layer := s.marks_in_current_layer + 1
    current_part_range_begin :=
      -- the first mark in this layer is where the range begins in it
      if item.second ∈ s.current_part_range_begin then s.current_part_range_begin
      else s.current_part_range_begin.insert item.second mark
    current_part_range_end := s.current_part_range_end.insert item.second mark
    parts_ranges_queue :=
      if mark + 1 < current.range.end_ then QueueItem.push next s.parts_ranges_queue
      else s.parts_ranges_queue }

/-- The body of the innermost loop. -/
def advance : LayersState parts columns rev :=
  match s.parts_ranges_queue with
  | [] => s
  | item :: queue =>
    let s := { s with parts_ranges_queue := queue }
    match item.first.event with
    | .RangeEnd => takeEnd item s
    | .RangeStart => takeMark item s

/-- `layers_intersection_is_too_big`. -/
def layersIntersectionIsTooBig : Bool :=
  s.marks_in_current_layer < s.current_part_range_end.keys.length * 2

/-- `result_layers.size()` while a layer is being filled: it is already there. -/
def resultLayersSize : ℕ := s.result_layers.length + 1

section Layer

variable (rows_per_layer max_layers : ℕ)

variable (s : LayersState parts columns rev)

/-- The condition of the loop that fills a layer. The source leaves this loop as soon as the
queue is empty, and enters it when the queue is not. -/
def fillCond : Bool :=
  !s.parts_ranges_queue.isEmpty &&
    (s.rows_in_current_layer < rows_per_layer || layersIntersectionIsTooBig s ||
      resultLayersSize s = max_layers)

/-- The condition for a border. -/
def layerIsFull : Bool :=
  rows_per_layer ≤ s.rows_in_current_layer && !layersIntersectionIsTooBig s &&
    resultLayersSize s < max_layers

/-- The marks with one more key, and the border after them if the layer is full. -/
def fillBody (fuel : ℕ) (s : LayersState parts columns rev) :
    Option (LayersState parts columns rev) :=
  (whileLoop advanceCond (fun s => some (advance s)) fuel { s with last_value := none }).map
    fun s =>
      if !s.parts_ranges_queue.isEmpty && layerIsFull rows_per_layer max_layers s then
        { s with borders := s.borders ++ s.last_value.toList }
      else s

/-- A range that is still open goes to the layer up to its last mark, which the next layer
begins with. -/
def closeRange (entry : Σ _ : PartRangeIndex parts, ℕ) : LayersState parts columns rev :=
  let begin := (s.current_part_range_begin.lookup entry.1).getD 0
  { s with
    current_layer_builder :=
      addRange s.current_layer_builder entry.1.part_index ⟨begin, entry.2 + 1⟩
    current_part_range_begin := s.current_part_range_begin.insert entry.1 entry.2 }

/-- The open ranges are cut at the border, and the layer is put out. -/
def closeLayer (order : HashOrder (PartRangeIndex parts) ℕ) (s : LayersState parts columns rev) :
    LayersState parts columns rev :=
  let s := (order.walk s.current_part_range_end).foldl closeRange s
  { s with
    result_layers := s.result_layers ++ [getCurrentRangesInDataParts s.current_layer_builder] }

/-- The body of the outermost loop: one layer. -/
def layerBody (order : HashOrder (PartRangeIndex parts) ℕ) (fuel : ℕ)
    (s : LayersState parts columns rev) : Option (LayersState parts columns rev) :=
  (whileLoop (fillCond rows_per_layer max_layers) (fillBody rows_per_layer max_layers fuel) fuel
    { s with
      rows_in_current_layer := 0
      marks_in_current_layer := 0
      current_layer_builder := [] }).map (closeLayer order)

end Layer

variable (parts)

/-- `getRowsCountAllParts`. -/
def getRowsCountAllParts : ℕ :=
  (parts.map fun part => (part.ranges.map fun range =>
    ((List.range' range.begin (range.end_ - range.begin)).map
      part.data_part.getMarkRows).sum).sum).sum

variable (columns rev)

def initialState : LayersState parts columns rev :=
  ⟨initialQueue parts columns rev, ∅, ∅, [], [], 0, 0, [], none⟩

/-- `SplitPartsByRanges`. -/
structure SplitPartsByRanges (α : Type*) (columns : ℕ) (in_reverse_order : Bool) where
  layers : List (RangesInDataParts α)
  borders : List (Values α columns in_reverse_order)

/-- `splitIntersectingPartsRangesIntoLayers`; `none` is a loop that the fuel does not end. -/
def splitIntersectingPartsRangesIntoLayers (order : HashOrder (PartRangeIndex parts) ℕ)
    (fuel max_layers max_columns_in_index : ℕ) :
    Option (SplitPartsByRanges α (loadedColumns parts max_columns_in_index) rev) :=
  let rows_per_layer := max (getRowsCountAllParts parts / max_layers) 1
  (whileLoop (fun s => !s.parts_ranges_queue.isEmpty)
      (layerBody rows_per_layer max_layers order fuel) fuel
      (initialState parts (loadedColumns parts max_columns_in_index) rev)).map fun s =>
    ⟨s.result_layers.map sortByPartIndex, s.borders⟩

/-! ## How far the queue has been read -/

variable {parts columns rev}

/-- The next mark of every range, and whether its end has been passed. -/
@[ext] structure Cursor (parts : RangesInDataParts α) where
  next : PartRangeIndex parts → ℕ
  ended : PartRangeIndex parts → Bool

namespace Cursor

/-- Nothing has been read. -/
def start : Cursor parts := ⟨fun index => index.range.begin, fun _ => false⟩

variable (c : Cursor parts)

variable (index : PartRangeIndex parts)

/-- One more mark of a range. -/
def step : Cursor parts :=
  ⟨Function.update c.next index (c.next index + 1), c.ended⟩

/-- The end of a range. -/
def finish : Cursor parts :=
  ⟨c.next, Function.update c.ended index true⟩

@[grind =] lemma step_next (index index' : PartRangeIndex parts) :
    (c.step index).next index' = if index' = index then c.next index + 1 else c.next index' :=
  update_apply ..

@[simp, grind =] lemma step_ended :
    (c.step index).ended = c.ended := rfl

@[simp, grind =] lemma finish_next :
    (c.finish index).next = c.next := rfl

@[grind =] lemma finish_ended (index index' : PartRangeIndex parts) :
    (c.finish index).ended index' = if index' = index then true else c.ended index' :=
  update_apply ..

lemma next_le_step (index index' : PartRangeIndex parts) :
    c.next index' ≤ (c.step index).next index' := by
  grind

/-- The range has been begun, and its end has not been passed. -/
def Open : Prop :=
  IsInput index ∧ index.range.begin < c.next index ∧ c.ended index = false

instance decidableOpen (c : Cursor parts) (index : PartRangeIndex parts) :
    Decidable (c.Open index) :=
  inferInstanceAs (Decidable (index.range ∈ (parts.get index.part_index).ranges ∧ _))

/-- Where a layer begins to read a range: at the last mark that was seen before. -/
def layerBegin : ℕ :=
  max index.range.begin (c.next index - 1)

/-- The marks that have been read are marks of their ranges. -/
structure InBounds (c : Cursor parts) : Prop where
  begin_le : ∀ index, IsInput index → index.range.begin ≤ c.next index
  le_end : ∀ index, IsInput index → c.next index ≤ index.range.end_
  ended : ∀ index, IsInput index → c.ended index = true →
    EndDefined index ∧ c.next index = index.range.end_

variable (columns rev)

/-- The item of the next mark of a range. -/
def markItem (c : Cursor parts) (index : PartRangeIndex parts) : QueueItem parts columns rev :=
  ⟨⟨getValue parts columns index.part_index (c.next index), ⟨c.next index, index.range.end_⟩,
    index.part_index, .RangeStart, false⟩, index⟩

end Cursor

variable (columns rev)

/-- The item of the end of a range. -/
def endItem (index : PartRangeIndex parts) : QueueItem parts columns rev :=
  ⟨endEvent parts columns rev index, index⟩

variable {columns rev}

namespace Cursor

/-- What the queue has at this point. -/
def Pending (c : Cursor parts) (item : QueueItem parts columns rev) : Prop :=
  ∃ index, IsInput index ∧
    (c.next index < index.range.end_ ∧ item = c.markItem columns rev index ∨
      EndDefined index ∧ c.ended index = false ∧ item = endItem columns rev index)

/-- No key that has been passed is after the value. -/
def Passed (c : Cursor parts) (value : Values α columns rev) : Prop :=
  ∀ index, IsInput index →
    (∀ mark, index.range.begin ≤ mark → mark < c.next index →
      getValue parts columns index.part_index mark ≤ value) ∧
    (c.ended index = true → getValue parts columns index.part_index index.range.end_ ≤ value)

/-- The value is between what has been passed and what has not. -/
def Border (c : Cursor parts) (value : Values α columns rev) : Prop :=
  c.Passed value ∧ ∀ index, IsInput index →
    (∀ mark, c.next index ≤ mark → mark < index.range.end_ →
      value < getValue parts columns index.part_index mark) ∧
    (EndDefined index → c.ended index = false →
      value < getValue parts columns index.part_index index.range.end_)

/-- The range has ended since the layer began, which has read the mark. -/
def endedSince (c₀ c : Cursor parts) (mark : ℕ) (index : PartRangeIndex parts) : Bool :=
  c.ended index = true ∧ c₀.ended index = false ∧ c₀.layerBegin index ≤ mark ∧
    mark < index.range.end_

/-- A layer from one cursor to another reads the mark of the range. -/
def reads (c₀ c : Cursor parts) (mark : ℕ) (index : PartRangeIndex parts) : Bool :=
  c₀.ended index = false ∧ c₀.layerBegin index ≤ mark ∧ mark < c.next index

/-- The queue is the one of the cursor. -/
structure QueueOf (c : Cursor parts) (queue : List (QueueItem parts columns rev)) : Prop where
  mem_iff : ∀ item, item ∈ queue ↔ c.Pending item
  nodup : queue.Nodup
  sorted : queue.Pairwise fun a b => a.key ≤ b.key

end Cursor

/-- The state in the middle of a layer: `c₀` is the cursor at its beginning, `c` the one now. -/
structure Consistent (c₀ c : Cursor parts) (s : LayersState parts columns rev) : Prop where
  bounds : c.InBounds
  queue : c.QueueOf s.parts_ranges_queue
  front : ∀ item ∈ s.parts_ranges_queue, c.Passed item.first.value
  begins : HashTable.Tabulates s.current_part_range_begin c.Open c₀.layerBegin
  ends : HashTable.Tabulates s.current_part_range_end c.Open fun index => c.next index - 1
  valid : s.current_layer_builder.Valid
  count : ∀ i mark, s.current_layer_builder.count i mark =
    (parts.get i).ranges.countP fun r => c₀.endedSince c mark ⟨i, r⟩
  next_le : ∀ index, c₀.next index ≤ c.next index
  ended_of : ∀ index, c₀.ended index = true → c.ended index = true
  ahead : ∀ border ∈ s.borders, ∀ item ∈ s.parts_ranges_queue, border < item.first.value
  last : ∀ value, s.last_value = some value → c.Passed value

/-! ## One event -/

lemma QueueItem.value_le_of_key_le {a b : QueueItem parts columns rev} (h : a.key ≤ b.key) :
    a.first.value ≤ b.first.value := by
  rw [key, key, Prod.Lex.toLex_le_toLex] at h
  exact PartsRangesIterator.value_le_of_key_le (h.elim le_of_lt fun h => h.1.le)

namespace Cursor

variable {c : Cursor parts} {queue : List (QueueItem parts columns rev)}
  {item : QueueItem parts columns rev}

lemma QueueOf.value_le (h : c.QueueOf (item :: queue)) :
    ∀ other ∈ queue, item.first.value ≤ other.first.value := fun _ hother =>
  QueueItem.value_le_of_key_le (rel_of_pairwise_cons h.sorted hother)

lemma QueueOf.mem_tail_iff (h : c.QueueOf (item :: queue)) {other : QueueItem parts columns rev} :
    other ∈ queue ↔ c.Pending other ∧ other ≠ item := by
  have hnotMem := (nodup_cons.1 h.nodup).1
  rw [← h.mem_iff, mem_cons]
  constructor
  · exact fun hmem => ⟨.inr hmem, fun heq => hnotMem (heq ▸ hmem)⟩
  · exact fun ⟨hmem, hne⟩ => hmem.resolve_left hne

variable {index : PartRangeIndex parts}

omit [LinearOrder α] in
lemma markItem_ne_endItem {index' : PartRangeIndex parts} :
    c.markItem columns rev index ≠ endItem columns rev index' := fun heq => by
  cases congrArg (fun item => item.first.event) heq

/-- The end of a range comes after all its marks. -/
lemma QueueOf.next_eq_end (hidx : Indexed parts columns rev)
    (h : c.QueueOf (endItem columns rev index :: queue)) (hbounds : c.InBounds)
    (hinput : IsInput index) (hdef : EndDefined index) : c.next index = index.range.end_ := by
  refine le_antisymm (hbounds.le_end index hinput) (not_lt.1 fun hlt => ?_)
  have hmark : c.markItem columns rev index ∈ endItem columns rev index :: queue :=
    (h.mem_iff _).2 ⟨index, hinput, .inl ⟨hlt, rfl⟩⟩
  have hkey : (c.markItem columns rev index).first.key < (endItem columns rev index).first.key := by
    rw [PartsRangesIterator.key, PartsRangesIterator.key, Prod.Lex.toLex_lt_toLex]
    rcases (hidx.getValue_mono index.part_index hlt.le hdef).lt_or_eq with hlt' | heq
    · exact .inl hlt'
    · exact .inr ⟨heq, Prod.Lex.toLex_lt_toLex.2 (.inl EventType.start_lt_end)⟩
  rcases mem_cons.1 hmark with heq | hmem
  · exact hkey.ne (congrArg (fun item => item.first.key) heq)
  · have hle := rel_of_pairwise_cons h.sorted hmem
    rw [QueueItem.key, QueueItem.key, Prod.Lex.toLex_le_toLex] at hle
    rcases hle with hlt' | ⟨heq, -⟩
    · exact lt_asymm hkey hlt'
    · exact hkey.ne heq.symm

/-- The end of a range is taken from the queue. -/
lemma QueueOf.finish (h : c.QueueOf (endItem columns rev index :: queue)) :
    (c.finish index).QueueOf queue := by
  refine ⟨fun other => ?_, (nodup_cons.1 h.nodup).2, h.sorted.of_cons⟩
  rw [h.mem_tail_iff]
  constructor
  · rintro ⟨⟨index', hinput, hmark | ⟨hdef, hended, rfl⟩⟩, hne⟩
    · exact ⟨index', hinput, .inl hmark⟩
    · exact ⟨index', hinput, .inr ⟨hdef, by grind, rfl⟩⟩
  · rintro ⟨index', hinput, ⟨hlt, rfl⟩ | ⟨hdef, hended, rfl⟩⟩
    · exact ⟨⟨index', hinput, .inl ⟨hlt, rfl⟩⟩, markItem_ne_endItem⟩
    · exact ⟨⟨index', hinput, .inr ⟨hdef, by grind, rfl⟩⟩, fun heq => by
        grind [endItem]⟩

omit [LinearOrder α] in
/-- Cursors that agree at the other ranges differ by the next marks of the range. -/
lemma Pending.of_agree {c' : Cursor parts}
    (hnext : ∀ index', index' ≠ index → c'.next index' = c.next index')
    (hended : c'.ended = c.ended)
    (h : c.Pending item ∧ item ≠ c.markItem columns rev index) :
    c'.Pending item ∧ item ≠ c'.markItem columns rev index := by
  obtain ⟨⟨index', hinput, ⟨hlt, rfl⟩ | ⟨hdef, hnot, rfl⟩⟩, hne⟩ := h
  · have hindex : index' ≠ index := fun heq => hne (heq ▸ rfl)
    exact ⟨⟨index', hinput,
        .inl (by rw [markItem, markItem, hnext index' hindex]; exact ⟨hlt, rfl⟩)⟩,
      fun heq => hindex (congrArg QueueItem.second heq)⟩
  · exact ⟨⟨index', hinput, .inr ⟨hdef, hended ▸ hnot, rfl⟩⟩, markItem_ne_endItem.symm⟩

/-- The next mark of a range is taken from the queue, and the one after it pushed. -/
lemma QueueOf.step (h : c.QueueOf (c.markItem columns rev index :: queue))
    (hinput : IsInput index) :
    (c.step index).QueueOf
      (if c.next index + 1 < index.range.end_ then
        QueueItem.push ((c.step index).markItem columns rev index) queue
      else queue) := by
  have hnodup := (nodup_cons.1 h.nodup).2
  -- The rest of the queue is what it was for the other ranges, and the end of this one.
  have htail : ∀ item, item ∈ queue ↔ (c.step index).Pending item ∧
      item ≠ (c.step index).markItem columns rev index := by
    intro item
    rw [h.mem_tail_iff]
    exact ⟨Pending.of_agree (by grind) rfl, Pending.of_agree (by grind) rfl⟩
  split_ifs with hnext
  · have hperm := perm_orderedInsert (fun a b : QueueItem parts columns rev => a.key ≤ b.key)
      ((c.step index).markItem columns rev index) queue
    refine ⟨fun item => ?_, ?_, ?_⟩
    · rw [QueueItem.push, hperm.mem_iff, mem_cons, htail]
      refine ⟨fun hmem => hmem.elim (fun heq => ?_) fun hmem => hmem.1, fun hpend => ?_⟩
      · exact ⟨index, hinput, .inl ⟨by grind, heq⟩⟩
      · exact or_iff_not_imp_left.2 fun hne => ⟨hpend, hne⟩
    · rw [QueueItem.push, hperm.nodup_iff, nodup_cons]
      exact ⟨fun hmem => ((htail _).1 hmem).2 rfl, hnodup⟩
    · exact h.sorted.of_cons.orderedInsert _ _
  · refine ⟨fun item => ?_, hnodup, h.sorted.of_cons⟩
    rw [htail]
    refine and_iff_left_of_imp fun hpend heq => ?_
    obtain ⟨index', hinput', ⟨hlt, rfl⟩ | ⟨hdef, hended, rfl⟩⟩ := hpend
    · obtain rfl : index' = index := congrArg QueueItem.second heq
      grind
    · exact markItem_ne_endItem heq.symm

lemma Passed.mono {value value' : Values α columns rev} (h : c.Passed value)
    (hle : value ≤ value') : c.Passed value' := fun index hinput =>
  ⟨fun mark hbegin hlt => ((h index hinput).1 mark hbegin hlt).trans hle,
    fun hended => ((h index hinput).2 hended).trans hle⟩

variable {value : Values α columns rev}

lemma Passed.step (h : c.Passed value)
    (hmark : getValue parts columns index.part_index (c.next index) ≤ value) :
    (c.step index).Passed value := by
  intro index' hinput
  refine ⟨fun mark hbegin hlt => ?_, (h index' hinput).2⟩
  rcases lt_or_ge mark (c.next index') with hold | hnew
  · exact (h index' hinput).1 mark hbegin hold
  · obtain ⟨rfl, rfl⟩ : index' = index ∧ mark = c.next index := by grind
    exact hmark

lemma Passed.finish (h : c.Passed value)
    (hend : getValue parts columns index.part_index index.range.end_ ≤ value) :
    (c.finish index).Passed value := by
  intro index' hinput
  refine ⟨(h index' hinput).1, fun hended => ?_⟩
  by_cases hindex : index' = index
  · rw [hindex]
    exact hend
  · exact (h index' hinput).2 (by rwa [finish_ended, if_neg hindex] at hended)

lemma InBounds.step (h : c.InBounds) (hlt : c.next index < index.range.end_) :
    (c.step index).InBounds := by
  obtain ⟨hbegin, hend, hended⟩ := h
  constructor <;> grind

lemma InBounds.finish (h : c.InBounds) (hdef : EndDefined index)
    (heq : c.next index = index.range.end_) : (c.finish index).InBounds := by
  obtain ⟨hbegin, hend, hended⟩ := h
  constructor <;> grind

variable {index index' : PartRangeIndex parts}

lemma open_finish_iff :
    (c.finish index).Open index' ↔ index' ≠ index ∧ c.Open index' := by
  grind [Open]

lemma open_step_iff (hbounds : c.InBounds)
    (hinput : IsInput index) (hended : c.ended index = false) :
    (c.step index).Open index' ↔ index' = index ∨ c.Open index' := by
  have hbegin := hbounds.begin_le index hinput
  grind [Open]

end Cursor

omit [LinearOrder α] in
lemma WellFormed.nodup_ranges (hwf : WellFormed parts) (i : Fin parts.length) :
    (parts.get i).ranges.Nodup := by
  have hne := hwf.nonempty _ (get_mem parts i)
  refine (hwf.disjoint _ (get_mem parts i)).imp_of_mem fun {r r'} hr _ hdisj heq => ?_
  subst heq
  have := hne r hr
  omega

/-- A predicate changed at one element that it did not hold of. -/
lemma countP_of_change {β : Type*} {l : List β} (hnodup : l.Nodup) {a : β} (ha : a ∈ l)
    {p p' : β → Bool} (hp : p a = false) (hsame : ∀ x, x ≠ a → p' x = p x) :
    l.countP p' = l.countP p + if p' a = true then 1 else 0 := by
  induction l with
  | nil => cases ha
  | cons x l ih =>
    rw [nodup_cons] at hnodup
    rw [countP_cons, countP_cons]
    by_cases hx : x = a
    · subst hx
      have hrest : l.countP p' = l.countP p :=
        countP_congr fun y hy => by rw [hsame y fun heq => hnodup.1 (heq ▸ hy)]
      rw [hrest, hp]
      simp
    · rw [ih hnodup.2 ((mem_cons.1 ha).resolve_left (Ne.symm hx)), hsame x hx]
      omega

lemma countP_endedSince_finish (hwf : WellFormed parts) {c₀ c : Cursor parts}
    {index : PartRangeIndex parts} (hinput : IsInput index) (hended : c.ended index = false)
    (hended₀ : c₀.ended index = false) (i : Fin parts.length) (mark : ℕ) :
    (parts.get i).ranges.countP (fun r => c₀.endedSince (c.finish index) mark ⟨i, r⟩) =
      (parts.get i).ranges.countP (fun r => c₀.endedSince c mark ⟨i, r⟩) +
        if index.part_index = i ∧
          mark ∈ (⟨c₀.layerBegin index, index.range.end_⟩ : MarkRange) then 1 else 0 := by
  -- only the range that ends is counted differently
  have hother : ∀ index', index' ≠ index →
      c₀.endedSince (c.finish index) mark index' = c₀.endedSince c mark index' := by
    grind [Cursor.endedSince]
  by_cases hpart : index.part_index = i
  · subst hpart
    rw [countP_of_change (hwf.nodup_ranges index.part_index) hinput _ fun r hr =>
      hother ⟨index.part_index, r⟩ fun heq => hr (congrArg PartRangeIndex.range heq)]
    · simp [Cursor.endedSince, Cursor.finish_ended, hended₀, mem_markRange_iff]
    · simp [Cursor.endedSince, hended]
  · rw [if_neg fun h => hpart h.1, add_zero]
    refine countP_congr fun r _ => ?_
    rw [hother ⟨i, r⟩ fun heq => hpart (congrArg PartRangeIndex.part_index heq).symm]

lemma countP_add_countP {β : Type*} {l : List β} {p q r : β → Bool}
    (h : ∀ x ∈ l, (p x).toNat + (q x).toNat = (r x).toNat) :
    l.countP p + l.countP q = l.countP r := by
  induction l with
  | nil => rfl
  | cons x l ih =>
    rw [forall_mem_cons] at h
    have hone : ∀ b : Bool, (if b = true then 1 else 0) = b.toNat := by decide
    have hrest := ih h.2
    simp only [countP_cons, hone]
    omega

section Step

variable {c₀ c : Cursor parts} {s : LayersState parts columns rev}
  {queue : List (QueueItem parts columns rev)} {index : PartRangeIndex parts}

section

variable (hwf : WellFormed parts) (hidx : Indexed parts columns rev)
include hwf hidx

/-- **The end of a range is taken:** the layer gets what it has seen of the range. -/
theorem Consistent.end_taken (h : Consistent c₀ c s)
    (hqueue : s.parts_ranges_queue = endItem columns rev index :: queue) (hinput : IsInput index)
    (hdef : EndDefined index) (hended : c.ended index = false)
    (hlast : ∀ value, s.last_value = some value →
      getValue parts columns index.part_index index.range.end_ ≤ value) :
    Consistent c₀ (c.finish index)
      (takeEnd (endItem columns rev index) { s with parts_ranges_queue := queue }) := by
  have hq : c.QueueOf (endItem columns rev index :: queue) := hqueue ▸ h.queue
  have hnext := hq.next_eq_end hidx h.bounds hinput hdef
  have hnonempty := hwf.range_lt hinput
  -- the range has begun, and so it is among the open ones
  have hopen : c.Open index := ⟨hinput, hnext ▸ hnonempty, hended⟩
  have hstarted : c₀.ended index = false :=
    eq_false_iff.2 fun h₀ => eq_false_iff.1 hended (h.ended_of index h₀)
  have hbegin : (s.current_part_range_begin.lookup index).getD 0 = c₀.layerBegin index := by
    rw [h.begins.lookup_eq hopen, getD_some]
  have hrange : c₀.layerBegin index < index.range.end_ := by
    have hle := h.next_le index
    rw [Cursor.layerBegin]
    omega
  have htail : ∀ item ∈ queue, item ∈ s.parts_ranges_queue := fun item hitem => by
    rw [hqueue]
    exact mem_cons_of_mem _ hitem
  refine ⟨h.bounds.finish hdef hnext, hq.finish, fun item hitem => ?_, ?_, ?_, ?_,
    fun i mark => ?_, h.next_le, fun index' h₀ => by grind [h.ended_of index' h₀],
    fun border hborder item hitem => ?_, fun value hvalue => ?_⟩
  · exact (h.front item (htail item hitem)).finish (hq.value_le item hitem)
  · exact h.begins.erase fun _ => Cursor.open_finish_iff
  · exact h.ends.erase fun _ => Cursor.open_finish_iff
  · change (addRange s.current_layer_builder index.part_index ⟨_, index.range.end_⟩).Valid
    exact h.valid.addRange (hbegin ▸ hrange) _
  · change (addRange s.current_layer_builder index.part_index
      ⟨(s.current_part_range_begin.lookup index).getD 0, index.range.end_⟩).count i mark = _
    -- the range is counted once more, and it was not counted before
    rw [count_addRange h.valid (hbegin ▸ hrange), hbegin, h.count,
      countP_endedSince_finish hwf hinput hended hstarted]
  · exact h.ahead border hborder item (htail item hitem)
  · exact (h.last value hvalue).finish (hlast value hvalue)

/-- After a mark has been taken, no key in the queue is before its key. -/
lemma value_le_of_mem_takeMark (hq : c.QueueOf (c.markItem columns rev index :: queue))
    (hinput : IsInput index) (s : LayersState parts columns rev) :
    ∀ item ∈ (takeMark (c.markItem columns rev index)
      { s with parts_ranges_queue := queue }).parts_ranges_queue,
      (c.markItem columns rev index).first.value ≤ item.first.value := by
  have hmarks := hwf.end_le hinput
  intro item hmem
  dsimp only [takeMark, Cursor.markItem] at hmem
  split_ifs at hmem with hnext
  · rw [QueueItem.push, mem_orderedInsert] at hmem
    rcases hmem with rfl | hmem
    · exact hidx.getValue_mono index.part_index (Nat.le_succ _) (hnext.trans_le hmarks)
    · exact hq.value_le item hmem
  · exact hq.value_le item hmem

/-- **A mark of a range is taken**, and the range is open. -/
theorem Consistent.mark_taken (h : Consistent c₀ c s)
    (hqueue : s.parts_ranges_queue = c.markItem columns rev index :: queue) (hinput : IsInput index)
    (hlt : c.next index < index.range.end_) :
    Consistent c₀ (c.step index)
      (takeMark (c.markItem columns rev index) { s with parts_ranges_queue := queue }) := by
  have hq : c.QueueOf (c.markItem columns rev index :: queue) := hqueue ▸ h.queue
  have hended : c.ended index = false :=
    eq_false_iff.2 fun hend => hlt.ne (h.bounds.ended index hinput hend).2
  have hitem : (c.step index).markItem columns rev index =
      ⟨⟨getValue parts columns index.part_index (c.next index + 1),
        ⟨c.next index + 1, index.range.end_⟩, index.part_index, .RangeStart, false⟩, index⟩ := by
    rw [Cursor.markItem, Cursor.step_next, if_pos rfl]
  have hopen : ∀ index', (c.step index).Open index' ↔ index' = index ∨ c.Open index' :=
    fun _ => Cursor.open_step_iff h.bounds hinput hended
  have hqueue' := hq.step hinput
  rw [hitem] at hqueue'
  have hvalue := value_le_of_mem_takeMark hwf hidx hq hinput s
  have htop : c.markItem columns rev index ∈ s.parts_ranges_queue := by
    rw [hqueue]
    exact mem_cons_self
  refine ⟨h.bounds.step hlt, hqueue', fun item hitem => ?_, ?_, ?_, h.valid, h.count,
    fun index' => (h.next_le index').trans (c.next_le_step index index'), h.ended_of,
    fun border hborder item hitem => ?_, fun value hval => ?_⟩
  · exact ((h.front _ htop).mono (hvalue item hitem)).step (hvalue item hitem)
  · -- the range is open already, and its beginning stays
    by_cases hindex : c.Open index
    · have hmem : index ∈ s.current_part_range_begin := h.begins.mem_iff.2 hindex
      have hkeep : ∀ index', (c.step index).Open index' ↔ c.Open index' := fun index' => by
        rw [hopen]
        exact or_iff_right_of_imp fun heq => heq ▸ hindex
      change HashTable.Tabulates (if index ∈ s.current_part_range_begin then _ else _) _ _
      rw [if_pos hmem]
      exact h.begins.congr hkeep fun _ _ => rfl
    · -- The first mark of the range.
      have hmem : index ∉ s.current_part_range_begin := h.begins.mem_iff.not.2 hindex
      have hfirst : c.next index = index.range.begin := by
        by_contra hne
        exact hindex ⟨hinput, lt_of_le_of_ne (h.bounds.begin_le index hinput) (Ne.symm hne), hended⟩
      have hbegin : c₀.layerBegin index = c.next index := by
        have hle := h.next_le index
        rw [Cursor.layerBegin]
        omega
      change HashTable.Tabulates (if index ∈ s.current_part_range_begin then _ else _) _ _
      rw [if_neg hmem]
      exact h.begins.insert hopen hbegin fun _ _ => rfl
  · change HashTable.Tabulates (s.current_part_range_end.insert index (c.next index)) _ _
    refine h.ends.insert hopen ?_ fun index' hne => ?_
    · rw [Cursor.step_next, if_pos rfl, Nat.add_sub_cancel]
    · rw [c.step_next, if_neg hne]
  · exact (h.ahead border hborder _ htop).trans_le (hvalue item hitem)
  · obtain rfl := some.inj hval
    exact (h.front _ htop).step le_rfl

end

omit [LinearOrder α] in
/-- Without columns all values are equal. -/
lemma Values.eq_of_isEmpty {a : Values α columns rev} (h : a.fields.isEmpty = true)
    (b : Values α columns rev) : a = b := by
  have hnil := isEmpty_iff.1 h
  have hcolumns : columns = 0 := by rw [← a.size, hnil, length_nil]
  exact Values.ext (hnil.trans (eq_nil_of_length_eq_zero (b.size.trans hcolumns)).symm)

lemma Values.columns_pos_of_lt {a b : Values α columns rev} (h : a < b) : 0 < columns := by
  refine Nat.pos_of_ne_zero fun hcolumns => h.ne (Values.eq_of_isEmpty ?_ b)
  rw [isEmpty_iff_length_eq_zero, a.size, hcolumns]

variable (item : QueueItem parts columns rev)

/-- How many events an item stands for. -/
def QueueItem.weight : ℕ :=
  match item.first.event with
  | .RangeStart => item.first.range.end_ - item.first.range.begin
  | .RangeEnd => 1

variable (queue : List (QueueItem parts columns rev))

def queueWeight : ℕ :=
  (queue.map QueueItem.weight).sum

omit [LinearOrder α] in
lemma queueWeight_cons : queueWeight (item :: queue) = item.weight + queueWeight queue := by
  rw [queueWeight, map_cons, sum_cons, queueWeight]

lemma queueWeight_push : queueWeight (item.push queue) = item.weight + queueWeight queue := by
  exact ((perm_orderedInsert _ _ _).map _).sum_eq

variable (parts) in
/-- The value is the key at a mark of one of the parts. -/
def IsIndexValue (value : Values α columns rev) : Prop :=
  ∃ (i : Fin parts.length) (mark : ℕ),
    mark < (parts.get i).data_part.index_granularity.marks_count ∧
      value = getValue parts columns i mark

/-- The state in the loop over the events with one key: the key is after all borders, and not
after what is in the queue. -/
structure Advancing (c₀ c : Cursor parts) (s : LayersState parts columns rev) : Prop
    extends Consistent c₀ c s where
  after : ∀ border ∈ s.borders, ∀ value, s.last_value = some value → border < value
  last_le : ∀ value, s.last_value = some value →
    ∀ item ∈ s.parts_ranges_queue, value ≤ item.first.value
  is_key : ∀ value, s.last_value = some value → IsIndexValue parts value

section

variable (hwf : WellFormed parts) (hidx : Indexed parts columns rev) (h : Advancing c₀ c s)
include hwf hidx h

/-- **One event.** The cursor moves on, and what the layer does not look at stays. -/
theorem Advancing.advance (hcond : advanceCond s = true) :
    (∃ c', Advancing c₀ c' (advance s)) ∧
      queueWeight (advance s).parts_ranges_queue < queueWeight s.parts_ranges_queue ∧
      (advance s).borders = s.borders ∧ (advance s).result_layers = s.result_layers := by
  rw [advanceCond] at hcond
  cases hqueue : s.parts_ranges_queue with
  | nil =>
    rw [hqueue] at hcond
    cases hcond
  | cons item queue =>
    rw [hqueue] at hcond
    obtain ⟨index, hinput, ⟨hlt, rfl⟩ | ⟨hdef, hended, rfl⟩⟩ := (h.queue.mem_iff item).1
      (hqueue ▸ mem_cons_self)
    · -- a mark is on top of the queue
      rw [PartsSplitter.advance, hqueue]
      refine ⟨⟨_, h.mark_taken hwf hidx hqueue hinput hlt, ?_, ?_, ?_⟩, ?_, rfl, rfl⟩
      · intro border hborder value hvalue
        obtain rfl := some.inj hvalue
        exact h.ahead border hborder _ (hqueue ▸ mem_cons_self)
      · intro value hvalue
        obtain rfl := some.inj hvalue
        exact value_le_of_mem_takeMark hwf hidx (hqueue ▸ h.queue) hinput s
      · intro value hvalue
        obtain rfl := some.inj hvalue
        have hmarks := hwf.end_le hinput
        exact ⟨index.part_index, c.next index, hlt.trans_le hmarks, rfl⟩
      · have hweight : (c.markItem columns rev index).weight = index.range.end_ - c.next index :=
          rfl
        rw [queueWeight_cons, hweight]
        dsimp only [takeMark, Cursor.markItem]
        split_ifs with hnext
        · rw [queueWeight_push]
          dsimp only [QueueItem.weight]
          omega
        · omega
    · -- an end is on top: its value is the last one, or there is no last one
      rw [PartsSplitter.advance, hqueue]
      refine ⟨⟨_, h.end_taken hwf hidx hqueue hinput hdef hended ?_, h.after, ?_, h.is_key⟩, ?_,
        rfl, rfl⟩
      · intro value hvalue
        rw [lastValueEmpty, hvalue, Bool.or_eq_true, decide_eq_true_iff] at hcond
        rcases hcond with hempty | heq
        · exact (Values.eq_of_isEmpty hempty _).ge
        · rw [some.inj heq]
          exact le_rfl
      · intro value hvalue item hitem
        exact h.last_le value hvalue item (hqueue ▸ mem_cons_of_mem _ hitem)
      · rw [queueWeight_cons]
        exact Nat.lt_add_of_pos_left Nat.one_pos

/-! ## The events with one key -/

/-- The loop over the events with one key comes to its end. -/
lemma Advancing.loop {fuel : ℕ} (hfuel : queueWeight s.parts_ranges_queue ≤ fuel) :
    ∃ s' c', whileLoop advanceCond (fun s => some (PartsSplitter.advance s)) fuel s = some s' ∧
      Advancing c₀ c' s' ∧ advanceCond s' = false ∧
      queueWeight s'.parts_ranges_queue ≤ queueWeight s.parts_ranges_queue ∧
      (advanceCond s = true →
        queueWeight s'.parts_ranges_queue < queueWeight s.parts_ranges_queue) ∧
      s'.borders = s.borders ∧ s'.result_layers = s.result_layers := by
  obtain ⟨s', hloop, ⟨⟨c', hs'⟩, hborders, hlayers⟩, hcond, hle, hlt⟩ := whileLoop_progress
    advanceCond (fun s => some (PartsSplitter.advance s))
    (fun t => (∃ c', Advancing c₀ c' t) ∧ t.borders = s.borders ∧ t.result_layers = s.result_layers)
    (fun t => queueWeight t.parts_ranges_queue)
    (fun t ⟨⟨c', ht⟩, hborders, hlayers⟩ hc => by
      obtain ⟨hnext, hweight, hborders', hlayers'⟩ := ht.advance hwf hidx hc
      exact ⟨_, rfl, ⟨hnext, hborders'.trans hborders, hlayers'.trans hlayers⟩, hweight⟩)
    ⟨⟨c, h⟩, rfl, rfl⟩ hfuel
  exact ⟨s', c', hloop, hs', hcond, hle, hlt, hborders, hlayers⟩

/-- When the loop ends before the queue does, its key is a border. -/
lemma Advancing.border (hcond : advanceCond s = false) (hne : s.parts_ranges_queue ≠ []) :
    ∃ value, s.last_value = some value ∧ c.Border value ∧
      (∀ border ∈ s.borders, border < value) ∧
      ∀ item ∈ s.parts_ranges_queue, value < item.first.value := by
  obtain ⟨top, queue, hqueue⟩ := exists_cons_of_ne_nil hne
  rw [advanceCond, hqueue, lastValueEmpty] at hcond
  cases hlast : s.last_value with
  | none =>
    rw [hlast] at hcond
    cases hcond
  | some value =>
    rw [hlast, Bool.or_eq_false_iff, decide_eq_false_iff_not] at hcond
    have hpassed := h.last value hlast
    -- The top of the queue has another key, and so a greater one.
    have htop : value < top.first.value := by
      have hle := h.last_le value hlast top (hqueue ▸ mem_cons_self)
      exact lt_of_le_of_ne hle fun heq => hcond.2 (congrArg some heq)
    have hitems : ∀ item ∈ s.parts_ranges_queue, value < item.first.value := by
      have hq : c.QueueOf (top :: queue) := hqueue ▸ h.queue
      rw [hqueue, forall_mem_cons]
      exact ⟨htop, fun item hitem => htop.trans_le (hq.value_le item hitem)⟩
    refine ⟨value, rfl,
      ⟨hpassed, fun index hinput => ⟨fun mark hnext hend => ?_, fun hdef hended => ?_⟩⟩,
      fun border hborder => h.after border hborder value hlast, hitems⟩
    · have hmarks := hwf.end_le hinput
      have hitem := hitems _ ((h.queue.mem_iff _).2
        ⟨index, hinput, .inl ⟨hnext.trans_lt hend, rfl⟩⟩)
      exact hitem.trans_le (hidx.getValue_mono index.part_index hnext (hend.trans_le hmarks))
    · exact hitems _ ((h.queue.mem_iff _).2 ⟨index, hinput, .inr ⟨hdef, hended, rfl⟩⟩)

end

/-! ## One layer -/

variable {rows_per_layer max_layers : ℕ}

/-- A border has been set after what the layer has passed. -/
structure BorderSet (max_layers : ℕ) (borders : List (Values α columns rev)) (c : Cursor parts)
    (s : LayersState parts columns rev) (value : Values α columns rev) : Prop where
  borders_eq : s.borders = borders ++ [value]
  border : c.Border value
  is_key : IsIndexValue parts value
  lt : ∀ border ∈ borders, border < value
  size_lt : resultLayersSize s < max_layers
  ne_nil : s.parts_ranges_queue ≠ []

/-- What the loop that fills a layer knows: either it goes on, or it is at the end of the
queue, or the border has been set. -/
structure Filling (rows_per_layer max_layers : ℕ) (c₀ : Cursor parts)
    (s₀ s : LayersState parts columns rev) : Prop where
  layers_eq : s.result_layers = s₀.result_layers
  cases : ∃ c, Consistent c₀ c s ∧
    (s.borders = s₀.borders ∧
        (s.parts_ranges_queue = [] ∨ fillCond rows_per_layer max_layers s = true) ∨
      fillCond rows_per_layer max_layers s = false ∧
        ∃ value, BorderSet max_layers s₀.borders c s value)

omit [LinearOrder α] in
/-- A layer that is not full is filled further. -/
lemma fillCond_eq (hne : s.parts_ranges_queue ≠ []) (hsize : resultLayersSize s ≤ max_layers) :
    fillCond rows_per_layer max_layers s = !layerIsFull rows_per_layer max_layers s := by
  have hempty : s.parts_ranges_queue.isEmpty = false := by simpa using hne
  rw [fillCond, layerIsFull, hempty]
  grind

variable (hwf : WellFormed parts) (hidx : Indexed parts columns rev) {fuel : ℕ}

include hwf hidx in
/-- One iteration of the loop that fills a layer. -/
lemma Filling.body
    {s₀ : LayersState parts columns rev} (h : Filling rows_per_layer max_layers c₀ s₀ s)
    (hsize : resultLayersSize s₀ ≤ max_layers)
    (hcond : fillCond rows_per_layer max_layers s = true)
    (hfuel : queueWeight s.parts_ranges_queue ≤ fuel) :
    ∃ s', fillBody rows_per_layer max_layers fuel s = some s' ∧
      Filling rows_per_layer max_layers c₀ s₀ s' ∧
      queueWeight s'.parts_ranges_queue < queueWeight s.parts_ranges_queue := by
  obtain ⟨hlayers, c, hs, ⟨hborders, -⟩ | ⟨hfalse, -⟩⟩ := h
  swap
  · -- the layer is full, and the loop has ended
    rw [hfalse] at hcond
    cases hcond
  have hne : s.parts_ranges_queue ≠ [] := by
    rw [fillCond, and_eq_true] at hcond
    simpa using hcond.1
  have hstart : Advancing c₀ c { s with last_value := none } :=
    { hs with last := by simp, after := by simp, last_le := by simp, is_key := by simp }
  obtain ⟨s', c', hloop, hs', hdone, -, hlt, hborders', hlayers'⟩ := hstart.loop hwf hidx hfuel
  have hweight : queueWeight s'.parts_ranges_queue < queueWeight s.parts_ranges_queue := by
    refine hlt ?_
    obtain ⟨top, queue, hqueue⟩ := exists_cons_of_ne_nil hne
    simp only [hqueue]
    rfl
  rw [fillBody, hloop, map_some]
  by_cases hempty : s'.parts_ranges_queue = []
  · -- The source leaves the loop here.
    rw [if_neg (by simp [hempty])]
    exact ⟨s', rfl, ⟨hlayers'.trans hlayers, c', hs'.toConsistent,
      .inl ⟨hborders'.trans hborders, .inl hempty⟩⟩, hweight⟩
  obtain ⟨value, hlast, hborder, hafter, hitems⟩ := hs'.border hwf hidx hdone hempty
  have hsize' : resultLayersSize s' ≤ max_layers := by
    rw [resultLayersSize, hlayers', hlayers]
    exact hsize
  have hcond' : fillCond rows_per_layer max_layers s' = _ := fillCond_eq hempty hsize'
  have hnotEmpty : (!s'.parts_ranges_queue.isEmpty) = true := by simpa using hempty
  rw [hnotEmpty, Bool.true_and]
  split_ifs with hfull
  · -- the layer is full, and the value of the last mark becomes a border
    refine ⟨_, rfl, ⟨hlayers'.trans hlayers, c', { hs'.toConsistent with ahead := ?_ },
      .inr ⟨?_, value, ?_⟩⟩, hweight⟩
    · intro border hmem item hitem
      rw [hlast, toList_some, mem_append, mem_singleton] at hmem
      rcases hmem with hmem | rfl
      · exact hs'.ahead border hmem item hitem
      · exact hitems item hitem
    · exact hcond'.trans (by rw [hfull, Bool.not_true])
    · refine ⟨?_, hborder, hs'.is_key value hlast, fun border hmem => hafter border ?_, ?_, hempty⟩
      · rw [hlast, toList_some, hborders', hborders]
      · rw [hborders', hborders]
        exact hmem
      · simp only [layerIsFull, and_eq_true, decide_eq_true_iff] at hfull
        exact hfull.2
  · -- the layer is not full, and it is filled on
    refine ⟨s', rfl, ⟨hlayers'.trans hlayers, c', hs'.toConsistent,
      .inl ⟨hborders'.trans hborders, .inr ?_⟩⟩, hweight⟩
    rw [hcond', eq_false_iff.2 hfull, Bool.not_false]

variable (h : Consistent c₀ c s)

include hwf hidx h in
/-- **A layer is filled** up to a border or to the end of the queue. -/
theorem Consistent.fill (hrows : s.rows_in_current_layer < rows_per_layer)
    (hne : s.parts_ranges_queue ≠ []) (hsize : resultLayersSize s ≤ max_layers)
    (hfuel : queueWeight s.parts_ranges_queue ≤ fuel) :
    ∃ s' c', whileLoop (fillCond rows_per_layer max_layers)
        (fillBody rows_per_layer max_layers fuel) fuel s = some s' ∧
      Consistent c₀ c' s' ∧ s'.result_layers = s.result_layers ∧
      queueWeight s'.parts_ranges_queue < queueWeight s.parts_ranges_queue ∧
      (s'.borders = s.borders ∧ s'.parts_ranges_queue = [] ∨
        ∃ value, BorderSet max_layers s.borders c' s' value) := by
  have hcond : fillCond rows_per_layer max_layers s = true := by
    have hempty : s.parts_ranges_queue.isEmpty = false := by simpa using hne
    simp [fillCond, hempty, hrows]
  -- the invariant is `Filling`, and each iteration takes something from the queue
  obtain ⟨s', hloop, ⟨⟨hlayers, c', hs', hcases⟩, -⟩, hdone, -, hlt⟩ := whileLoop_progress
    (fillCond rows_per_layer max_layers) (fillBody rows_per_layer max_layers fuel)
    (fun t => Filling rows_per_layer max_layers c₀ s t ∧ queueWeight t.parts_ranges_queue ≤ fuel)
    (fun t => queueWeight t.parts_ranges_queue)
    (fun t ⟨ht, hfuel⟩ hc => by
      obtain ⟨t', hbody, ht', hlt⟩ := ht.body hwf hidx hsize hc hfuel
      exact ⟨t', hbody, ⟨ht', hlt.le.trans hfuel⟩, hlt⟩)
    ⟨⟨rfl, c, h, .inl ⟨rfl, .inr hcond⟩⟩, hfuel⟩ hfuel
  refine ⟨s', c', hloop, hs', hlayers, hlt hcond, ?_⟩
  rcases hcases with ⟨hborders, hempty | htrue⟩ | ⟨-, hborder⟩
  · exact .inl ⟨hborders, hempty⟩
  · -- the loop would have gone on
    rw [hdone] at htrue
    cases htrue
  · exact .inr hborder

/-! ## The end of a layer -/

variable {entries : List (Σ _ : PartRangeIndex parts, ℕ)}

/-- The open ranges are closed one after another. -/
lemma closeRanges_spec (hnodup : (entries.map Sigma.fst).Nodup) {b : PartRangeIndex parts → ℕ}
    (hbegin : ∀ entry ∈ entries,
      s.current_part_range_begin.lookup entry.1 = some (b entry.1) ∧ b entry.1 < entry.2 + 1)
    (hvalid : s.current_layer_builder.Valid) :
    ∃ builder begins, entries.foldl closeRange s =
        { s with current_layer_builder := builder, current_part_range_begin := begins } ∧
      builder.Valid ∧
      (∀ i mark, builder.count i mark = s.current_layer_builder.count i mark +
        entries.countP fun entry =>
          entry.1.part_index = i ∧ mark ∈ (⟨b entry.1, entry.2 + 1⟩ : MarkRange)) ∧
      (∀ entry ∈ entries, begins.lookup entry.1 = some entry.2) ∧
      ∀ index ∉ entries.map Sigma.fst,
        begins.lookup index = s.current_part_range_begin.lookup index := by
  induction entries generalizing s with
  | nil => exact ⟨_, _, rfl, hvalid, fun _ _ => rfl, by simp, fun _ _ => rfl⟩
  | cons entry entries ih =>
    rw [map_cons, nodup_cons] at hnodup
    rw [forall_mem_cons] at hbegin
    obtain ⟨⟨hlookup, hlt⟩, hrest⟩ := hbegin
    -- no range is in the table twice, so that the others are as before
    have hne : ∀ entry' ∈ entries, entry'.1 ≠ entry.1 := fun entry' hentry' heq =>
      hnodup.1 (heq ▸ mem_map_of_mem hentry')
    have hclose : closeRange s entry =
        { s with
          current_layer_builder := addRange s.current_layer_builder entry.1.part_index
            ⟨b entry.1, entry.2 + 1⟩
          current_part_range_begin := s.current_part_range_begin.insert entry.1 entry.2 } := by
      rw [closeRange, hlookup, getD_some]
    obtain ⟨builder, begins, hfold, hvalid', hcount, hin, hout⟩ :=
      ih hnodup.2 (s := closeRange s entry)
      (fun entry' hentry' => by
        rw [hclose]
        rw [AList.lookup_insert_ne (hne entry' hentry')]
        exact hrest entry' hentry')
      (by rw [hclose]; exact hvalid.addRange hlt _)
    refine ⟨builder, begins, ?_, hvalid', fun i mark => ?_, ?_, fun index hindex => ?_⟩
    · rw [foldl_cons, hfold, hclose]
    · rw [hcount, hclose, countP_cons]
      rw [count_addRange hvalid hlt]
      simp only [decide_eq_true_eq]
      omega
    · rw [forall_mem_cons]
      refine ⟨?_, hin⟩
      rw [hout entry.1 hnodup.1, hclose]
      exact AList.lookup_insert _
    · rw [map_cons, mem_cons, not_or] at hindex
      rw [hout index hindex.2, hclose]
      exact AList.lookup_insert_ne hindex.1

omit [LinearOrder α] in
include hwf in
/-- The open ranges of a part, from the table or from the input. -/
lemma countP_open (hnodup : (entries.map Sigma.fst).Nodup)
    (hentries : ∀ entry, entry ∈ entries ↔ c.Open entry.1 ∧ entry.2 = c.next entry.1 - 1)
    (i : Fin parts.length) (mark : ℕ) :
    entries.countP (fun entry => entry.1.part_index = i ∧
        mark ∈ (⟨c₀.layerBegin entry.1, entry.2 + 1⟩ : MarkRange)) =
      (parts.get i).ranges.countP fun r =>
        c.Open ⟨i, r⟩ ∧ c₀.layerBegin ⟨i, r⟩ ≤ mark ∧ mark < c.next ⟨i, r⟩ := by
  -- The two lists of ranges have no range twice, and the same ones.
  have hperm : ((entries.filter fun entry => entry.1.part_index = i).map fun entry =>
      entry.1.range).Perm ((parts.get i).ranges.filter fun r => c.Open ⟨i, r⟩) := by
    refine (perm_ext_iff_of_nodup ?_ ((hwf.nodup_ranges i).filter _)).2 fun r => ?_
    · refine ((Nodup.of_map _ hnodup).filter _).map_on fun e he e' he' heq => ?_
      rw [mem_filter, decide_eq_true_iff, hentries] at he he'
      have hindex : e.1 = e'.1 := by
        rcases e with ⟨⟨j, r⟩, m⟩
        exact PartRangeIndex.mk.injEq .. ▸ ⟨he.2.trans he'.2.symm, heq⟩
      refine Sigma.ext hindex (heq_of_eq ?_)
      rw [he.1.2, he'.1.2, hindex]
    · rw [mem_map, mem_filter, decide_eq_true_iff]
      constructor
      · rintro ⟨⟨⟨j, r⟩, m⟩, hmem, rfl⟩
        rw [mem_filter, decide_eq_true_iff, hentries] at hmem
        obtain ⟨⟨hopen, -⟩, rfl⟩ := hmem
        exact ⟨hopen.1, hopen⟩
      · rintro ⟨hr, hopen⟩
        refine ⟨⟨⟨i, r⟩, c.next ⟨i, r⟩ - 1⟩, ?_, rfl⟩
        rw [mem_filter, decide_eq_true_iff, hentries]
        exact ⟨⟨hopen, rfl⟩, rfl⟩
  calc
    _ = ((entries.filter fun entry => entry.1.part_index = i).map fun entry =>
          entry.1.range).countP fun r => c₀.layerBegin ⟨i, r⟩ ≤ mark ∧ mark < c.next ⟨i, r⟩ := by
      rw [countP_map, countP_filter]
      refine countP_congr fun entry hentry => ?_
      obtain ⟨hopen, hlast⟩ := (hentries entry).1 hentry
      obtain ⟨⟨j, r⟩, m⟩ := entry
      have hnext : m + 1 = c.next ⟨j, r⟩ := by
        have hlt := hopen.2.1
        dsimp only at hlast hlt
        omega
      simp only [comp_apply, decide_eq_true_eq, and_eq_true, hnext, mem_markRange_iff]
      constructor
      · rintro ⟨rfl, hmem⟩
        exact ⟨hmem, rfl⟩
      · rintro ⟨hmem, rfl⟩
        exact ⟨rfl, hmem⟩
    _ = ((parts.get i).ranges.filter fun r => c.Open ⟨i, r⟩).countP fun r =>
          c₀.layerBegin ⟨i, r⟩ ≤ mark ∧ mark < c.next ⟨i, r⟩ := hperm.countP_eq _
    _ = _ := by
      rw [countP_filter]
      refine countP_congr fun r _ => ?_
      simp only [and_eq_true, decide_eq_true_eq]
      exact and_comm

include hwf h in
/-- **At its end a layer has read the marks between the two cursors**, and the state is that at
the beginning of the next layer. -/
theorem Consistent.close (order : HashOrder (PartRangeIndex parts) ℕ) :
    ∃ builder begins, closeLayer order s =
        { s with
          current_layer_builder := builder
          current_part_range_begin := begins
          result_layers := s.result_layers ++ [getCurrentRangesInDataParts builder] } ∧
      HashTable.Tabulates begins c.Open c.layerBegin ∧
      ∀ i mark, builder.count i mark =
        (parts.get i).ranges.countP fun r => c₀.reads c mark ⟨i, r⟩ := by
  -- the table of the ends has the open ranges, with the last mark that was seen of each
  have hentries : ∀ entry, entry ∈ order.walk s.current_part_range_end ↔
      c.Open entry.1 ∧ entry.2 = c.next entry.1 - 1 := fun entry =>
    (HashTable.mem_walk_iff order).trans (h.ends entry.1 entry.2)
  have hnodup := HashTable.nodup_walk order s.current_part_range_end
  have hbegin : ∀ entry ∈ order.walk s.current_part_range_end,
      s.current_part_range_begin.lookup entry.1 = some (c₀.layerBegin entry.1) ∧
        c₀.layerBegin entry.1 < entry.2 + 1 := by
    intro entry hentry
    obtain ⟨hopen, hlast⟩ := (hentries entry).1 hentry
    refine ⟨h.begins.lookup_eq hopen, ?_⟩
    have hle := h.next_le entry.1
    have hlt := hopen.2.1
    rw [hlast, Cursor.layerBegin]
    omega
  obtain ⟨builder, begins, hfold, -, hcount, hin, hout⟩ := closeRanges_spec hnodup hbegin h.valid
  refine ⟨builder, begins, ?_, fun index mark => ?_, fun i mark => ?_⟩
  · rw [closeLayer, hfold]
  · by_cases hopen : c.Open index
    · -- an open range goes on in the next layer, from its last mark on
      have hlookup := hin ⟨index, c.next index - 1⟩ ((hentries _).2 ⟨hopen, rfl⟩)
      have hlast : c.layerBegin index = c.next index - 1 := by
        have hlt := hopen.2.1
        rw [Cursor.layerBegin]
        omega
      rw [hlookup, hlast, some.injEq, eq_comm]
      exact (and_iff_right hopen).symm
    · -- the range is not in the table of the ends, so that nothing was done with it
      have hnotMem : index ∉ (order.walk s.current_part_range_end).map Sigma.fst := by
        rw [mem_map]
        rintro ⟨entry, hentry, rfl⟩
        exact hopen ((hentries entry).1 hentry).1
      rw [hout index hnotMem, h.begins]
      simp only [hopen, false_and]
  · rw [hcount, h.count, countP_open hwf hnodup hentries]
    refine countP_add_countP fun r hr => ?_
    have hinput : @IsInput _ parts ⟨i, r⟩ := hr
    simp only [Cursor.endedSince, Cursor.reads]
    -- a range that has ended was counted before, and an open one is counted here
    cases hended : c.ended ⟨i, r⟩ with
    | true =>
      obtain ⟨-, hnext⟩ := h.bounds.ended ⟨i, r⟩ hinput hended
      simp [Cursor.Open, hended, hnext]
    | false =>
      have hended₀ : c₀.ended ⟨i, r⟩ = false :=
        eq_false_iff.2 fun h₀ => eq_false_iff.1 hended (h.ended_of _ h₀)
      have hbegun : c₀.layerBegin ⟨i, r⟩ ≤ mark → mark < c.next ⟨i, r⟩ → r.begin < c.next ⟨i, r⟩ :=
        fun hle hlt => ((le_max_left _ _).trans hle).trans_lt hlt
      have hiff : (c.Open ⟨i, r⟩ ∧ c₀.layerBegin ⟨i, r⟩ ≤ mark ∧ mark < c.next ⟨i, r⟩) ↔
          c₀.ended ⟨i, r⟩ = false ∧ c₀.layerBegin ⟨i, r⟩ ≤ mark ∧ mark < c.next ⟨i, r⟩ :=
        ⟨fun h => ⟨hended₀, h.2⟩, fun h => ⟨⟨hinput, hbegun h.2.1 h.2.2, hended⟩, h.2⟩⟩
      simp only [hiff, Bool.false_eq_true, false_and, decide_false, Bool.toNat_false, zero_add]

/-! ## What a layer keeps -/

variable (parts) in
/-- Every row with a key after the lower border and not after the upper one is in a mark that
the layer reads, once. -/
def Keeps (lower upper : Option (Values α columns rev)) (layer : RangesInDataParts α) : Prop :=
  ∀ (i : Fin parts.length), ∀ r ∈ (parts.get i).ranges, ∀ mark ∈ r, ∀ key,
    (parts.get i).data_part.RowAt rev mark key →
      (∀ border, lower = some border → border < Values.ofKey key) →
        (∀ border, upper = some border → Values.ofKey key ≤ border) →
          timesRead layer (parts.get i).part_index_in_query mark = 1

/-- The cursor is at the border, or at the beginning if there is none. -/
def Cursor.From (c : Cursor parts) : Option (Values α columns rev) → Prop
  | none => c = Cursor.start
  | some border => c.Border border

/-- The cursor is at the border, or at the end if there is none. -/
def Cursor.UpTo (c : Cursor parts) : Option (Values α columns rev) → Prop
  | none => ∀ index, IsInput index → c.next index = index.range.end_
  | some border => c.Border border

variable {key : ℕ → Field α}

include hwf hidx in
/-- A row after the border is in no mark of which the next one has been passed. -/
lemma Cursor.From.not_le {lower : Option (Values α columns rev)} (h : c.From lower)
    (hbounds : c.InBounds)
    (hinput : IsInput index) {mark : ℕ} (hmark : mark ∈ index.range)
    (hrow : (parts.get index.part_index).data_part.RowAt rev mark key)
    (hlower : ∀ border, lower = some border → border < Values.ofKey key) :
    c.ended index = false ∧ c.next index ≤ mark + 1 := by
  cases lower with
  | none =>
    obtain rfl : c = start := h
    exact ⟨rfl, hmark.1.trans (Nat.le_succ mark)⟩
  | some border =>
    have hpassed := h.1 index hinput
    have hborder := hlower border rfl
    constructor
    · -- the range would have ended at the border, and the row is after it
      refine eq_false_iff.2 fun hended => ?_
      obtain ⟨hdef, -⟩ := hbounds.ended index hinput hended
      have hend : mark + 1 ≤ index.range.end_ := hmark.2
      have hkey := hidx.le_getValue_of_rowAt hrow (hend.trans_lt hdef)
      have hle := hidx.getValue_mono index.part_index hend hdef
      exact ((hkey.trans hle).trans (hpassed.2 hended)).not_gt hborder
    · -- the next mark would have been passed before the border, and the row is not behind it
      by_contra! hnext
      have hmarks := hwf.end_le hinput
      have hend := hbounds.le_end index hinput
      have hkey := hidx.le_getValue_of_rowAt hrow (by omega)
      have hle := hpassed.1 (mark + 1) (hmark.1.trans (Nat.le_succ mark)) hnext
      exact (hkey.trans hle).not_gt hborder

include hidx in
/-- A row that is not after the border is in a mark which has been passed. -/
lemma Cursor.UpTo.lt_next {upper : Option (Values α columns rev)} (h : c.UpTo upper)
    (hinput : IsInput index) {mark : ℕ}
    (hmark : mark ∈ index.range)
    (hrow : (parts.get index.part_index).data_part.RowAt rev mark key)
    (hupper : ∀ border, upper = some border → Values.ofKey key ≤ border) : mark < c.next index := by
  cases upper with
  | none =>
    rw [h index hinput]
    exact hmark.2
  | some border =>
    by_contra! hnext
    have hlt := (h.2 index hinput).1 mark hnext hmark.2
    exact ((hupper border rfl).trans_lt hlt).not_ge (hidx.getValue_le_of_rowAt hrow)

include hwf hidx in
/-- **The layer between two cursors keeps the rows between their borders.** -/
theorem keeps_of_reads
    {lower upper : Option (Values α columns rev)} (hfrom : c₀.From lower) (hupTo : c.UpTo upper)
    (hbounds₀ : c₀.InBounds) (hbounds : c.InBounds) {builder : RangesInDataPartsBuilder parts}
    (hcount : ∀ i mark, builder.count i mark =
      (parts.get i).ranges.countP fun r => c₀.reads c mark ⟨i, r⟩) :
    Keeps parts lower upper (sortByPartIndex (getCurrentRangesInDataParts builder)) := by
  intro i r hr mark hmark key hrow hlower hupper
  rw [timesRead_sortByPartIndex hwf, hcount]
  have hinput : @IsInput _ parts ⟨i, r⟩ := hr
  refine le_antisymm ?_ (countP_pos_iff.2 ⟨r, hr, ?_⟩)
  · -- A range that is read at the mark has the mark, and the ranges do not intersect.
    refine le_trans (countP_mono_left fun r' hr' hreads => ?_)
      (countMark_le_one (hwf.disjoint _ (get_mem parts i)) mark)
    rw [Cursor.reads, decide_eq_true_iff] at hreads
    rw [decide_eq_true_iff]
    exact ⟨(le_max_left _ _).trans hreads.2.1, hreads.2.2.trans_le (hbounds.le_end ⟨i, r'⟩ hr')⟩
  · obtain ⟨hended, hnext⟩ := hfrom.not_le hwf hidx hbounds₀ hinput hmark hrow hlower
    rw [Cursor.reads, decide_eq_true_iff]
    exact ⟨hended, max_le hmark.1 (Nat.sub_le_of_le_add hnext),
      hupTo.lt_next hidx hinput hmark hrow hupper⟩

/-! ## The beginning -/

lemma foldl_push_perm (its : List (PartsRangesIterator parts columns rev))
    (queue : List (QueueItem parts columns rev)) :
    (its.foldl (fun queue it => QueueItem.push ⟨it, it.index⟩ queue) queue).Perm
      ((its.map fun it => ⟨it, it.index⟩) ++ queue) := by
  induction its generalizing queue with
  | nil => exact Perm.refl _
  | cons it its ih =>
    exact (ih _).trans (((perm_orderedInsert _ _ _).append_left _).trans perm_middle)

lemma foldl_push_sorted (its : List (PartsRangesIterator parts columns rev))
    {queue : List (QueueItem parts columns rev)} (h : queue.Pairwise fun a b => a.key ≤ b.key) :
    (its.foldl (fun queue it => QueueItem.push ⟨it, it.index⟩ queue) queue).Pairwise
      fun a b => a.key ≤ b.key := by
  induction its generalizing queue with
  | nil => exact h
  | cons it its ih => exact ih (h.orderedInsert _ _)

include hwf in
lemma queueOf_initialQueue : Cursor.start.QueueOf (initialQueue parts columns rev) := by
  have hperm := foldl_push_perm (partsRanges parts columns rev) []
  rw [append_nil] at hperm
  refine ⟨fun item => ?_, ?_, foldl_push_sorted _ Pairwise.nil⟩
  · rw [initialQueue, hperm.mem_iff, mem_map]
    constructor
    · rintro ⟨it, hit, rfl⟩
      obtain ⟨index, hinput, rfl | ⟨hdef, rfl⟩⟩ := mem_partsRanges_iff.1 hit
      · exact ⟨index, hinput, .inl ⟨hwf.range_lt hinput, rfl⟩⟩
      · exact ⟨index, hinput, .inr ⟨hdef, rfl, rfl⟩⟩
    · rintro ⟨index, hinput, ⟨-, rfl⟩ | ⟨hdef, -, rfl⟩⟩
      · exact ⟨_, startEvent_mem_iff.2 hinput, rfl⟩
      · exact ⟨_, endEvent_mem_iff.2 ⟨hinput, hdef⟩, rfl⟩
  · rw [initialQueue, hperm.nodup_iff]
    refine pairwise_map.2 ((partsRanges_key_ne hwf).imp fun hkey heq => hkey ?_)
    exact congrArg (fun item => item.first.key) heq

include hwf in
/-- At the start nothing has been read. -/
lemma consistent_initialState :
    Consistent Cursor.start Cursor.start (initialState parts columns rev) := by
  -- no range is open at the start
  have hclosed : ∀ index, ¬ (Cursor.start : Cursor parts).Open index := fun _ hopen =>
    lt_irrefl _ hopen.2.1
  have hempty : ∀ f, HashTable.Tabulates (∅ : HashTable (PartRangeIndex parts) ℕ)
      (Cursor.start : Cursor parts).Open f := fun f index mark => by
    simp [hclosed index]
  exact
    { bounds := ⟨fun _ _ => le_rfl,
        fun _ hinput => (hwf.range_lt hinput).le,
        fun _ _ hended => absurd hended Bool.false_ne_true⟩
      queue := queueOf_initialQueue hwf
      front := fun _ _ _ _ => ⟨fun _ hle hlt => absurd hlt hle.not_gt, nofun⟩
      begins := hempty _
      ends := hempty _
      valid := valid_nil
      count := fun i mark => by
        simp [initialState, Cursor.endedSince, Cursor.start, count_nil]
      next_le := fun _ => le_rfl
      ended_of := fun _ => id
      ahead := fun _ hborder => absurd hborder not_mem_nil
      last := nofun }

/-! ## All layers -/

/-- The border before a layer. -/
def lowerBorder (borders : List (Values α columns rev)) : ℕ → Option (Values α columns rev)
  | 0 => none
  | n + 1 => borders[n]?

omit [LinearOrder α] in
lemma lowerBorder_append {borders : List (Values α columns rev)} {n : ℕ}
    (h : n ≤ borders.length) (borders' : List (Values α columns rev)) :
    lowerBorder (borders ++ borders') n = lowerBorder borders n := by
  cases n with
  | zero => rfl
  | succ n => exact getElem?_append_left h

/-- What is known when a layer ends: the finished layers keep the rows between their borders,
and the last border is where the cursor is. -/
structure Layered (max_layers : ℕ) (c : Cursor parts) (s : LayersState parts columns rev) :
    Prop where
  consistent : Consistent c c { s with current_layer_builder := [] }
  borders_lt : s.borders.Pairwise (· < ·)
  is_key : ∀ border ∈ s.borders, 0 < columns ∧ IsIndexValue parts border
  keeps : ∀ n layer, s.result_layers[n]? = some layer →
    Keeps parts (lowerBorder s.borders n) s.borders[n]? (sortByPartIndex layer)
  at_border : s.parts_ranges_queue ≠ [] → c.From (lowerBorder s.borders s.borders.length)
  going_on : s.parts_ranges_queue ≠ [] →
    s.borders.length = s.result_layers.length ∧ s.result_layers.length < max_layers
  at_end : s.parts_ranges_queue = [] →
    s.result_layers.length = s.borders.length + 1 ∨
      s.result_layers = [] ∧ s.borders = [] ∧ ∀ index : PartRangeIndex parts, ¬ IsInput index

include hwf in
lemma layered_initialState {max_layers : ℕ} (hmax : 0 < max_layers) :
    Layered max_layers Cursor.start (initialState parts columns rev) where
  consistent := consistent_initialState hwf
  borders_lt := Pairwise.nil
  is_key := fun _ hborder => absurd hborder not_mem_nil
  keeps := fun n layer hlayer => by cases hlayer
  at_border := fun _ => rfl
  going_on := fun _ => ⟨rfl, hmax⟩
  at_end := fun hqueue => .inr ⟨rfl, rfl, fun index hinput => by
    have hlt := hwf.range_lt hinput
    have hmem : Cursor.start.markItem columns rev index ∈ initialQueue parts columns rev :=
      ((queueOf_initialQueue hwf).mem_iff _).2 ⟨index, hinput, .inl ⟨hlt, rfl⟩⟩
    rw [show initialQueue parts columns rev = [] from hqueue] at hmem
    cases hmem⟩

include h in
/-- The state after a layer is one at the beginning of a layer. -/
lemma Consistent.next_layer {begins : HashTable (PartRangeIndex parts) ℕ}
    (hbegins : HashTable.Tabulates begins c.Open c.layerBegin)
    (layers : List (RangesInDataParts α)) :
    Consistent c c
      { s with
        current_layer_builder := []
        current_part_range_begin := begins
        result_layers := layers } :=
  { h with
    begins := hbegins
    valid := valid_nil
    count := fun i mark => by
      rw [count_nil, eq_comm, countP_eq_zero]
      intro r _
      simp only [Cursor.endedSince, decide_eq_true_eq]
      -- nothing has ended since the layer began
      rintro ⟨hended, hnot, -⟩
      exact eq_false_iff.1 hnot hended
    next_le := fun _ => le_rfl
    ended_of := fun _ => id }

include h in
/-- At the end of the queue the marks of all ranges have been passed. -/
lemma Consistent.next_eq_end (hqueue : s.parts_ranges_queue = [])
    (hinput : IsInput index) : c.next index = index.range.end_ := by
  refine le_antisymm (h.bounds.le_end index hinput) (not_lt.1 fun hlt => ?_)
  have hmem := (h.queue.mem_iff (c.markItem columns rev index)).2 ⟨index, hinput, .inl ⟨hlt, rfl⟩⟩
  rw [hqueue] at hmem
  cases hmem

include hwf hidx in
/-- **One layer.** -/
theorem Layered.body
    (h : Layered max_layers c s) (hrows : 0 < rows_per_layer) (hne : s.parts_ranges_queue ≠ [])
    (order : HashOrder (PartRangeIndex parts) ℕ)
    (hfuel : queueWeight s.parts_ranges_queue ≤ fuel) :
    ∃ s' c', layerBody rows_per_layer max_layers order fuel s = some s' ∧
      Layered max_layers c' s' ∧
      queueWeight s'.parts_ranges_queue < queueWeight s.parts_ranges_queue := by
  obtain ⟨hlength, hlayers⟩ := h.going_on hne
  have hstart : Consistent c c
      { s with
        rows_in_current_layer := 0
        marks_in_current_layer := 0
        current_layer_builder := [] } := { h.consistent with }
  obtain ⟨s', c', hloop, hs', hlayers', hweight, hcases⟩ :=
    hstart.fill hwf hidx hrows hne hlayers hfuel
  obtain ⟨builder, begins, hclose, hbegins, hcount⟩ := hs'.close hwf order
  have hconsistent := hs'.next_layer hbegins
    (s'.result_layers ++ [getCurrentRangesInDataParts builder])
  have hfrom := h.at_border hne
  have hlength' : s.borders.length = s'.result_layers.length := by rw [hlength, hlayers']
  -- The layers that were there keep what they kept: the new border is after theirs.
  have hkeeps : ∀ borders, c'.UpTo (s.borders ++ borders)[s.borders.length]? →
      ∀ n layer, (s'.result_layers ++ [getCurrentRangesInDataParts builder])[n]? = some layer →
        Keeps parts (lowerBorder (s.borders ++ borders) n) (s.borders ++ borders)[n]?
          (sortByPartIndex layer) := by
    intro borders hupTo n layer hlayer
    rcases lt_trichotomy n s'.result_layers.length with hlt | rfl | hgt
    · rw [getElem?_append_left hlt, hlayers'] at hlayer
      rw [lowerBorder_append (hlength' ▸ hlt.le), getElem?_append_left (hlength' ▸ hlt)]
      exact h.keeps n layer hlayer
    · rw [getElem?_concat_length, some.injEq] at hlayer
      subst hlayer
      rw [← hlength', lowerBorder_append le_rfl]
      exact keeps_of_reads hwf hidx hfrom hupTo h.consistent.bounds hs'.bounds hcount
    · rw [getElem?_eq_none (by simpa using hgt)] at hlayer
      cases hlayer
  have hbody := congrArg (Option.map (closeLayer order)) hloop
  rw [map_some, hclose] at hbody
  refine ⟨_, c', hbody, ?_, hweight⟩
  rcases hcases with ⟨hborders, hqueue⟩ | ⟨value, hset⟩
  · -- The queue is at its end, and there is no new border.
    obtain ⟨_, _, _, _, _, _, _, _, _⟩ := s'
    obtain rfl : _ = s.borders := hborders
    refine ⟨hconsistent, h.borders_lt, h.is_key, ?_, fun hne' => absurd hqueue hne',
      fun hne' => absurd hqueue hne', fun _ => .inl ?_⟩
    · have hupTo : c'.UpTo (s.borders ++ [])[s.borders.length]? := by
        rw [append_nil, getElem?_eq_none le_rfl]
        exact fun index hinput => hs'.next_eq_end hqueue hinput
      have hkeeps := hkeeps [] hupTo
      rwa [append_nil] at hkeeps
    · simp only [length_append, hlength', length_singleton]
  · obtain ⟨hborders, hborder, hkey, hlt, hsize, hnil⟩ := hset
    have hlast : (s.borders ++ [value])[s.borders.length]? = some value := getElem?_concat_length
    -- The border is before what is left in the queue.
    obtain ⟨item, hitem⟩ := exists_mem_of_ne_nil _ hnil
    have hcolumns := Values.columns_pos_of_lt (hs'.ahead value (by simp [hborders]) item hitem)
    obtain ⟨_, _, _, _, _, _, _, _, _⟩ := s'
    obtain rfl : _ = s.borders ++ [value] := hborders
    refine ⟨hconsistent, pairwise_append.2 ⟨h.borders_lt, pairwise_singleton _ _, ?_⟩,
      ?_, hkeeps [value] (hlast ▸ hborder), fun _ => ?_, fun _ => ⟨?_, ?_⟩,
      fun hqueue => absurd hqueue hnil⟩
    · simpa using hlt
    · simp only [mem_append, mem_singleton]
      rintro border (hmem | rfl)
      · exact h.is_key border hmem
      · exact ⟨hcolumns, hkey⟩
    · rw [length_append, length_singleton]
      change c'.From (s.borders ++ [value])[s.borders.length]?
      rw [hlast]
      exact hborder
    · simp only [length_append, hlength', length_singleton]
    · rw [length_append, length_singleton]
      exact hsize

end Step

/-- What the layers and their borders are: there is one border less than there are layers, and
each layer keeps the rows between two of them. -/
structure SplitPartsByRanges.Correct (parts : RangesInDataParts α)
    (result : SplitPartsByRanges α columns rev) : Prop where
  borders_lt : result.borders.Pairwise (· < ·)
  is_key : ∀ border ∈ result.borders, 0 < columns ∧ IsIndexValue parts border
  keeps : ∀ n layer, result.layers[n]? = some layer →
    Keeps parts (lowerBorder result.borders n) result.borders[n]? layer
  length_eq : result.layers.length = result.borders.length + 1 ∨
    result.layers = [] ∧ result.borders = [] ∧ ∀ index : PartRangeIndex parts, ¬ IsInput index

/-- **The layers are correct**, and a bounded number of iterations is enough for every loop. -/
theorem splitIntersectingPartsRangesIntoLayers_correct (hwf : WellFormed parts)
    (hsorted : ∀ p ∈ parts, p.data_part.Sorted rev)
    (order : HashOrder (PartRangeIndex parts) ℕ) {max_layers : ℕ} (hmax : 0 < max_layers)
    (max_columns_in_index : ℕ) {fuel : ℕ}
    (hfuel : queueWeight (initialQueue parts (loadedColumns parts max_columns_in_index) rev) ≤
      fuel) :
    ∃ result, splitIntersectingPartsRangesIntoLayers parts rev order fuel max_layers
        max_columns_in_index = some result ∧ result.Correct parts := by
  have hidx := Indexed.loadedColumns hsorted max_columns_in_index
  have hrows : 0 < max (getRowsCountAllParts parts / max_layers) 1 :=
    Nat.one_pos.trans_le (le_max_right _ _)
  -- each layer takes events from the queue, so that the queue ends
  obtain ⟨s, hloop, ⟨⟨c, hs⟩, -⟩, hdone⟩ := whileLoop_spec
    (fun s => !s.parts_ranges_queue.isEmpty)
    (layerBody (max (getRowsCountAllParts parts / max_layers) 1) max_layers order fuel)
    (fun s => (∃ c, Layered max_layers c s) ∧ queueWeight s.parts_ranges_queue ≤ fuel)
    (fun s => queueWeight s.parts_ranges_queue)
    (fun s ⟨⟨c, hs⟩, hfuel⟩ hcond => by
      have hne : s.parts_ranges_queue ≠ [] := by simpa using hcond
      obtain ⟨s', c', hbody, hs', hlt⟩ := hs.body hwf hidx hrows hne order hfuel
      exact ⟨s', hbody, ⟨⟨c', hs'⟩, hlt.le.trans hfuel⟩, hlt⟩)
    fuel (initialState parts (loadedColumns parts max_columns_in_index) rev)
    ⟨⟨_, layered_initialState hwf hmax⟩, hfuel⟩ hfuel
  refine ⟨_, by rw [splitIntersectingPartsRangesIntoLayers, hloop]; rfl, hs.borders_lt, hs.is_key,
    fun n layer hlayer => ?_, ?_⟩
  · rw [getElem?_map, Option.map_eq_some_iff] at hlayer
    obtain ⟨layer, hlayer, rfl⟩ := hlayer
    exact hs.keeps n layer hlayer
  · have hqueue : s.parts_ranges_queue = [] := by simpa using hdone
    rw [length_map, map_eq_nil_iff]
    exact hs.at_end hqueue

end ClickHouse.PartsSplitter
