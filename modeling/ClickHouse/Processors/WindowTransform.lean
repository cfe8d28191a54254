/-
Window functions: the transform that finds the frame of every row
(`src/src/Processors/Transforms/WindowTransform.cpp`).

The input is sorted by the PARTITION BY and then by the ORDER BY columns and comes in
chunks. The transform keeps a queue of the blocks it may still need and a number of
cursors into it: the boundaries of the partition, the row whose result is computed, the
boundaries of its frame and those of the frame before. A cursor waits at the end of the
data when it cannot be decided where it has to stop.

A key column value is a NULL, a NaN, an integer or a value of any other type with an
order; the ORDER BY column of a RANGE frame with offsets is one of the integer types or
`Float32` or `Float64`, whose arithmetic is a parameter. The aggregate function is any
function that adds the rows of a frame one by one. `work` and the output side of `prepare`
are modelled, the ports are not; the numbers that only the ranking functions read are left
out, and so is cancellation.

A row that is not in the queue any more reads as `none`.
-/
import ClickHouse.Lib.BlockCursor
import ClickHouse.Lib.WhileLoop
import ClickHouse.Core.ColumnValue

set_option autoImplicit false

namespace ClickHouse.Window

open Lib (scanUntil slice whileLoop)
open Column (Value compareAt sign)

/-! ## Columns -/

/-- The integer types that `APPLY_FOR_TYPES` dispatches on. -/
inductive IntType where
  | UInt8
  | UInt16
  | UInt32
  | UInt64
  | Int8
  | Int16
  | Int32
  | Int64
  | Int128
deriving DecidableEq, Repr

def IntType.min : IntType → ℤ
  | .UInt8 | .UInt16 | .UInt32 | .UInt64 => 0
  | .Int8 => -2 ^ 7
  | .Int16 => -2 ^ 15
  | .Int32 => -2 ^ 31
  | .Int64 => -2 ^ 63
  | .Int128 => -2 ^ 127

def IntType.max : IntType → ℤ
  | .UInt8 => 2 ^ 8 - 1
  | .UInt16 => 2 ^ 16 - 1
  | .UInt32 => 2 ^ 32 - 1
  | .UInt64 => 2 ^ 64 - 1
  | .Int8 => 2 ^ 7 - 1
  | .Int16 => 2 ^ 15 - 1
  | .Int32 => 2 ^ 31 - 1
  | .Int64 => 2 ^ 63 - 1
  | .Int128 => 2 ^ 127 - 1

/-- `compareValuesWithOffset`: `compared` with `reference` moved by the offset. A sum that
overflows lies beyond every value of the type. -/
def compareValuesWithOffset (type : IntType) (compared reference offset : ℤ)
    (offset_is_preceding : Bool) : ℤ :=
  let moved := if offset_is_preceding then reference - offset else reference + offset
  if moved < type.min ∨ type.max < moved then
    if offset_is_preceding then 1 else -1
  else if compared < moved then -1 else if compared = moved then 0 else 1

/-- The arithmetic of `Float32` or `Float64` on the values that are not NaN: an offset is
subtracted or added, and the result is rounded. The values include the infinities, so that
no result is a NaN. -/
structure FloatArithmetic (V : Type) where
  sub : V → ℕ → V
  add : V → ℕ → V

/-- `compareValuesWithOffsetFloat`. No comparison with a NaN holds, so that what is left
is `1`. -/
def compareValuesWithOffsetFloat {V : Type} [Ord V] (arithmetic : FloatArithmetic V)
    (compared reference : Value V) (offset : ℕ) (offset_is_preceding : Bool) : ℤ :=
  match compared, reference with
  | .other a, .other b =>
    sign (compare a
      (if offset_is_preceding then arithmetic.sub b offset else arithmetic.add b offset))
  | _, _ => 1

/-- The types that `APPLY_FOR_TYPES` dispatches on. `digits` is the length of the
significand of a floating-point type, 24 or 53. -/
inductive OrderType (V : Type) where
  | integer (type : IntType)
  | float (digits : ℕ) (arithmetic : FloatArithmetic V)

/-- The dispatch on the type of the column. A column of an integer type holds integers
only. -/
def OrderType.compareWithOffset {V : Type} [Ord V] (type : OrderType V)
    (compared reference : Value V) (offset : ℕ) (offset_is_preceding : Bool) : ℤ :=
  match type with
  | .integer type =>
    match compared, reference with
    | .int a, .int b => compareValuesWithOffset type a b offset offset_is_preceding
    | _, _ => 0
  | .float _ arithmetic =>
    compareValuesWithOffsetFloat arithmetic compared reference offset offset_is_preceding

/-- `compareValuesWithOffsetNullable`; on a column without NULLs it is the function of the
nested type. -/
def compareValuesWithOffsetNullable {V : Type} [Ord V] (type : OrderType V)
    (compared reference : Value V) (offset : ℕ) (offset_is_preceding : Bool) : ℤ :=
  match compared, reference with
  | .null, .null => 0
  | .null, _ => -1
  | _, .null => 1
  | _, _ => type.compareWithOffset compared reference offset offset_is_preceding

/-- `convertFieldToTypeOrThrow` for an offset: a number that the type does not have is
refused, and a floating-point type has those that its significand is long enough for. -/
def OrderType.convertsOffset {V : Type} : OrderType V → ℕ → Bool
  | .integer type, offset => decide (offset ≤ type.max)
  | .float digits _, offset => decide (offset % 2 ^ (offset.log2 + 1 - digits) = 0)

/-! ## The description of a window -/

/-- `SortColumnDescription`: both directions are `1` or `-1`. -/
structure SortColumnDescription where
  direction : ℤ := 1
  nulls_direction : ℤ := 1
  direction_sign : direction = 1 ∨ direction = -1 := by decide
  nulls_direction_sign : nulls_direction = 1 ∨ nulls_direction = -1 := by decide

/-- `WindowFrame::FrameType`; `GROUPS` is refused before a transform is made. -/
inductive FrameType where
  | ROWS
  | RANGE
deriving DecidableEq, Repr

inductive BoundaryType where
  | Unbounded
  | Current
  | Offset
deriving DecidableEq, Repr

/-- `WindowFrame`, with its defaults. -/
structure WindowFrame where
  type : FrameType := .RANGE
  begin_type : BoundaryType := .Unbounded
  begin_offset : ℕ := 0
  begin_preceding : Bool := true
  end_type : BoundaryType := .Current
  end_offset : ℕ := 0
  end_preceding : Bool := false
deriving DecidableEq, Repr

/-- The exceptions of the checks, with what their texts show. -/
inductive FrameError where
  | startOffsetNot32Bit (type : FrameType) (offset : ℕ)
  | endOffsetNot32Bit (type : FrameType) (offset : ℕ)
  | startDoesNotPrecedeEnd (begin_offset : ℕ) (begin_preceding : Bool) (end_offset : ℕ)
      (end_preceding : Bool)
  | invalidFrame (frame : WindowFrame)
  | oneOrderByColumn (columns : ℕ)
deriving DecidableEq, Repr

/-- The relative positions of the boundaries. -/
def WindowFrame.checkOrder (frame : WindowFrame) : Except FrameError Unit :=
  match frame.begin_type, frame.end_type with
  | .Unbounded, _ | _, .Unbounded => .ok ()
  | .Current, .Current => .ok ()
  | .Current, .Offset => if frame.end_preceding then .error (.invalidFrame frame) else .ok ()
  | .Offset, .Current => if frame.begin_preceding then .ok () else .error (.invalidFrame frame)
  | .Offset, .Offset =>
    -- the offsets with their signs are in order
    let begin_less_equal_end := match frame.begin_preceding, frame.end_preceding with
      | true, true => decide (frame.end_offset ≤ frame.begin_offset)
      | true, false => true
      | false, true => false
      | false, false => decide (frame.begin_offset ≤ frame.end_offset)
    if begin_less_equal_end then .ok ()
    else .error (.startDoesNotPrecedeEnd frame.begin_offset frame.begin_preceding
      frame.end_offset frame.end_preceding)

/-- `WindowFrame::checkValid`. -/
def WindowFrame.checkValid (frame : WindowFrame) : Except FrameError Unit :=
  if frame.begin_type = .Offset ∧ ¬ frame.begin_offset < 2 ^ 31 - 1 then
    .error (.startOffsetNot32Bit frame.type frame.begin_offset)
  else if frame.end_type = .Offset ∧ ¬ frame.end_offset < 2 ^ 31 - 1 then
    .error (.endOffsetNot32Bit frame.type frame.end_offset)
  else frame.checkOrder

/-- A RANGE frame with an offset. -/
def WindowFrame.rangeOffset (frame : WindowFrame) : Bool :=
  decide (frame.type = .RANGE ∧ (frame.begin_type = .Offset ∨ frame.end_type = .Offset))

/-- The window of a transform with `q` ORDER BY columns. `order_type` is the type of the
only one in a RANGE frame with offsets. -/
structure WindowDescription (q : ℕ) (V : Type) where
  order_by : Fin q → SortColumnDescription
  order_type : OrderType V := .integer .Int64
  frame : WindowFrame

/-- `WindowDescription::checkValid`. -/
def WindowDescription.checkValid {q : ℕ} {V : Type} (d : WindowDescription q V) :
    Except FrameError Unit := do
  d.frame.checkValid
  if d.frame.rangeOffset ∧ q ≠ 1 then throw (.oneOrderByColumn q)

/-- The constructor converts the offsets of a RANGE frame to the type of the column, or
throws. -/
def WindowDescription.convertOffsets {q : ℕ} {V : Type} (d : WindowDescription q V) : Bool :=
  !d.frame.rangeOffset ||
    (!(d.frame.begin_type == .Offset) || d.order_type.convertsOffset d.frame.begin_offset) &&
      (!(d.frame.end_type == .Offset) || d.order_type.convertsOffset d.frame.end_offset)

/-- A row: the PARTITION BY and the ORDER BY columns, and the arguments of the function. -/
structure Row (p q : ℕ) (V A : Type) where
  partition_by : Fin p → Value V
  order_by : Fin q → Value V
  arguments : A

/-- The column at index 0, if there is one. -/
def front {β : Type} {q : ℕ} (columns : Fin q → β) : Option β :=
  if h : 0 < q then some (columns ⟨0, h⟩) else none

/-- The value of the ORDER BY column of a RANGE frame with offsets, which has only one. -/
def orderKey {p q : ℕ} {V A : Type} (row : Row p q V A) : Value V :=
  (front row.order_by).getD .null

/-- An aggregate function: its state is created, rows are added, and the result is read off. -/
structure AggregateFunction (A S R : Type) where
  create : S
  add : S → A → S
  insertResult : S → R

/-! ## The state -/

abbrev RowNumber := Lib.Cursor

section

variable {p q : ℕ} {V A S R : Type}

variable (p q V A R) in
/-- A block of the queue, with the results that have been written for its first rows. -/
structure WindowTransformBlock where
  rows : List (Row p q V A)
  output_columns : List R

variable (p q V A S R) in
/-- `WindowTransform`, with one window function. -/
structure WindowTransform where
  input_is_finished : Bool
  blocks : List (WindowTransformBlock p q V A R)
  -- the blocks in the queue are numbered from here
  first_block_number : ℕ
  next_output_block_number : ℕ
  -- the rows before it have their results
  first_not_ready_row : RowNumber
  partition_start : RowNumber
  partition_end : RowNumber
  partition_ended : Bool
  current_row : RowNumber
  peer_group_start : RowNumber
  frame_start : RowNumber
  frame_end : RowNumber
  frame_ended : Bool
  frame_started : Bool
  -- the frame of the row before, which the state was computed for
  prev_frame_start : RowNumber
  prev_frame_end : RowNumber
  aggregate_function_state : S
  -- the blocks that were put out
  output : List (WindowTransformBlock p q V A R)

namespace WindowTransform

variable (t : WindowTransform p q V A S R)

/-- `blockAt(block_number)`; `none` is a block that is not in the queue. -/
def blockAt (block : ℕ) : Option (WindowTransformBlock p q V A R) :=
  if t.first_block_number ≤ block then t.blocks[block - t.first_block_number]? else none

def blockRows (block : ℕ) : List (Row p q V A) := (t.blockAt block).elim [] (·.rows)

def blockRowsNumber (x : RowNumber) : ℕ := (t.blockRows x.block).length

/-- The row at a place of the queue. -/
def inputAt (x : RowNumber) : Option (Row p q V A) := (t.blockRows x.block)[x.row]?

/-- The place behind the last block. -/
def blocksEnd : RowNumber := ⟨t.first_block_number + t.blocks.length, 0⟩

/-- `advanceRowNumber`, which does not look whether there is a next block. -/
def advanceRowNumber (x : RowNumber) : RowNumber :=
  if x.row + 1 < t.blockRowsNumber x then ⟨x.block, x.row + 1⟩ else ⟨x.block + 1, 0⟩

/-- The rows of the queue: no loop over rows takes more steps. -/
def rowsInBlocks : ℕ := (t.blocks.map (·.rows.length)).sum

/-! ## The partition -/

variable [Ord V]

def samePartition (x y : Row p q V A) : Bool :=
  decide (∀ i, compareAt (y.partition_by i) (x.partition_by i) 1 = 0)

/-- The comparison of two rows that are there. -/
def compareRows (test : Row p q V A → Row p q V A → Bool) :
    Option (Row p q V A) → Option (Row p q V A) → Bool
  | some x, some y => test x y
  | _, _ => false

/-- A test of the rows at two places; it fails if one of them is not there. -/
def both (test : Row p q V A → Row p q V A → Bool) (x y : RowNumber) : Bool :=
  compareRows test (t.inputAt x) (t.inputAt y)

/-- `advancePartitionEnd`. Rows are compared with `prev_frame_start`, at most to the end of a
block. -/
def advancePartitionEnd : WindowTransform p q V A S R :=
  if t.partition_ended then t
  else if t.input_is_finished then { t with partition_ended := true }
  else if t.partition_end = t.blocksEnd then t
  else if p = 0 then { t with partition_end := t.blocksEnd }
  else
    let block := t.partition_end.block
    let block_rows := t.blockRowsNumber t.partition_end
    let row := scanUntil (fun row => !t.both samePartition t.prev_frame_start ⟨block, row⟩)
      t.partition_end.row block_rows
    if row < block_rows then { t with partition_end := ⟨block, row⟩, partition_ended := true }
    else { t with partition_end := ⟨block + 1, 0⟩ }

/-! ## Moving a row number -/

/-- The loop for a positive offset. -/
def moveForward : ℕ → RowNumber → ℕ → RowNumber × ℤ
  | 0, x, offset => (x, offset)
  | fuel + 1, x, offset =>
    let block_rows := t.blockRowsNumber x
    if block_rows ≤ x.row + offset then
      let moved : RowNumber := ⟨x.block + 1, 0⟩
      if moved = t.blocksEnd then (moved, (x.row + offset - block_rows : ℕ))
      else moveForward fuel moved (x.row + offset - block_rows)
    else (⟨x.block, x.row + offset⟩, 0)

/-- The loop for a negative offset `-n`. -/
def moveBackward : ℕ → RowNumber → ℕ → RowNumber × ℤ
  | 0, x, n => (x, -n)
  | fuel + 1, x, n =>
    if n ≤ x.row then (⟨x.block, x.row - n⟩, 0)
    else if x.block = t.first_block_number then (⟨x.block, 0⟩, -((n - x.row : ℕ) : ℤ))
    else
      moveBackward fuel ⟨x.block - 1, (t.blockRows (x.block - 1)).length - 1⟩ (n - x.row - 1)

/-- `moveRowNumber`: the row and the rest of the offset. -/
def moveRowNumber (x : RowNumber) (offset : ℤ) : RowNumber × ℤ :=
  if 0 < offset ∧ x ≠ t.blocksEnd then t.moveForward (t.blocks.length + 1) x offset.toNat
  else if offset < 0 then t.moveBackward (t.blocks.length + 1) x (-offset).toNat
  else (x, offset)

/-! ## The start of the frame -/

variable (d : WindowDescription q V)

/-- `for (; x < partition_end; advanceRowNumber(x)) if (stop(x)) break;` -/
def scanRows (stop : RowNumber → Bool) : ℕ → RowNumber → RowNumber
  | 0, x => x
  | fuel + 1, x =>
    if x < t.partition_end then
      if stop x then x else scanRows stop fuel (t.advanceRowNumber x)
    else x

/-- An offset as the code passes it on: `UInt64` arithmetic, then `Int64`. -/
def rowsOffset (offset : ℕ) (preceding : Bool) (plus : UInt64) : ℤ :=
  (UInt64.ofNat offset * (if preceding then -1 else 1) + plus).toInt64.toInt

def direction : ℤ := (front d.order_by).elim 1 (·.direction)

/-- `compare_values_with_offset(x, current, offset, preceding) * direction` for a boundary
that is `preceding` in the order of the window. -/
def compareWithOffset (offset : ℕ) (preceding : Bool) (current x : Row p q V A) : ℤ :=
  compareValuesWithOffsetNullable d.order_type (orderKey x) (orderKey current) offset
    (preceding == decide (0 < direction d)) * direction d

/-- `advanceFrameStartRowsOffset`. The start is found if nothing of the offset is left. -/
def advanceFrameStartRowsOffset : WindowTransform p q V A S R :=
  let moved := t.moveRowNumber t.current_row
    (rowsOffset d.frame.begin_offset d.frame.begin_preceding 0)
  if moved.1 ≤ t.partition_start then
    { t with frame_start := t.partition_start, frame_started := true }
  else if t.partition_end ≤ moved.1 then
    { t with frame_start := t.partition_end, frame_started := t.partition_ended }
  else { t with frame_start := moved.1, frame_started := decide (moved.2 = 0) }

/-- Where the search for the start of a RANGE frame ends. -/
def startsFrame (current x : Row p q V A) : Bool :=
  decide (0 ≤ compareWithOffset d d.frame.begin_offset d.frame.begin_preceding current x)

/-- `advanceFrameStartRangeOffset`, from the start of the frame before. -/
def advanceFrameStartRangeOffset : WindowTransform p q V A S R :=
  let x := t.scanRows (t.both (startsFrame d) t.current_row) (t.rowsInBlocks + 1) t.frame_start
  { t with frame_start := x, frame_started := decide (x < t.partition_end) || t.partition_ended }

/-- `advanceFrameStart`. -/
def advanceFrameStart : WindowTransform p q V A S R :=
  if t.frame_started then t
  else
    match d.frame.begin_type with
    | .Unbounded => { t with frame_started := true }
    | .Current => { t with frame_start := t.peer_group_start, frame_started := true }
    | .Offset =>
      match d.frame.type with
      | .ROWS => t.advanceFrameStartRowsOffset d
      | .RANGE => t.advanceFrameStartRangeOffset d

/-! ## The end of the frame -/

def sameOrder (x y : Row p q V A) : Bool :=
  decide (∀ i, compareAt (x.order_by i) (y.order_by i) 1 = 0)

/-- The branches of `arePeers`. -/
def peers (same_row same_order : Bool) : Bool :=
  if same_row then true
  else
    match d.frame.type with
    | .ROWS => false
    | .RANGE => if q = 0 then true else same_order

/-- `arePeers(x, y)`. -/
def arePeers (x y : RowNumber) : Bool := peers d (decide (x = y)) (t.both sameOrder x y)

/-- `advanceFrameEndCurrentRow`, within one block. -/
def advanceFrameEndCurrentRow : WindowTransform p q V A S R :=
  if t.frame_end = t.partition_end then { t with frame_ended := t.partition_ended }
  else
    let block := t.frame_end.block
    let rows_end := if t.partition_end.row = 0 then t.blockRowsNumber t.frame_end
      else t.partition_end.row
    let row := scanUntil (fun row => !t.arePeers d t.current_row ⟨block, row⟩) t.frame_end.row
      rows_end
    if row < rows_end then { t with frame_end := ⟨block, row⟩, frame_ended := true }
    else if row = t.blockRowsNumber t.frame_end then
      { t with frame_end := ⟨block + 1, 0⟩, frame_ended := t.partition_ended }
    else { t with frame_end := ⟨block, row⟩, frame_ended := t.partition_ended }

def advanceFrameEndUnbounded : WindowTransform p q V A S R :=
  { t with frame_end := t.partition_end, frame_ended := t.partition_ended }

/-- `advanceFrameEndRowsOffset`. The end is past the row at the offset. -/
def advanceFrameEndRowsOffset : WindowTransform p q V A S R :=
  let moved := t.moveRowNumber t.current_row
    (rowsOffset d.frame.end_offset d.frame.end_preceding 1)
  if t.partition_end ≤ moved.1 then
    { t with frame_end := t.partition_end, frame_ended := t.partition_ended }
  else if moved.1 ≤ t.partition_start then
    { t with frame_end := t.partition_start, frame_ended := true }
  else { t with frame_end := moved.1, frame_ended := decide (moved.2 = 0) }

/-- Where the search for the end of a RANGE frame ends. -/
def endsFrame (current x : Row p q V A) : Bool :=
  decide (0 < compareWithOffset d d.frame.end_offset d.frame.end_preceding current x)

/-- `advanceFrameEndRangeOffset`, from the end of the frame before. -/
def advanceFrameEndRangeOffset : WindowTransform p q V A S R :=
  let x := t.scanRows (t.both (endsFrame d) t.current_row) (t.rowsInBlocks + 1) t.frame_end
  { t with frame_end := x, frame_ended := decide (x < t.partition_end) || t.partition_ended }

/-- `advanceFrameEnd`. -/
def advanceFrameEnd : WindowTransform p q V A S R :=
  match d.frame.end_type with
  | .Current => t.advanceFrameEndCurrentRow d
  | .Unbounded => t.advanceFrameEndUnbounded
  | .Offset =>
    match d.frame.type with
    | .ROWS => t.advanceFrameEndRowsOffset d
    | .RANGE => t.advanceFrameEndRangeOffset d

/-! ## The aggregate function -/

variable (f : AggregateFunction A S R)

def addBatchSinglePlace (rows : List (Row p q V A)) (row_begin row_end : ℕ) (state : S) : S :=
  (slice rows row_begin row_end).foldl (fun state row => f.add state row.arguments) state

/-- The loop over the blocks from `rows_to_add_start` to `rows_to_add_end`. -/
def addRows (rows_to_add_start rows_to_add_end : RowNumber) (state : S) : S :=
  let past_the_end_block := if rows_to_add_end.row = 0 then rows_to_add_end.block
    else rows_to_add_end.block + 1
  (List.range' rows_to_add_start.block (past_the_end_block - rows_to_add_start.block)).foldl
    (fun state block =>
      let first_row := if block = rows_to_add_start.block then rows_to_add_start.row else 0
      let past_the_end_row := if block = rows_to_add_end.block then rows_to_add_end.row
        else (t.blockRows block).length
      addBatchSinglePlace f (t.blockRows block) first_row past_the_end_row state) state

/-- `updateAggregationState`: rows are added, or the state is built anew if the start has moved. -/
def updateAggregationState : WindowTransform p q V A S R :=
  { t with
    aggregate_function_state :=
      if t.frame_start = t.prev_frame_start then
        t.addRows f t.prev_frame_end t.frame_end t.aggregate_function_state
      else t.addRows f t.frame_start t.frame_end f.create }

/-- `writeOutCurrentRow`. -/
def writeOutCurrentRow : WindowTransform p q V A S R :=
  { t with
    blocks := t.blocks.modify (t.current_row.block - t.first_block_number) fun block =>
      { block with
        output_columns := block.output_columns ++ [f.insertResult t.aggregate_function_state] } }

/-! ## The main loop -/

/-- The state of a loop that `return` leaves. -/
structure Loop (p q : ℕ) (V A S R : Type) where
  transform : WindowTransform p q V A S R
  returned : Bool

def updatePeerGroup : WindowTransform p q V A S R :=
  if t.arePeers d t.peer_group_start t.current_row then t
  else { t with peer_group_start := t.current_row }

/-- `frame_end` starts from `frame_start` at the earliest. -/
def raiseFrameEnd : WindowTransform p q V A S R :=
  if t.frame_end < t.frame_start then { t with frame_end := t.frame_start } else t

/-- The end of the loop body: the frame is kept as the previous one. -/
def nextRow : WindowTransform p q V A S R :=
  let current_row := t.advanceRowNumber t.current_row
  { t with
    prev_frame_start := t.frame_start
    prev_frame_end := t.frame_end
    current_row := current_row
    first_not_ready_row := current_row
    frame_ended := false
    frame_started := false }

/-- One iteration of `while (current_row < partition_end)`. -/
def processRow : Loop p q V A S R :=
  let t := (t.updatePeerGroup d).advanceFrameStart d
  if !t.frame_started then ⟨t, true⟩
  else
    let t := t.raiseFrameEnd.advanceFrameEnd d
    if !t.frame_ended then ⟨t, true⟩
    else ⟨((t.updateAggregationState f).writeOutCurrentRow f).nextRow, false⟩

/-- `while (current_row < partition_end)`, with a bound that it does not reach. -/
def processRows : Option (Loop p q V A S R) :=
  whileLoop (fun s => !s.returned && decide (s.transform.current_row < s.transform.partition_end))
    (fun s => some (s.transform.processRow d f)) t.rowsInBlocks ⟨t, false⟩

/-- A new partition starts where the last one ended. -/
def startPartition : WindowTransform p q V A S R :=
  { t with
    partition_start := t.partition_end
    partition_end := t.advanceRowNumber t.partition_end
    partition_ended := false
    frame_start := t.partition_end
    frame_end := t.partition_end
    prev_frame_start := t.partition_end
    prev_frame_end := t.partition_end
    peer_group_start := t.partition_end
    aggregate_function_state := f.create }

/-- One iteration of the outer loop. -/
def processPartition : Option (Loop p q V A S R) :=
  (t.advancePartitionEnd.processRows d f).map fun s =>
    if s.returned || s.transform.input_is_finished || !s.transform.partition_ended then
      ⟨s.transform, true⟩
    else ⟨s.transform.startPartition f, false⟩

/-- The outer loop of `appendChunk`. -/
def processPartitions : Option (WindowTransform p q V A S R) :=
  (whileLoop (fun s : Loop p q V A S R => !s.returned)
    (fun s => s.transform.processPartition d f) (t.rowsInBlocks + 1) ⟨t, false⟩).map (·.transform)

/-- `appendChunk`. An empty chunk is skipped before the end of the input. -/
def appendChunk (chunk : List (Row p q V A)) : Option (WindowTransform p q V A S R) :=
  if t.input_is_finished then t.processPartitions d f
  else if chunk = [] then some t
  else WindowTransform.processPartitions { t with blocks := t.blocks ++ [⟨chunk, []⟩] } d f

/-! ## The processor -/

/-- The end of `work`: blocks that nothing refers to are dropped. -/
def dropBlocks : WindowTransform p q V A S R :=
  let first_used_block := min t.next_output_block_number
    (min t.prev_frame_start.block t.current_row.block)
  if t.first_block_number < first_used_block then
    { t with
      blocks := t.blocks.drop (first_used_block - t.first_block_number)
      first_block_number := first_used_block }
  else t

def work (chunk : List (Row p q V A)) : Option (WindowTransform p q V A S R) :=
  (t.appendChunk d f chunk).map dropBlocks

/-- `prepare` with a ready block. -/
def pushBlock : WindowTransform p q V A S R :=
  { t with
    output := t.output ++ (t.blockAt t.next_output_block_number).toList
    next_output_block_number := t.next_output_block_number + 1 }

/-- All ready blocks are pushed before more input is pulled. -/
def pushBlocks : WindowTransform p q V A S R :=
  (pushBlock)^[t.first_not_ready_row.block - t.next_output_block_number] t

/-- A chunk that has been pulled, and the blocks that it makes ready. -/
def receive (chunk : List (Row p q V A)) : Option (WindowTransform p q V A S R) :=
  (t.work d f chunk).map pushBlocks

variable (p q V A) in
/-- A transform before its first input. -/
def initial : WindowTransform p q V A S R where
  input_is_finished := false
  blocks := []
  first_block_number := 0
  next_output_block_number := 0
  first_not_ready_row := {}
  partition_start := {}
  partition_end := {}
  partition_ended := false
  current_row := {}
  peer_group_start := {}
  frame_start := {}
  frame_end := {}
  frame_ended := false
  frame_started := false
  prev_frame_start := {}
  prev_frame_end := {}
  aggregate_function_state := f.create
  output := []

end WindowTransform

variable [Ord V]

/-- All chunks, then the end of the input: the blocks that were pushed. -/
def run (d : WindowDescription q V) (f : AggregateFunction A S R)
    (chunks : List (List (Row p q V A))) : Option (List (WindowTransformBlock p q V A R)) := do
  let t ← chunks.foldlM (fun t chunk => t.receive d f chunk) (WindowTransform.initial p q V A f)
  let t ← { t with input_is_finished := true }.receive d f []
  return t.output

end

end ClickHouse.Window
