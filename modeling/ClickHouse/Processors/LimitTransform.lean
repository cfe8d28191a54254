/-
LIMIT, OFFSET and WITH TIES (`src/src/Processors/LimitTransform.cpp`).

The transform has a number of pairs of an input and an output port and one counter of the
rows it has read. A chunk is cut by the place it has in the order in which the chunks
arrive, whatever port they come from. For WITH TIES the sort columns of the last row within
the limit are kept, and the rows that equal it still go out; this is for one pair only.

`prepare` is modelled with the ports it sees: a port holds at most one chunk, its producer
can finish it and its consumer can close it. The two ends are part of the model, as a
source that pushes its chunks where it may and a reader that takes what comes out, in any
order of events. The counter `rows_before_limit_at_least`, exceptions in ports and a reader
that stops early are left out.
-/
import ClickHouse.Core.ColumnValue

set_option autoImplicit false

namespace ClickHouse.Limit

open Column (Value compareAt)

/-- A row: the columns of the sort description and the others. -/
structure Row (q : ℕ) (V A : Type) where
  sort_columns : Fin q → Value V
  columns : A

/-- A chunk, by its rows. -/
abbrev Chunk (q : ℕ) (V A : Type) := List (Row q V A)

/-- The arguments of the constructor. -/
structure LimitTransform where
  limit : UInt64
  offset : UInt64
  always_read_till_end : Bool := false
  with_ties : Bool := false
deriving DecidableEq, Repr

variable {q : ℕ} {V A : Type}

variable (q V) in
/-- What all ports share. -/
structure Counters where
  rows_read : UInt64
  previous_row_chunk : Option (Fin q → Value V)

namespace LimitTransform

variable (t : LimitTransform) (s : Counters q V)

/-- `offset + limit` does not fit into `UInt64`. -/
def limit_is_unreachable : Bool := decide (t.limit > UInt64.ofNat (2 ^ 64 - 1) - t.offset)

/-- No row is to be put out any more, ties included. -/
def is_limit_reached : Bool :=
  !t.limit_is_unreachable && decide (s.rows_read ≥ t.offset + t.limit) &&
    s.previous_row_chunk.isNone

/-! ## One chunk -/

variable (chunk : Chunk q V A)

def getNumRows : UInt64 := UInt64.ofNat chunk.length

/-- `makeChunkWithPreviousRow`: the sort columns of a row. -/
def makeChunkWithPreviousRow (row : UInt64) : Option (Fin q → Value V) :=
  chunk[row.toNat]?.map (·.sort_columns)

/-- `column->cut(start, length)` for each column. -/
def cut (start length : UInt64) : Chunk q V A :=
  (chunk.drop start.toNat).take length.toNat

variable [Ord V]

/-- The row ties with the last one before the limit. -/
def sortColumnsEqualAt (previous : Fin q → Value V) (row : Row q V A) : Bool :=
  decide (∀ c, compareAt (row.sort_columns c) (previous c) 1 = 0)

/-- `for (; current_row_num < num_rows; ++current_row_num) if (!sortColumnsEqualAt(…)) break;` -/
def skipEqual (previous : Option (Fin q → Value V)) (chunk : Chunk q V A)
    (current_row_num : UInt64) : UInt64 :=
  match previous with
  | none => current_row_num
  | some previous =>
    current_row_num + UInt64.ofNat
      ((chunk.drop current_row_num.toNat).takeWhile (sortColumnsEqualAt previous)).length

/-- The rows of the chunk that lie in the limit: the start and the length of the piece. -/
def piece (num_rows : UInt64) : UInt64 × UInt64 :=
  let start := if t.offset + num_rows > s.rows_read then t.offset + num_rows - s.rows_read else 0
  let length := num_rows - start
  if !t.limit_is_unreachable && decide (t.offset + t.limit < s.rows_read) then
    if t.offset + t.limit < s.rows_read - num_rows then (start, 0)
    else (start, t.offset + t.limit - (s.rows_read - num_rows) - start)
  else (start, length)

/-- Rows that equal the last one in the limit, after the piece: the row saved for the next
chunk and the new length. -/
def extendPiece (start length : UInt64) : Counters q V × UInt64 :=
  if t.with_ties && decide (t.offset + t.limit ≤ s.rows_read) && decide (length ≠ 0) then
    let previous := makeChunkWithPreviousRow chunk (start + length - 1)
    let current_row_num := skipEqual previous chunk (start + length)
    ({ s with previous_row_chunk := if current_row_num < getNumRows chunk then none else previous },
      current_row_num - start)
  else (s, length)

/-- `splitChunk`: the ties that follow the limit, or the rows inside the limit with their ties. -/
def splitChunk : Counters q V × Chunk q V A :=
  let num_rows := getNumRows chunk
  if s.previous_row_chunk.isSome && !t.limit_is_unreachable &&
      decide (s.rows_read ≥ t.offset + t.limit) then
    let current_row_num := skipEqual s.previous_row_chunk chunk 0
    if current_row_num < num_rows then
      ({ s with previous_row_chunk := none }, cut chunk 0 current_row_num)
    else (s, chunk)
  else
    let (start, length) := t.piece s num_rows
    let (s, length) := t.extendPiece s chunk start length
    if length = num_rows then (s, chunk) else (s, cut chunk start length)

/-- What `preparePair` does with a chunk: the piece to push, or `none` where the chunk lies
before the offset. -/
def processChunk : Counters q V × Option (Chunk q V A) :=
  let rows := getNumRows chunk
  let s := { s with rows_read := s.rows_read + rows }
  if s.rows_read ≤ t.offset then (s, none)
  else if rows ≤ UInt64.ofNat (2 ^ 64 - 1) - t.offset ∧ s.rows_read ≥ t.offset + rows ∧
      ¬ t.limit_is_unreachable ∧ s.rows_read ≤ t.offset + t.limit then
    -- the whole chunk
    if t.with_ties && decide (s.rows_read = t.offset + t.limit) then
      ({ s with previous_row_chunk := makeChunkWithPreviousRow chunk (rows - 1) }, some chunk)
    else (s, some chunk)
  else
    let (s, chunk) := t.splitChunk s chunk
    (s, some chunk)

end LimitTransform

/-! ## Ports -/

variable (q V A) in
/-- The flags of an input port that the transform reads, and its own `is_finished`. -/
structure InputPort where
  data : Option (Chunk q V A)
  IS_FINISHED : Bool
  IS_NEEDED : Bool
  is_finished : Bool

namespace InputPort

variable (input : InputPort q V A)

/-- A port that its source has finished still gives its last chunk. -/
def isFinished : Bool := input.is_finished || input.IS_FINISHED && input.data.isNone

def close : InputPort q V A := { input with IS_FINISHED := true, is_finished := true }

def setNeeded : InputPort q V A := { input with IS_NEEDED := true }

def setNotNeeded : InputPort q V A := { input with IS_NEEDED := false }

/-- The port after `pull(true)`. -/
def pulled : InputPort q V A :=
  { input with data := none, IS_NEEDED := false, is_finished := input.IS_FINISHED }

end InputPort

variable (q V A) in
/-- An output port. Its reader always needs data and never closes it. -/
structure OutputPort where
  data : Option (Chunk q V A)
  IS_FINISHED : Bool

def OutputPort.finish (output : OutputPort q V A) : OutputPort q V A :=
  { output with IS_FINISHED := true }

def OutputPort.canPush (output : OutputPort q V A) : Bool := output.data.isNone

variable (q V A) in
/-- `PortsData`: an input with its output. -/
structure PortsData where
  input : InputPort q V A
  output : OutputPort q V A
  is_finished : Bool

/-- The results of `prepare` that the transform has. -/
inductive Status where
  | NeedData
  | PortFull
  | Finished
deriving DecidableEq, Repr

variable (q V A) in
/-- What `preparePair` returns and what it leaves. -/
structure PairResult where
  status : Status
  counters : Counters q V
  data : PortsData q V A

namespace LimitTransform

variable (t : LimitTransform) (s : Counters q V) (data : PortsData q V A)

/-- The end of a call that has dropped a chunk. -/
def afterDrop : PairResult q V A :=
  if data.input.isFinished then ⟨.Finished, s, { data with output := data.output.finish }⟩
  else ⟨.NeedData, s, { data with input := data.input.setNeeded }⟩

/-- The end of a call that pushes a chunk. `rows` is the size of the chunk that was read. -/
def pushChunk (rows : UInt64) (chunk : Chunk q V A) : PairResult q V A :=
  let may_need_more_data_for_ties :=
    s.previous_row_chunk.isSome || decide (s.rows_read - rows ≤ t.offset + t.limit)
  let input := if !t.always_read_till_end && !t.limit_is_unreachable &&
    decide (s.rows_read ≥ t.offset + t.limit) && !may_need_more_data_for_ties
    then data.input.close else data.input
  ⟨.PortFull, s, { data with input := input, output := { data.output with data := some chunk } }⟩

/-- The end of a call that has processed a chunk of `rows` rows. -/
def outputChunk (rows : UInt64) : Counters q V × Option (Chunk q V A) → PairResult q V A
  | (s, none) => afterDrop s data
  | (s, some piece) => t.pushChunk s data rows piece

/-- `preparePair`. -/
def preparePair [Ord V] : PairResult q V A :=
  let output_finished := data.output.IS_FINISHED
  if output_finished && !t.always_read_till_end then
    ⟨.Finished, s, { data with input := data.input.close }⟩
  else if !output_finished && !data.output.canPush then
    ⟨.PortFull, s, { data with input := data.input.setNotNeeded }⟩
  else if t.is_limit_reached s && !t.always_read_till_end then
    ⟨.Finished, s, { data with input := data.input.close, output := data.output.finish }⟩
  else if data.input.isFinished then
    ⟨.Finished, s, { data with output := data.output.finish }⟩
  else
    match data.input.data with
    | none => ⟨.NeedData, s, { data with input := data.input.setNeeded }⟩
    | some chunk =>
      let data := { data with input := data.input.pulled }
      -- with `always_read_till_end` the rest is read and dropped
      if t.is_limit_reached s || output_finished then afterDrop s data
      else t.outputChunk data (getNumRows chunk) (t.processChunk s chunk)

end LimitTransform

/-! ## The transform -/

variable (q V A) in
/-- The state of the transform: the counters are shared by all pairs. -/
structure Ports (n : ℕ) where
  counters : Counters q V
  ports_data : Fin n → PortsData q V A
  num_finished_port_pairs : ℕ

namespace LimitTransform

variable {n : ℕ} (t : LimitTransform)

/-- `process_pair`: whether the port is full, and the new state. -/
def processPair [Ord V] (ports : Ports q V A n) (pos : Fin n) : Bool × Ports q V A n :=
  let r := t.preparePair ports.counters (ports.ports_data pos)
  match r.status with
  | .Finished =>
    -- a pair is counted once
    let first := !r.data.is_finished
    (false,
      { counters := r.counters
        ports_data := Function.update ports.ports_data pos { r.data with is_finished := true }
        num_finished_port_pairs :=
          if first then ports.num_finished_port_pairs + 1 else ports.num_finished_port_pairs })
  | .PortFull => (true, { ports with
      counters := r.counters, ports_data := Function.update ports.ports_data pos r.data })
  | .NeedData => (false, { ports with
      counters := r.counters, ports_data := Function.update ports.ports_data pos r.data })

/-- The next pair: whether any port was full, and the new state. -/
def processNext [Ord V] (r : Bool × Ports q V A n) (pos : Fin n) : Bool × Ports q V A n :=
  (r.1 || (t.processPair r.2 pos).1, (t.processPair r.2 pos).2)

/-- The pairs in the order of the lists of updated ports. -/
def processPairs [Ord V] (ports : Ports q V A n) (updated : List (Fin n)) : Bool × Ports q V A n :=
  updated.foldl t.processNext (false, ports)

/-- Closing all ports once the limit is reached. -/
def closeAll (ports : Ports q V A n) : Ports q V A n :=
  { ports with ports_data := fun pos =>
      { ports.ports_data pos with
        input := (ports.ports_data pos).input.close
        output := (ports.ports_data pos).output.finish } }

/-- `prepare(updated_input_ports, updated_output_ports)`. -/
def prepare [Ord V] (ports : Ports q V A n)
    (updated_input_ports updated_output_ports : List (Fin n)) :
    Status × Ports q V A n :=
  let (has_full_port, ports) := t.processPairs ports (updated_input_ports ++ updated_output_ports)
  if ports.num_finished_port_pairs = n then (.Finished, ports)
  else if t.is_limit_reached ports.counters && !t.always_read_till_end then
    (.Finished, closeAll ports)
  else if has_full_port then (.PortFull, ports)
  else (.NeedData, ports)

end LimitTransform

/-! ## The transform between its sources and its readers -/

variable (q V A) in
/-- The transform with what stands at its ports. -/
structure System (n : ℕ) where
  /-- The chunks that the sources have not pushed yet. -/
  sources : Fin n → List (Chunk q V A)
  ports : Ports q V A n
  /-- The rows that the readers have taken. -/
  readers : Fin n → List (Row q V A)

/-- What the executor may let happen next. -/
inductive Event (n : ℕ) where
  | push (pos : Fin n)
  | finish (pos : Fin n)
  | read (pos : Fin n)
  | prepare (updated_input_ports updated_output_ports : List (Fin n))

namespace System

variable {n : ℕ} (t : LimitTransform) (sys : System q V A n)

def setPair (pos : Fin n) (data : PortsData q V A) : System q V A n :=
  { sys with ports := { sys.ports with
      ports_data := Function.update sys.ports.ports_data pos data } }

/-- A source pushes to a port that needs data and has none, and finishes after its last
chunk. -/
def push (pos : Fin n) : Option (System q V A n) :=
  let data := sys.ports.ports_data pos
  match sys.sources pos with
  | [] => none
  | chunk :: rest =>
    if data.input.IS_NEEDED && data.input.data.isNone && !data.input.IS_FINISHED then
      some { sys.setPair pos { data with input := { data.input with data := some chunk } } with
        sources := Function.update sys.sources pos rest }
    else none

/-- A source with no chunk left finishes its port. -/
def finish (pos : Fin n) : Option (System q V A n) :=
  let data := sys.ports.ports_data pos
  if (sys.sources pos).isEmpty && !data.input.IS_FINISHED then
    some (sys.setPair pos { data with input := { data.input with IS_FINISHED := true } })
  else none

/-- A reader takes the chunk of its port. -/
def read (pos : Fin n) : Option (System q V A n) :=
  let data := sys.ports.ports_data pos
  match data.output.data with
  | none => none
  | some chunk =>
    some { sys.setPair pos { data with output := { data.output with data := none } } with
      readers := Function.update sys.readers pos (sys.readers pos ++ chunk) }

/-- An event that cannot happen in a state is `none`. -/
def step [Ord V] : Event n → Option (System q V A n)
  | .push pos => sys.push pos
  | .finish pos => sys.finish pos
  | .read pos => sys.read pos
  | .prepare updated_input_ports updated_output_ports =>
    some { sys with ports := (t.prepare sys.ports updated_input_ports updated_output_ports).2 }

def run [Ord V] (events : List (Event n)) : Option (System q V A n) :=
  events.foldlM (fun sys event => sys.step t event) sys

/-- All readers have seen the end of their port. -/
def Complete : Prop :=
  ∀ pos, (sys.ports.ports_data pos).output.IS_FINISHED = true ∧
    (sys.ports.ports_data pos).output.data = none

def initial (sources : Fin n → List (Chunk q V A)) : System q V A n where
  sources := sources
  ports :=
    { counters := ⟨0, none⟩
      ports_data := fun _ => ⟨⟨none, false, false, false⟩, ⟨none, false⟩, false⟩
      num_finished_port_pairs := 0 }
  readers := fun _ => []

end System

end ClickHouse.Limit
