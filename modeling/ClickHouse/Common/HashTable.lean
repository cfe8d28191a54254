/-
The open-addressing hash table (`src/Common/HashTable/HashTable.h`) with the cells of
`HashMap`: `findCell`, `emplace`, `find`, `erase`, `resize` and the power-of-two grower.

The buffer is a list of cells; a cell with a zero key is empty, and what its mapped value is
does not matter. A pointer to a cell is its index, or the separate cell for the zero key. The
mapped value of a new cell is not initialised by `emplace`: it is `blank`, as it is in the
memory that `realloc` appends. A loop that does not come to its end in as many steps as there
are cells goes round the buffer for ever: `none`. An allocation may fail with an exception;
which sizes can be allocated is a parameter. `size_degree` is a natural number, and `log2` is
exact.

`HashTableGrowerWithPrecalculation` computes the same numbers as `HashTableGrower` and keeps
them.
-/
import ClickHouse.Lib.WhileLoop

set_option autoImplicit false

namespace ClickHouse.OpenAddressing

/-! ## Cells and growers -/

/-- `HashMapCell`. -/
structure HashMapCell (Key Mapped : Type) where
  key : Key
  mapped : Mapped

/-- `HashTableGrower`. -/
structure HashTableGrower where
  size_degree : ℕ

namespace HashTableGrower

/-- From this degree on the buffer doubles, below it a resize multiplies it by four. -/
def max_size_degree : ℕ := 23

variable (g : HashTableGrower)

/-- The size of the hash table in the cells. -/
def bufSize : ℕ := 1 <<< g.size_degree

/-- The table is filled up to a half. -/
def maxFill : ℕ := 1 <<< (g.size_degree - 1)

def mask : ℕ := g.bufSize - 1

/-- From the hash value, get the cell number in the hash table. -/
def place (x : ℕ) : ℕ := x &&& g.mask

/-- The next cell in the collision resolution chain. -/
def next (pos : ℕ) : ℕ := (pos + 1) &&& g.mask

/-- Whether the hash table is sufficiently full: it has to grow. -/
def overflow (elems : ℕ) : Bool := elems > g.maxFill

/-- Increase the size of the hash table. -/
def increaseSize : HashTableGrower :=
  ⟨g.size_degree + if g.size_degree ≥ max_size_degree then 1 else 2⟩

/-- The buffer size by the number of elements. -/
def set (initial_size_degree num_elems : ℕ) : HashTableGrower :=
  if num_elems ≤ 1 then ⟨initial_size_degree⟩
  else if initial_size_degree > Nat.log2 (num_elems - 1) + 2 then ⟨initial_size_degree⟩
  else ⟨Nat.log2 (num_elems - 1) + 2⟩

end HashTableGrower

/-- What the table is instantiated with. -/
structure HashTableTraits (Key Mapped : Type) where
  hash : Key → ℕ
  zero : Key
  blank : Mapped
  initial_size_degree : ℕ
  /-- Whether a buffer of so many cells can be allocated. -/
  allocates : ℕ → Bool
  /-- The number of cells that are filled at most, `2 ^ (initial_size_degree - 1)`, is one. -/
  degree_pos : 1 ≤ initial_size_degree

/-- An exception of the allocator. -/
inductive AllocError where
  | CANNOT_ALLOCATE_MEMORY
  deriving DecidableEq

/-- `HashTable`, with its `ZeroValueStorage`. -/
structure HashTable (Key Mapped : Type) where
  m_size : ℕ
  buf : List (HashMapCell Key Mapped)
  grower : HashTableGrower
  has_zero : Bool
  zero_value : HashMapCell Key Mapped

namespace HashTable

/-- `LookupResult`, when it is not null. -/
inductive Ptr where
  | zeroValue
  | cell (place_value : ℕ)
  deriving DecidableEq

variable {Key Mapped : Type} [DecidableEq Key] (C : HashTableTraits Key Mapped)

/-- A cell with the zero key is free; the key itself is stored apart. -/
def isZero (x : Key) : Bool := x == C.zero

/-- Zeroed memory. -/
def blankCell : HashMapCell Key Mapped := ⟨C.zero, C.blank⟩

/-- The cell is free from now on, with its mapped value left in place. -/
def setZero (cell : HashMapCell Key Mapped) : HashMapCell Key Mapped := { cell with key := C.zero }

variable (t : HashTable Key Mapped)

/-- `buf[i]`. -/
def cellAt (i : ℕ) : HashMapCell Key Mapped := t.buf.getD i (blankCell C)

/-- `buf[i] = cell`. -/
def setCell (i : ℕ) (cell : HashMapCell Key Mapped) : HashTable Key Mapped :=
  { t with buf := t.buf.set i cell }

/-- The constructor. -/
def create : HashTable Key Mapped :=
  let grower : HashTableGrower := ⟨C.initial_size_degree⟩
  ⟨0, List.replicate grower.bufSize (blankCell C), grower, false, blankCell C⟩

/-! ## Search -/

/-- A cell with the same key or an empty cell, from the position on along the collision
resolution chain. -/
def findCell (x : Key) (place_value : ℕ) : Option ℕ :=
  Lib.whileLoop
    (fun place_value =>
      !(isZero C (t.cellAt C place_value).key || (t.cellAt C place_value).key == x))
    (fun place_value => some (t.grower.next place_value)) t.grower.bufSize place_value

/-- `none` is an unbounded probe, `some none` is `end()`. -/
def find (x : Key) : Option (Option Ptr) :=
  if isZero C x then some (if t.has_zero then some .zeroValue else none)
  else do
    let place_value ← t.findCell C x (t.grower.place (C.hash x))
    return if isZero C (t.cellAt C place_value).key then none else some (.cell place_value)

/-- `*it`. -/
def deref (it : Ptr) : HashMapCell Key Mapped :=
  match it with
  | .zeroValue => t.zero_value
  | .cell place_value => t.cellAt C place_value

/-- `it->getMapped() = value`. -/
def setMapped (it : Ptr) (value : Mapped) : HashTable Key Mapped :=
  match it with
  | .zeroValue => { t with zero_value := { t.zero_value with mapped := value } }
  | .cell place_value => t.setCell place_value { t.cellAt C place_value with mapped := value }

/-! ## Growth -/

/-- Puts the element of the cell `i` where it belongs. -/
def reinsert (i : ℕ) (hash_value : ℕ) : Option (HashTable Key Mapped) := do
  let place_value := t.grower.place hash_value
  if i = place_value then return t
  let x := t.cellAt C i
  let place_value ← t.findCell C x.key place_value
  if !isZero C (t.cellAt C place_value).key then return t
  return (t.setCell place_value x).setCell i (setZero C x)

/-- `realloc`. The memory it appends is zeroed. -/
def realloc (new_grower : HashTableGrower) : HashTable Key Mapped :=
  { t with
    buf := t.buf ++ List.replicate (new_grower.bufSize - t.grower.bufSize) (blankCell C)
    grower := new_grower }

/-- The elements of the old buffer. -/
def reinsertOld (old_size : ℕ) : Option (HashTable Key Mapped) :=
  (List.range old_size).foldlM (fun t i =>
    if isZero C (t.cellAt C i).key then some t
    else t.reinsert C i (C.hash (t.cellAt C i).key)) t

/-- The tail of the collision resolution chain behind the old buffer. -/
def reinsertTail (old_size : ℕ) : Option (HashTable Key Mapped) :=
  let new_size := t.grower.bufSize
  (Lib.whileLoop
    (fun s : ℕ × HashTable Key Mapped => s.1 < new_size && !isZero C (s.2.cellAt C s.1).key)
    (fun s => do
      let t ← s.2.reinsert C s.1 (C.hash (s.2.cellAt C s.1).key)
      return (s.1 + 1, t))
    new_size (old_size, t)).map Prod.snd

/-- The part of `resize` in which the buffer changes. -/
def resizeTo (new_grower : HashTableGrower) :
    Option (Except AllocError (HashTable Key Mapped)) := do
  let old_size := t.grower.bufSize
  if !C.allocates new_grower.bufSize then return .error .CANNOT_ALLOCATE_MEMORY
  let t ← (t.realloc C new_grower).reinsertOld C old_size
  let t ← t.reinsertTail C old_size
  return .ok t

/-- `resize`. -/
def resize (for_num_elems : ℕ) : Option (Except AllocError (HashTable Key Mapped)) :=
  if for_num_elems ≠ 0 then
    let new_grower := HashTableGrower.set C.initial_size_degree for_num_elems
    if new_grower.bufSize ≤ t.grower.bufSize then some (.ok t) else t.resizeTo C new_grower
  else t.resizeTo C t.grower.increaseSize

/-! ## Insertion -/

/-- What `emplace` gives back: the pointer and `inserted`, or an exception. -/
inductive Emplaced where
  | returned (it : Ptr) (inserted : Bool)
  | thrown (error : AllocError)
  deriving DecidableEq

/-- A zero key. -/
def emplaceZero : Emplaced × HashTable Key Mapped :=
  if t.has_zero then (.returned .zeroValue false, t)
  else
    (.returned .zeroValue true,
      { t with m_size := t.m_size + 1, has_zero := true, zero_value := blankCell C })

/-- A new cell with the key. -/
def newCell (place_value : ℕ) (key : Key) : HashTable Key Mapped :=
  { t.setCell place_value ⟨key, C.blank⟩ with m_size := t.m_size + 1 }

/-- The cell is emptied. -/
def clearCell (place_value : ℕ) : HashTable Key Mapped :=
  { t.setCell place_value (setZero C (t.cellAt C place_value)) with m_size := t.m_size - 1 }

/-- If the key is in the table, only the place is returned; otherwise the cell is filled and
counted, and a table that overflows is resized. -/
def emplaceNonZeroImpl (place_value : ℕ) (key : Key) :
    Option (Emplaced × HashTable Key Mapped) := do
  if !isZero C (t.cellAt C place_value).key then
    return (.returned (.cell place_value) false, t)
  let t := t.newCell C place_value key
  if t.grower.overflow t.m_size then
    match ← t.resize C 0 with
    | .error error => return (.thrown error, t.clearCell C place_value)
    | .ok t =>
      -- the hash table was rehashed, so we have to re-find the key
      let new_place ← t.findCell C key (t.grower.place (C.hash key))
      return (.returned (.cell new_place) true, t)
  else return (.returned (.cell place_value) true, t)

/-- Insert the key, or find its cell. -/
def emplace (key : Key) : Option (Emplaced × HashTable Key Mapped) :=
  if isZero C key then some (t.emplaceZero C)
  else do
    let place_value ← t.findCell C key (t.grower.place (C.hash key))
    t.emplaceNonZeroImpl C place_value key

/-! ## Removal -/

/-- Whether the element at `next_position` stays where it is, although `erased_key_position`
is free. -/
def staysInPlace (erased_key_position next_position optimal_position : ℕ) : Bool :=
  optimal_position = next_position
    || (next_position > erased_key_position
        && (optimal_position > erased_key_position && optimal_position < next_position))
    || (next_position < erased_key_position
        && (optimal_position > erased_key_position || optimal_position < next_position))

/-- The state of the walk through the collision resolution chain. -/
structure Gap (Key Mapped : Type) where
  table : HashTable Key Mapped
  erased_key_position : ℕ
  next_position : ℕ

/-- One step of the walk: the element at `next_position` is moved to the freed place, or not. -/
def Gap.step (s : Gap Key Mapped) : Gap Key Mapped :=
  let t := s.table
  let optimal_position := t.grower.place (C.hash (t.cellAt C s.next_position).key)
  if staysInPlace s.erased_key_position s.next_position optimal_position then
    { s with next_position := t.grower.next s.next_position }
  else
    { table := t.setCell s.erased_key_position (t.cellAt C s.next_position)
      erased_key_position := s.next_position
      next_position := t.grower.next s.next_position }

/-- The walk. -/
def closeGap (erased_key_position : ℕ) : Option (Gap Key Mapped) :=
  Lib.whileLoop (fun s : Gap Key Mapped => !isZero C (s.table.cellAt C s.next_position).key)
    (fun s => some (s.step C)) t.grower.bufSize
    ⟨t, erased_key_position, t.grower.next erased_key_position⟩

/-- Erase the key and move the cells of its collision chain back. -/
def erase (x : Key) : Option (Bool × HashTable Key Mapped) :=
  if isZero C x then
    if t.has_zero then some (true, { t with m_size := t.m_size - 1, has_zero := false })
    else some (false, t)
  else do
    let erased_key_position ← t.findCell C x (t.grower.place (C.hash x))
    if isZero C (t.cellAt C erased_key_position).key then return (false, t)
    let gap ← t.closeGap C erased_key_position
    return (true, gap.table.clearCell C gap.erased_key_position)

/-! ## Runs -/

/-- What a user of the table does. A new mapped value is written through the pointer that
`emplace` gives back, and one that is there through the pointer that `find` gives back. -/
inductive Op (Key Mapped : Type) where
  | emplace (key : Key) (value : Mapped)
  | find (key : Key)
  | assign (key : Key) (value : Mapped)
  | erase (key : Key)
  | reserve (num_elements : ℕ)

/-- What a call returns to its caller. -/
inductive Answer where
  | emplaced (result : Emplaced)
  | found (it : Option Ptr)
  | erased (result : Bool)
  | reserved (error : Option AllocError)

/-- One call. The caller of `emplace` writes the value only if the key is new. -/
def Op.apply : Op Key Mapped → Option (Answer × HashTable Key Mapped)
  | .emplace key value => do
    let (result, t) ← t.emplace C key
    match result with
    | .returned it true => return (.emplaced result, t.setMapped C it value)
    | _ => return (.emplaced result, t)
  | .find key => do
    let it ← t.find C key
    return (.found it, t)
  | .assign key value => do
    let it ← t.find C key
    match it with
    | some ptr => return (.found it, t.setMapped C ptr value)
    | none => return (.found it, t)
  | .erase key => do
    let (result, t) ← t.erase C key
    return (.erased result, t)
  | .reserve num_elements => do
    match ← t.resize C num_elements with
    | .ok t => return (.reserved none, t)
    | .error error => return (.reserved (some error), t)

/-- What was done and what was answered, and the table after it. -/
def run (t : HashTable Key Mapped) :
    List (Op Key Mapped) → Option (List (Op Key Mapped × Answer) × HashTable Key Mapped)
  | [] => some ([], t)
  | op :: ops => do
    let (answer, t) ← op.apply C t
    let (history, t) ← run t ops
    return ((op, answer) :: history, t)

/-- The keys that are in the table, as an iteration over it meets them. -/
def storedKeys : List Key :=
  (if t.has_zero then [t.zero_value.key] else []) ++
    (t.buf.map HashMapCell.key).filter fun key => !isZero C key

end HashTable

end ClickHouse.OpenAddressing
