/-
`IntervalTree` of `src/Common/IntervalTree.h`: intervals with values are inserted, the tree
is built once, and then searched and iterated.

A vector is a list; an access outside of it is `none`. An interval that was let in has its
ends in order: `IntervalWithValue` carries the proof, without which building would not come
to its end. `::sort` is the library's sort (which of two equal elements comes first is not
fixed by the source), and `::nth_element` finds the element that sorting would put there. A
callback takes a state of its own along and says whether the search goes on.

Points have a linear order. `RangeHashedDictionary` also makes trees of `Float32` and `Float64`
ranges; a NaN among their ends, which compares with nothing, is outside of the model.
-/
import ClickHouse.Lib.BlockCursor
import ClickHouse.Lib.WhileLoop

set_option autoImplicit false

namespace ClickHouse

open List

/-- An interval with both ends included. -/
structure Interval (T : Type*) where
  left : T
  right : T
deriving DecidableEq, Repr

namespace Interval

variable {T : Type*} [LinearOrder T]

def contains (interval : Interval T) (point : T) : Bool :=
  interval.left ≤ point && point ≤ interval.right

end Interval

/-- An interval that `emplace` has accepted, with its value. -/
structure IntervalWithValue (T V : Type*) [LinearOrder T] where
  interval : Interval T
  value : V
  le : interval.left ≤ interval.right

namespace IntervalTree

/-- In a built tree `sorted_intervals` holds the intervals of a node twice: by the left end, then
by the right one. -/
structure Node (T : Type*) where
  sorted_intervals_range_start_index : ℕ
  sorted_intervals_range_size : ℕ
  middle_element : T

namespace Node

variable {T : Type*}

/-- A node without intervals is a gap of the array. -/
def hasValue (node : Node T) : Bool := node.sorted_intervals_range_size != 0

/-- A node as `resize` adds it. -/
def empty [Inhabited T] : Node T := ⟨0, 0, default⟩

end Node

end IntervalTree

/-- The tree lies in an array: the children of `i` are at `2 * i + 1` and `2 * i + 2`. -/
structure IntervalTree (T V : Type*) [LinearOrder T] where
  nodes : List (IntervalTree.Node T)
  sorted_intervals : List (IntervalWithValue T V)
  intervals_size : ℕ
  tree_is_built : Bool

namespace IntervalTree

variable {T V : Type*} [LinearOrder T]

/-! ## Insertion -/

/-- The constructor. -/
def new [Inhabited T] : IntervalTree T V := ⟨[Node.empty], [], 0, false⟩

/-- Before the tree is built all intervals are in the first node. -/
def increaseIntervalsSize (tree : IntervalTree T V) : IntervalTree T V :=
  { tree with
    intervals_size := tree.intervals_size + 1
    nodes := tree.nodes.modify 0 fun node =>
      { node with sorted_intervals_range_size := tree.intervals_size + 1 } }

/-- Before `build`, an interval is only appended; one with `left > right` is refused. -/
def emplace (tree : IntervalTree T V) (interval : Interval T) (value : V) :
    Bool × IntervalTree T V :=
  if h : interval.left > interval.right then (false, tree)
  else
    (true, increaseIntervalsSize
      { tree with
        sorted_intervals := tree.sorted_intervals ++ [⟨interval, value, not_lt.mp h⟩] })

/-- Insertion of intervals one after the other. -/
def insertEach (tree : IntervalTree T V) (items : List (Interval T × V)) : IntervalTree T V :=
  items.foldl (fun tree item => (tree.emplace item.1 item.2).2) tree

/-! ## Building -/

variable (intervals : List (IntervalWithValue T V))

/-- `intervalsToPoints`: both ends of each interval. -/
def intervalsToPoints : List T :=
  intervals.flatMap fun x => [x.interval.left, x.interval.right]

lemma length_intervalsToPoints : (intervalsToPoints intervals).length = 2 * intervals.length := by
  induction intervals with
  | nil => rfl
  | cons x intervals ih =>
    rw [intervalsToPoints, flatMap_cons, length_append, ← intervalsToPoints, ih,
      length_cons, length_cons, length_cons, length_nil]
    omega

/-- `pointsMedian`: the element that `nthElement` puts in the middle. -/
def pointsMedian (points : List T) (h : 0 < points.length) : T :=
  (points.mergeSort).get ⟨points.length / 2, by
    rw [List.length_mergeSort]
    exact Nat.div_lt_self h Nat.one_lt_two⟩

/-- The median of the ends of the intervals. -/
def median (h : intervals ≠ []) : T :=
  pointsMedian (intervalsToPoints intervals) (by
    rw [length_intervalsToPoints]
    exact Nat.mul_pos Nat.zero_lt_two (List.length_pos_of_ne_nil h))

section

variable (median : T) (intervals : List (IntervalWithValue T V))

/-- The intervals that end before the median. -/
def leftIntervals : List (IntervalWithValue T V) :=
  intervals.filter fun x => x.interval.right < median

/-- The intervals that begin after the median. -/
def rightIntervals : List (IntervalWithValue T V) :=
  intervals.filter fun x => !(decide (x.interval.right < median)) && median < x.interval.left

/-- The intervals that neither of the two other branches takes. -/
def middleIntervals : List (IntervalWithValue T V) :=
  intervals.filter fun x =>
    !(decide (x.interval.right < median)) && !(decide (median < x.interval.left))

end

/-- The order for a point to the left of the middle element. -/
def sortedByLeftAsc (intervals : List (IntervalWithValue T V)) : List (IntervalWithValue T V) :=
  intervals.mergeSort fun x y => x.interval.left ≤ y.interval.left

/-- The order for a point to the right of the middle element. -/
def sortedByRightDesc (intervals : List (IntervalWithValue T V)) : List (IntervalWithValue T V) :=
  intervals.mergeSort fun x y => y.interval.right ≤ x.interval.right

/-- A node to be built, with the intervals that go below it. -/
structure StackFrame (T V : Type*) [LinearOrder T] where
  index : ℕ
  intervals : List (IntervalWithValue T V)

/-- `if (current_index >= nodes.size()) nodes.resize(current_index + 1);` -/
def resize [Inhabited T] (nodes : List (Node T)) (size : ℕ) : List (Node T) :=
  nodes ++ List.replicate (size - nodes.length) Node.empty

/-- The node of a frame, with its intervals at the end of the sorted ones. -/
def placeNode [Inhabited T] (tree : IntervalTree T V) (index : ℕ) (median : T)
    (here : List (IntervalWithValue T V)) : IntervalTree T V :=
  { tree with
    nodes := (resize tree.nodes (index + 1)).set index
      ⟨tree.sorted_intervals.length, (sortedByLeftAsc here).length, median⟩
    sorted_intervals := tree.sorted_intervals ++ sortedByLeftAsc here ++ sortedByRightDesc here }

/-- What is left to do for a stack of frames. -/
def stackWeight (stack : List (StackFrame T V)) : ℕ :=
  (stack.map fun frame => 2 * frame.intervals.length + 1).sum

section Median

variable {intervals : List (IntervalWithValue T V)}

lemma median_mem (h : intervals ≠ []) :
    ∃ x ∈ intervals, x.interval.left = median intervals h ∨
      x.interval.right = median intervals h := by
  have hmem : median intervals h ∈ intervalsToPoints intervals :=
    (mergeSort_perm _ _).mem_iff.1 (get_mem _ _)
  obtain ⟨x, hx, hend⟩ := mem_flatMap.1 hmem
  exact ⟨x, hx, (mem_pair.1 hend).imp Eq.symm Eq.symm⟩

/-- The median is an end of an interval, which therefore stays in the node. -/
lemma middleIntervals_ne_nil (h : intervals ≠ []) :
    middleIntervals (median intervals h) intervals ≠ [] := by
  obtain ⟨x, hx, hend⟩ := median_mem h
  refine ne_nil_of_mem (mem_filter.2 ⟨hx, ?_⟩)
  have hle := x.le
  rw [Bool.and_eq_true, Bool.not_eq_true', Bool.not_eq_true', decide_eq_false_iff_not,
    decide_eq_false_iff_not, not_lt, not_lt]
  rcases hend with hend | hend
  · exact ⟨hend ▸ hle, hend.le⟩
  · exact ⟨hend.ge, hend ▸ hle⟩

open scoped List in
/-- Each interval goes one of three ways. -/
lemma parts_perm (m : T) (intervals : List (IntervalWithValue T V)) : intervals.Perm
    (middleIntervals m intervals ++ leftIntervals m intervals ++ rightIntervals m intervals) := by
  have hrest := filter_append_perm (fun x => decide (m < x.interval.left))
    (intervals.filter fun x => !(decide (x.interval.right < m)))
  rw [filter_filter, filter_filter] at hrest
  have hright : rightIntervals m intervals = intervals.filter fun x =>
      decide (m < x.interval.left) && !(decide (x.interval.right < m)) :=
    filter_congr fun x _ => Bool.and_comm _ _
  have hmiddle : middleIntervals m intervals = intervals.filter fun x =>
      !(decide (m < x.interval.left)) && !(decide (x.interval.right < m)) :=
    filter_congr fun x _ => Bool.and_comm _ _
  rw [← hright, ← hmiddle] at hrest
  have hall := filter_append_perm (fun x => decide (x.interval.right < m)) intervals
  calc intervals
    _ ~ leftIntervals m intervals ++ (rightIntervals m intervals ++ middleIntervals m intervals) :=
        hall.symm.trans (hrest.symm.append_left _)
    _ ~ leftIntervals m intervals ++ (middleIntervals m intervals ++ rightIntervals m intervals) :=
        perm_append_comm.append_left _
    _ ~ _ := by
        rw [← append_assoc]
        exact perm_append_comm.append_right _

lemma length_parts_lt (h : intervals ≠ []) :
    (leftIntervals (median intervals h) intervals).length +
      (rightIntervals (median intervals h) intervals).length < intervals.length := by
  have hlen := (parts_perm (median intervals h) intervals).length_eq
  have hpos := length_pos_of_ne_nil (middleIntervals_ne_nil h)
  rw [length_append, length_append] at hlen
  omega

end Median

variable [Inhabited T]

/-- `buildTree`, from a stack whose last frame is the head of the list. -/
def buildTree (tree : IntervalTree T V) : List (StackFrame T V) → IntervalTree T V
  | [] => tree
  | frame :: stack =>
    if h : frame.intervals = [] then buildTree tree stack
    else
      buildTree
        (placeNode tree frame.index (median frame.intervals h)
          (middleIntervals (median frame.intervals h) frame.intervals))
        (⟨2 * frame.index + 2, rightIntervals (median frame.intervals h) frame.intervals⟩ ::
          ⟨2 * frame.index + 1, leftIntervals (median frame.intervals h) frame.intervals⟩ :: stack)
termination_by stack => stackWeight stack
decreasing_by
  · rw [stackWeight, stackWeight, List.map_cons, List.sum_cons]
    omega
  · have hlt := length_parts_lt h
    simp only [stackWeight, List.map_cons, List.sum_cons]
    omega

/-- Build the tree from the intervals that have been added. -/
def build (tree : IntervalTree T V) : IntervalTree T V :=
  { buildTree { tree with nodes := [], sorted_intervals := [] } [⟨0, tree.sorted_intervals⟩] with
    tree_is_built := true }

/-! ## Search -/

section Find

variable {σ : Type*} (tree : IntervalTree T V) (callback : σ → IntervalWithValue T V → Bool × σ)

/-- `for (; start != end; ++start)` over sorted intervals until `stop` or until the callback
asks to end the search, which the result says. -/
def reportWhile (stop : IntervalWithValue T V → Bool) : ℕ → ℕ → σ → Option (Bool × σ)
  | 0, _, s => some (true, s)
  | count + 1, start, s =>
    tree.sorted_intervals[start]?.bind fun x =>
      if stop x then some (true, s)
      else if (callback s x).1 then reportWhile stop count (start + 1) (callback s x).2
      else some (false, (callback s x).2)

/-- From a node on. -/
def findIntervalsImpl (point : T) (current_index : ℕ) (s : σ) : Option σ :=
  if h : current_index < tree.nodes.length then
    let node := tree.nodes.get ⟨current_index, h⟩
    if !node.hasValue then some s
    else if point < node.middle_element then
      -- the intervals of the node, by their left ends ascending
      (tree.reportWhile callback (fun x => point < x.interval.left)
        node.sorted_intervals_range_size node.sorted_intervals_range_start_index s).bind fun r =>
          if r.1 then findIntervalsImpl point (2 * current_index + 1) r.2 else some r.2
    else
      -- the second half of the row: by their right ends descending
      (tree.reportWhile callback (fun x => x.interval.right < point)
        node.sorted_intervals_range_size
        (node.sorted_intervals_range_start_index + node.sorted_intervals_range_size)
        s).bind fun r =>
          if r.1 then
            if node.middle_element < point then findIntervalsImpl point (2 * current_index + 2) r.2
            else some r.2
          else some r.2
  else some s
termination_by tree.nodes.length - current_index

/-- Here the result of the callback is not looked at. -/
def findIntervalsNonConstructedImpl (point : T) (s : σ) : σ :=
  tree.sorted_intervals.foldl
    (fun s x => if x.interval.contains point then (callback s x).2 else s) s

/-- Find the intervals with the point. `none` is a read past the end of an array. -/
def find (point : T) (s : σ) : Option σ :=
  if !tree.tree_is_built then some (tree.findIntervalsNonConstructedImpl callback point s)
  else tree.findIntervalsImpl callback point 0 s

end Find

/-- The callback asks to stop at the first interval. -/
def has (tree : IntervalTree T V) (point : T) : Option Bool :=
  tree.find (fun _ _ => (false, true)) point false

/-! ## Iteration -/

/-- A position: a node, and an interval of its range. -/
structure Iterator where
  node_index : ℕ
  current_interval_index : ℕ
deriving DecidableEq, Repr

section Iteration

variable (tree : IntervalTree T V)

/-- Whether the array has a node with intervals at the index. -/
def hasValueAt (index : ℕ) : Bool := (tree.nodes[index]?.map Node.hasValue).getD false

/-- `++it`: the next interval of the node, or the first of the next node that has one. -/
def iterateToNext (it : Iterator) : Option Iterator :=
  tree.nodes[it.node_index]?.map fun current_node =>
    if it.current_interval_index + 1 < current_node.sorted_intervals_range_size then
      { it with current_interval_index := it.current_interval_index + 1 }
    else
      let node_index_copy :=
        Lib.scanUntil tree.hasValueAt (it.node_index + 1) tree.nodes.length
      if node_index_copy < tree.nodes.length then ⟨node_index_copy, 0⟩
      else { it with current_interval_index := it.current_interval_index + 1 }

/-- The loop of `iterateToPrevious`, which stays behind the node that it finds. -/
def previousFrom : ℕ → Option Iterator
  | 0 => some ⟨0, 0⟩
  | node_index + 1 => tree.nodes[node_index]?.bind fun node =>
    if node.hasValue then some ⟨node_index + 1, node.sorted_intervals_range_size - 1⟩
    else previousFrom node_index

/-- `--it`. -/
def iterateToPrevious (it : Iterator) : Option Iterator :=
  if 0 < it.current_interval_index then
    some { it with current_interval_index := it.current_interval_index - 1 }
  else tree.previousFrom it.node_index

/-- `*it`. -/
def getCurrentValue (it : Iterator) : Option (IntervalWithValue T V) :=
  tree.nodes[it.node_index]?.bind fun current_node =>
    tree.sorted_intervals[current_node.sorted_intervals_range_start_index +
      it.current_interval_index]?

/-- The first node with intervals, or 0 if there is none. -/
def findFirstIteratorNodeIndex : ℕ :=
  let result_index := Lib.scanUntil tree.hasValueAt 0 tree.nodes.length
  if result_index = tree.nodes.length then 0 else result_index

/-- `for (; result_index != 0; --result_index) if (nodes[result_index].hasValue()) break;` -/
def lastWithValue : ℕ → ℕ
  | 0 => 0
  | index + 1 => if tree.hasValueAt (index + 1) then index + 1 else lastWithValue index

/-- The last node with intervals, or 0 if there is none. -/
def findLastIteratorNodeIndex : ℕ :=
  if tree.nodes = [] then 0 else tree.lastWithValue (tree.nodes.length - 1)

def begin : Iterator := ⟨tree.findFirstIteratorNodeIndex, 0⟩

def end_ : Iterator :=
  ⟨tree.findLastIteratorNodeIndex, (tree.nodes[tree.findLastIteratorNodeIndex]?.map
      Node.sorted_intervals_range_size).getD 0⟩

/-- `for (auto it = begin(); it != end(); ++it)`, with what it has visited. -/
def forEach (fuel : ℕ) : Option (Iterator × List (IntervalWithValue T V)) :=
  Lib.whileLoop (fun state => decide (state.1 ≠ tree.end_))
    (fun state => (tree.getCurrentValue state.1).bind fun x =>
      (tree.iterateToNext state.1).map fun it => (it, state.2 ++ [x]))
    fuel (tree.begin, [])

/-- Steps back from `end()` to `begin()`, with what they have visited. -/
def forEachBack (fuel : ℕ) : Option (Iterator × List (IntervalWithValue T V)) :=
  Lib.whileLoop (fun state => decide (state.1 ≠ tree.begin))
    (fun state => (tree.iterateToPrevious state.1).bind fun it =>
      (tree.getCurrentValue it).map fun x => (it, state.2 ++ [x]))
    fuel (tree.end_, [])

end Iteration

end IntervalTree

end ClickHouse
