/-
Search and iteration in an `IntervalTree` are exact.

Which intervals come to a place of the array depends on the place alone, so the loop of
`buildTree` is described place by place: every place that intervals come to is either filled
as it should be or below a frame that is still on the stack (`Building`). A search reports a
list of intervals that does not depend on the callback; the callback is run along it until
it asks to stop (`report`). That list is, up to its order, the intervals that contain the
point, by induction along the path of the search.
-/
import ClickHouse.Common.IntervalTree
import ClickHouse.Lib.ImplicitTree
import ClickHouse.Lib.SortedList

set_option autoImplicit false

namespace ClickHouse.IntervalTree

open List Lib Nat Bool
open Option (bind_some getD_some map_some)

variable {T V : Type*} [LinearOrder T] {intervals items here xs ys : List (IntervalWithValue T V)}

/-! ## The median halves -/

section Halves

lemma two_mul_length_filter_le (p : T → Bool) (q : IntervalWithValue T V → Bool)
    (h : ∀ x, q x = true → p x.interval.left = true ∧ p x.interval.right = true) :
    2 * (intervals.filter q).length ≤ (intervalsToPoints intervals).countP p := by
  induction intervals with
  | nil => exact zero_le _
  | cons x intervals ih =>
    have hpoints : intervalsToPoints (x :: intervals) =
        [x.interval.left, x.interval.right] ++ intervalsToPoints intervals := rfl
    rw [hpoints, countP_append]
    by_cases hx : q x = true
    · obtain ⟨hleft, hright⟩ := h x hx
      rw [filter_cons_of_pos hx, length_cons, countP_cons_of_pos hleft,
        countP_cons_of_pos hright, countP_nil]
      omega
    · rw [filter_cons_of_neg hx]
      omega

lemma two_mul_length_leftIntervals_le (h : intervals ≠ []) :
    2 * (leftIntervals (median intervals h) intervals).length ≤ intervals.length := by
  have hsorted := pairwise_mergeSort' (· ≤ ·) (intervalsToPoints intervals)
  calc 2 * (leftIntervals (median intervals h) intervals).length
      ≤ (intervalsToPoints intervals).countP (· < median intervals h) :=
        two_mul_length_filter_le _ _ fun x hx => by
          rw [decide_eq_true_eq] at hx ⊢
          exact ⟨x.le.trans_lt hx, decide_eq_true hx⟩
    _ = ((intervalsToPoints intervals).mergeSort).countP (· < median intervals h) :=
        ((mergeSort_perm _ _).countP_eq _).symm
    _ ≤ (intervalsToPoints intervals).length / 2 := countP_lt_get_le hsorted _
    _ = intervals.length := by
        rw [length_intervalsToPoints, Nat.mul_div_cancel_left _ zero_lt_two]

lemma two_mul_length_rightIntervals_le (h : intervals ≠ []) :
    2 * (rightIntervals (median intervals h) intervals).length ≤ intervals.length := by
  have hsorted := pairwise_mergeSort' (· ≤ ·) (intervalsToPoints intervals)
  calc 2 * (rightIntervals (median intervals h) intervals).length
      ≤ (intervalsToPoints intervals).countP (median intervals h < ·) :=
        two_mul_length_filter_le _ _ fun x hx => by
          rw [and_eq_true, decide_eq_true_eq] at hx
          exact ⟨decide_eq_true hx.2, decide_eq_true (hx.2.trans_le x.le)⟩
    _ = ((intervalsToPoints intervals).mergeSort).countP (median intervals h < ·) :=
        ((mergeSort_perm _ _).countP_eq _).symm
    _ ≤ ((intervalsToPoints intervals).mergeSort).length -
          ((intervalsToPoints intervals).length / 2 + 1) := countP_get_lt_le hsorted _
    _ ≤ intervals.length := by
        rw [length_mergeSort, length_intervalsToPoints]
        omega

/-- How a node of the tree shares out its intervals. -/
def splitting : Lib.Splitting (IntervalWithValue T V) where
  kept intervals := if h : intervals = [] then [] else
    middleIntervals (median intervals h) intervals
  left intervals := if h : intervals = [] then [] else
    leftIntervals (median intervals h) intervals
  right intervals := if h : intervals = [] then [] else
    rightIntervals (median intervals h) intervals
  perm intervals := by
    split_ifs with h
    · rw [h]
      rfl
    · exact parts_perm _ _
  kept_ne intervals h := by
    rw [dif_neg h]
    exact middleIntervals_ne_nil h
  left_half intervals := by
    split_ifs with h
    · exact Nat.zero_le _
    · exact two_mul_length_leftIntervals_le h
  right_half intervals := by
    split_ifs with h
    · exact Nat.zero_le _
    · exact two_mul_length_rightIntervals_le h

end Halves

section Parts

variable (h : intervals ≠ [])

lemma splitting_kept : splitting.kept intervals =
    middleIntervals (median intervals h) intervals := dif_neg h

lemma splitting_left : splitting.left intervals =
    leftIntervals (median intervals h) intervals := dif_neg h

lemma splitting_right : splitting.right intervals =
    rightIntervals (median intervals h) intervals := dif_neg h

end Parts

/-! ## Building -/

section Building

variable [Inhabited T] {tree : IntervalTree T V} {stack : List (StackFrame T V)}

variable (items) in
/-- The intervals that come to a place. -/
abbrev itemsAt (i : ℕ) : List (IntervalWithValue T V) := splitting.itemsAt items i

/-- A place is filled: its node has the median, and its intervals stand, sorted in both
ways, where the node says. -/
def Filled (tree : IntervalTree T V) (i : ℕ) (here : List (IntervalWithValue T V)) : Prop :=
  ∃ (h : here ≠ []) (before after : List (IntervalWithValue T V)),
    tree.nodes[i]? = some ⟨before.length,
      (sortedByLeftAsc (middleIntervals (median here h) here)).length, median here h⟩ ∧
    tree.sorted_intervals = before ++ sortedByLeftAsc (middleIntervals (median here h) here) ++
      sortedByRightDesc (middleIntervals (median here h) here) ++ after

/-- The tree while it is built. -/
structure Building (items : List (IntervalWithValue T V)) (tree : IntervalTree T V)
    (stack : List (StackFrame T V)) : Prop where
  frames : ∀ frame ∈ stack, frame.intervals = itemsAt items frame.index
  reached : ∀ i, itemsAt items i ≠ [] →
    Filled tree i (itemsAt items i) ∨ ∃ frame ∈ stack, Lib.Below frame.index i
  others : ∀ i, itemsAt items i = [] → tree.hasValueAt i = false
  size : tree.nodes.length ≤ 2 * items.length

variable {nodes : List (Node T)}

omit [LinearOrder T] in
lemma getElem?_resize {size i : ℕ} :
    (resize nodes size)[i]? =
      if i < nodes.length then nodes[i]? else if i < size then some Node.empty else none := by
  rw [resize, getElem?_append, getElem?_replicate]
  split_ifs <;> first | rfl | omega

omit [LinearOrder T] in
lemma length_resize {size : ℕ} :
    (resize nodes size).length = max nodes.length size := by
  rw [resize, length_append, length_replicate]
  omega

variable {m : T} {index i : ℕ}

lemma placeNode_self : (placeNode tree index m here).nodes[index]? =
    some ⟨tree.sorted_intervals.length, (sortedByLeftAsc here).length, m⟩ := by
  rw [placeNode, getElem?_set_self (by rw [length_resize]; omega)]

lemma placeNode_hasValueAt (hi : i ≠ index) :
    (placeNode tree index m here).hasValueAt i = tree.hasValueAt i := by
  rw [hasValueAt, hasValueAt, placeNode, getElem?_set_ne hi.symm, getElem?_resize]
  split_ifs with hlt hsize
  · rfl
  · rw [getElem?_eq_none (not_lt.1 hlt)]
    rfl
  · rw [getElem?_eq_none (not_lt.1 hlt)]

lemma Filled.placeNode {there : List (IntervalWithValue T V)} (h : Filled tree i there)
    (hi : i ≠ index) : Filled (placeNode tree index m here) i there := by
  obtain ⟨hne, before, after, hnode, hsorted⟩ := h
  refine ⟨hne, before, after ++ sortedByLeftAsc here ++ sortedByRightDesc here, ?_, ?_⟩
  · rw [IntervalTree.placeNode, getElem?_set_ne hi.symm, getElem?_resize,
      if_pos (List.getElem?_eq_some_iff.1 hnode).1, hnode]
  · rw [IntervalTree.placeNode, hsorted]
    simp only [append_assoc]

lemma filled_placeNode (h : here ≠ []) : Filled
    (placeNode tree index (median here h) (middleIntervals (median here h) here)) index here :=
  ⟨h, tree.sorted_intervals, [], placeNode_self, (append_nil _).symm⟩

variable {frame : StackFrame T V}

omit [Inhabited T] in
/-- A frame without intervals is taken away. -/
lemma Building.skip (h : Building items tree (frame :: stack))
    (hframe : frame.intervals = []) : Building items tree stack where
  frames other hother := h.frames other (mem_cons_of_mem _ hother)
  reached i hi := by
    refine (h.reached i hi).imp id ?_
    rintro ⟨other, hother, hbelow⟩
    rcases mem_cons.1 hother with rfl | hother
    · rw [h.frames _ mem_cons_self] at hframe
      exact absurd (Splitting.itemsAt_below hframe hbelow) hi
    · exact ⟨other, hother, hbelow⟩
  others := h.others
  size := h.size

/-- A frame with intervals becomes a node and the frames of its children. -/
lemma Building.place (h : Building items tree (frame :: stack))
    (hne : frame.intervals ≠ []) : Building items
      (placeNode tree frame.index (median frame.intervals hne)
        (middleIntervals (median frame.intervals hne) frame.intervals))
      (⟨2 * frame.index + 2, rightIntervals (median frame.intervals hne) frame.intervals⟩ ::
        ⟨2 * frame.index + 1, leftIntervals (median frame.intervals hne) frame.intervals⟩ ::
          stack) := by
  have hitems := h.frames frame mem_cons_self
  have hhere : itemsAt items frame.index ≠ [] := hitems ▸ hne
  constructor
  case frames =>
    -- the frames of the children have what the median leaves on their sides
    intro other hother
    rcases mem_cons.1 hother with rfl | hother
    · rw [itemsAt, Splitting.itemsAt_right, ← itemsAt, ← hitems, splitting_right hne]
    rcases mem_cons.1 hother with rfl | hother
    · rw [itemsAt, Splitting.itemsAt_left, ← itemsAt, ← hitems, splitting_left hne]
    · exact h.frames other (mem_cons_of_mem _ hother)
  case reached =>
    intro i hi
    by_cases hindex : i = frame.index
    · subst hindex
      rw [← hitems]
      exact .inl (filled_placeNode hne)
    rcases h.reached i hi with hfilled | ⟨other, hother, hbelow⟩
    · exact .inl (hfilled.placeNode hindex)
    -- a place below the frame is now below one of its children
    right
    rcases mem_cons.1 hother with rfl | hother
    · obtain hself | hleft | hright := hbelow.cases_child
      · exact absurd hself hindex
      · exact ⟨_, mem_cons_of_mem _ mem_cons_self, hleft⟩
      · exact ⟨_, mem_cons_self, hright⟩
    · exact ⟨other, mem_cons_of_mem _ (mem_cons_of_mem _ hother), hbelow⟩
  case others =>
    intro i hi
    have hindex : i ≠ frame.index := by
      rintro rfl
      exact hhere hi
    rw [placeNode_hasValueAt hindex]
    exact h.others i hi
  case size =>
    have hplace := splitting.place_lt items hhere
    have hsize := h.size
    rw [placeNode, length_set, length_resize]
    omega

/-- **The loop of `buildTree`.** -/
theorem Building.buildTree (h : Building items tree stack) :
    Building items (tree.buildTree stack) [] := by
  induction tree, stack using buildTree.induct with
  | case1 tree =>
    rw [IntervalTree.buildTree]
    exact h
  | case2 tree frame stack hempty ih =>
    rw [IntervalTree.buildTree, dif_pos hempty]
    exact ih (h.skip hempty)
  | case3 tree frame stack hne ih =>
    rw [IntervalTree.buildTree, dif_neg hne]
    exact ih (h.place hne)

lemma building_build (tree : IntervalTree T V) :
    Building tree.sorted_intervals tree.build [] := by
  have hstart : Building tree.sorted_intervals
      { tree with nodes := [], sorted_intervals := [] } [⟨0, tree.sorted_intervals⟩] := by
    constructor
    case frames =>
      intro frame hframe
      rw [mem_singleton.1 hframe, itemsAt, Splitting.itemsAt_zero]
    case reached =>
      intro i _
      exact .inr ⟨_, mem_singleton_self _, below_root i⟩
    case others =>
      intro i _
      rfl
    case size => exact zero_le _
  obtain ⟨hframes, hreached, hothers, hsize⟩ := hstart.buildTree
  exact ⟨hframes, hreached, hothers, hsize⟩

end Building

/-! ## Search -/

section Report

variable {σ : Type*} (callback : σ → IntervalWithValue T V → Bool × σ)

/-- The callback along a list of intervals until it asks to stop; whether it did not, and
its state. -/
def report : σ → List (IntervalWithValue T V) → Bool × σ
  | s, [] => (true, s)
  | s, x :: xs => if (callback s x).1 then report (callback s x).2 xs else (false, (callback s x).2)

variable {callback}

lemma report_append {s : σ} :
    report callback s (xs ++ ys) =
      if (report callback s xs).1 then report callback (report callback s xs).2 ys
      else report callback s xs := by
  induction xs generalizing s with
  | nil => rfl
  | cons x xs ih =>
    rw [cons_append, report, report]
    split
    · exact ih
    · rfl

/-- A loop over intervals that stand in the array reports them until `stop`. -/
lemma reportWhile_eq {tree : IntervalTree T V} {stop : IntervalWithValue T V → Bool}
    {before after : List (IntervalWithValue T V)} {s : σ}
    (h : tree.sorted_intervals = before ++ xs ++ after) :
    tree.reportWhile callback stop xs.length before.length s =
      some (report callback s (xs.takeWhile fun x => !stop x)) := by
  induction xs generalizing before s with
  | nil => rfl
  | cons x xs ih =>
    have hx : tree.sorted_intervals[before.length]? = some x := by
      rw [h, append_assoc, getElem?_append_right le_rfl, Nat.sub_self]
      rfl
    rw [length_cons, reportWhile, hx, bind_some]
    by_cases hstop : stop x = true
    · rw [if_pos hstop, takeWhile_cons_of_neg (by simpa using hstop)]
      rfl
    rw [if_neg hstop, takeWhile_cons_of_pos (by simpa using hstop), report]
    split
    · -- the callback asks for more
      have hsorted : tree.sorted_intervals = (before ++ [x]) ++ xs ++ after := by
        rw [h, append_assoc before [x], singleton_append]
      rw [← ih hsorted, length_append, length_singleton]
    · rfl

end Report

/-! ### The intervals of a node -/

section Middle

variable {m point : T} {x : IntervalWithValue T V}

lemma contains_iff : x.interval.contains point = true ↔
    x.interval.left ≤ point ∧ point ≤ x.interval.right := by
  rw [Interval.contains, and_eq_true, decide_eq_true_eq, decide_eq_true_eq]

lemma mem_middleIntervals (h : x ∈ middleIntervals m intervals) :
    x.interval.left ≤ m ∧ m ≤ x.interval.right := by
  have hx := (mem_filter.1 h).2
  rw [and_eq_true, not_eq_true', not_eq_true', decide_eq_false_iff_not,
    decide_eq_false_iff_not, not_lt, not_lt] at hx
  exact ⟨hx.2, hx.1⟩

lemma mem_rightIntervals (h : x ∈ rightIntervals m intervals) : m < x.interval.left := by
  have hx := (mem_filter.1 h).2
  rw [and_eq_true, decide_eq_true_eq] at hx
  exact hx.2

end Middle

section Found

variable {m point : T}

lemma filter_contains_rightIntervals (h : point ≤ m) :
    (rightIntervals m intervals).filter (·.interval.contains point) = [] := by
  rw [filter_eq_nil_iff]
  intro x hx hcontains
  exact absurd ((mem_rightIntervals hx).trans_le (contains_iff.1 hcontains).1) (not_lt.2 h)

lemma filter_contains_leftIntervals (h : m ≤ point) :
    (leftIntervals m intervals).filter (·.interval.contains point) = [] := by
  rw [filter_eq_nil_iff]
  intro x hx hcontains
  have hlt := of_decide_eq_true (mem_filter.1 hx).2
  exact absurd ((contains_iff.1 hcontains).2.trans_lt hlt) (not_lt.2 h)

/-- To the left of the median. -/
lemma filter_contains_of_lt (h : point < m) :
    ((sortedByLeftAsc (middleIntervals m intervals)).takeWhile
        (fun x => !(decide (point < x.interval.left))) ++
      (leftIntervals m intervals).filter (·.interval.contains point)).Perm
    (intervals.filter (·.interval.contains point)) := by
  have hall := (parts_perm m intervals).filter (·.interval.contains point)
  rw [filter_append, filter_append, filter_contains_rightIntervals h.le, append_nil] at hall
  refine Perm.trans (Perm.append_right _ ?_) hall.symm
  refine (mergeSort_takeWhile (fun x : IntervalWithValue T V => x.interval.left) point _).trans
    (Perm.of_eq (filter_congr ?_))
  intro x hx
  rw [Bool.eq_iff_iff, contains_iff, decide_eq_true_eq]
  exact ⟨fun hleft => ⟨hleft, h.le.trans (mem_middleIntervals hx).2⟩, And.left⟩

/-- At the median or to the right of it. -/
lemma filter_contains_of_le (h : m ≤ point) :
    ((sortedByRightDesc (middleIntervals m intervals)).takeWhile
        (fun x => !(decide (x.interval.right < point))) ++
      (rightIntervals m intervals).filter (·.interval.contains point)).Perm
    (intervals.filter (·.interval.contains point)) := by
  have hall := (parts_perm m intervals).filter (·.interval.contains point)
  rw [filter_append, filter_append, filter_contains_leftIntervals h, append_nil] at hall
  refine Perm.trans (Perm.append_right _ ?_) hall.symm
  refine (mergeSort_takeWhile
    (fun x : IntervalWithValue T V => OrderDual.toDual x.interval.right)
    (OrderDual.toDual point) _).trans
    (Perm.of_eq (filter_congr ?_))
  intro x hx
  rw [Bool.eq_iff_iff, contains_iff, decide_eq_true_eq]
  exact ⟨fun hright => ⟨(mem_middleIntervals hx).1.trans h, hright⟩, And.right⟩

variable {tree : IntervalTree T V} {i : ℕ}

lemma Filled.hasValueAt (h : Filled tree i here) : tree.hasValueAt i = true := by
  obtain ⟨hne, before, after, hnode, -⟩ := h
  have hlen : (sortedByLeftAsc (middleIntervals (median here hne) here)).length ≠ 0 := by
    rw [sortedByLeftAsc, length_mergeSort]
    exact (length_pos_of_ne_nil (middleIntervals_ne_nil hne)).ne'
  rw [IntervalTree.hasValueAt, hnode]
  exact bne_iff_ne.2 hlen

lemma Building.filled (h : Building items tree []) (hi : itemsAt items i ≠ []) :
    Filled tree i (itemsAt items i) :=
  (h.reached i hi).resolve_right fun ⟨_, hframe, _⟩ => absurd hframe not_mem_nil

lemma findIntervalsImpl_of_empty {σ : Type*} {callback : σ → IntervalWithValue T V → Bool × σ}
    {s : σ} (h : tree.hasValueAt i = false) :
    tree.findIntervalsImpl callback point i s = some s := by
  rw [findIntervalsImpl]
  split
  · rename_i hlt
    rw [hasValueAt, getElem?_eq_getElem hlt, map_some, getD_some] at h
    dsimp only
    rw [get_eq_getElem, h]
    rfl
  · rfl

/-- A search at a node with intervals, on the side of its middle element where the point is. -/
lemma findIntervalsImpl_of_node {σ : Type*} {callback : σ → IntervalWithValue T V → Bool × σ}
    {s : σ} {node : Node T} (hnode : tree.nodes[i]? = some node) (hvalue : node.hasValue = true) :
    tree.findIntervalsImpl callback point i s =
      if point < node.middle_element then
        (tree.reportWhile callback (fun x => point < x.interval.left)
          node.sorted_intervals_range_size node.sorted_intervals_range_start_index s).bind fun r =>
            if r.1 then tree.findIntervalsImpl callback point (2 * i + 1) r.2 else some r.2
      else
        (tree.reportWhile callback (fun x => x.interval.right < point)
          node.sorted_intervals_range_size
          (node.sorted_intervals_range_start_index + node.sorted_intervals_range_size) s).bind
            fun r =>
              if r.1 then
                if node.middle_element < point then
                  tree.findIntervalsImpl callback point (2 * i + 2) r.2
                else some r.2
              else some r.2 := by
  obtain ⟨hlt, hget⟩ := List.getElem?_eq_some_iff.1 hnode
  rw [findIntervalsImpl, dif_pos hlt]
  dsimp only
  rw [get_eq_getElem, hget, hvalue]
  rfl

section Path

variable {σ : Type*} {callback : σ → IntervalWithValue T V → Bool × σ} {s : σ} {i : ℕ}
  {first rest : List (IntervalWithValue T V)}

/-- What a child reports comes after what the node reports. -/
lemma report_then {next : σ → Option σ} (hnext : ∀ s, next s = some (report callback s rest).2) :
    ((some (report callback s first)).bind fun r => if r.1 then next r.2 else some r.2) =
      some (report callback s (first ++ rest)).2 := by
  rw [bind_some, report_append]
  split
  · rw [hnext]
  · rfl

variable (hne : here ≠ []) {middle : List (IntervalWithValue T V)}
  (hmiddle : middleIntervals (median here hne) here = middle)
include hmiddle

lemma Filled.find_of_lt (h : Filled tree i here) (hpoint : point < median here hne)
    (hnext : ∀ s, tree.findIntervalsImpl callback point (2 * i + 1) s =
      some (report callback s rest).2) :
    tree.findIntervalsImpl callback point i s = some (report callback s
      ((sortedByLeftAsc middle).takeWhile (fun x => !(decide (point < x.interval.left))) ++
        rest)).2 := by
  subst hmiddle
  have hvalue := h.hasValueAt
  obtain ⟨_, before, after, hnode, hsorted⟩ := h
  rw [IntervalTree.hasValueAt, hnode, map_some, getD_some] at hvalue
  rw [append_assoc] at hsorted
  rw [findIntervalsImpl_of_node hnode hvalue, if_pos hpoint, reportWhile_eq hsorted]
  exact report_then hnext

lemma Filled.find_of_le (h : Filled tree i here) (hpoint : median here hne ≤ point)
    (hnext : ∀ s, (if median here hne < point then
      tree.findIntervalsImpl callback point (2 * i + 2) s else some s) =
        some (report callback s rest).2) :
    tree.findIntervalsImpl callback point i s = some (report callback s
      ((sortedByRightDesc middle).takeWhile (fun x => !(decide (x.interval.right < point))) ++
        rest)).2 := by
  have hvalue := h.hasValueAt
  obtain ⟨_, before, after, hnode, hsorted⟩ := h
  rw [IntervalTree.hasValueAt, hnode, map_some, getD_some] at hvalue
  rw [hmiddle] at hnode hvalue hsorted
  -- both halves of the row have the same intervals in them
  have hlen : (sortedByLeftAsc middle).length = (sortedByRightDesc middle).length := by
    rw [sortedByLeftAsc, sortedByRightDesc, length_mergeSort, length_mergeSort]
  have hwhile : tree.reportWhile callback (fun x => x.interval.right < point)
      (sortedByLeftAsc middle).length (before.length + (sortedByLeftAsc middle).length) s =
      some (report callback s ((sortedByRightDesc middle).takeWhile
        fun x => !(decide (x.interval.right < point)))) := by
    rw [← length_append, hlen]
    exact reportWhile_eq hsorted
  rw [findIntervalsImpl_of_node hnode hvalue, if_neg (not_lt.2 hpoint), hwhile]
  exact report_then hnext

end Path

/-- **The search from a place** reports the intervals there that contain the point, whatever
the callback does with them. -/
theorem Building.findIntervalsImpl (h : Building items tree []) (point : T) (i : ℕ) :
    ∃ found, found.Perm ((itemsAt items i).filter (·.interval.contains point)) ∧
      ∀ {σ : Type} (callback : σ → IntervalWithValue T V → Bool × σ) (s : σ),
        tree.findIntervalsImpl callback point i s = some (report callback s found).2 := by
  induction hrest : tree.nodes.length - i using Nat.strong_induction_on generalizing i with
  | _ rest ih =>
    -- nothing here: there is no node, and nothing is reported
    by_cases hi : itemsAt items i = []
    · refine ⟨[], by rw [hi]; rfl, fun callback s => ?_⟩
      exact findIntervalsImpl_of_empty (h.others i hi)
    obtain ⟨hne, before, after, hnode, hsorted⟩ := h.filled hi
    have hlt := (List.getElem?_eq_some_iff.1 hnode).1
    -- left of the median: its own intervals that begin in time, and the left child
    by_cases hpoint : point < median (itemsAt items i) hne
    · obtain ⟨found, hfound, hrun⟩ := ih _ (by omega) (2 * i + 1) rfl
      rw [itemsAt, Splitting.itemsAt_left, ← itemsAt, splitting_left hne] at hfound
      refine ⟨_, (hfound.append_left _).trans (filter_contains_of_lt hpoint), fun callback s => ?_⟩
      exact (h.filled hi).find_of_lt hne rfl hpoint (hrun callback)
    have hperm := @filter_contains_of_le _ _ _ (itemsAt items i) _ _ (not_lt.1 hpoint)
    -- right of it: those that end late enough, and the right child
    by_cases hright : median (itemsAt items i) hne < point
    · obtain ⟨found, hfound, hrun⟩ := ih _ (by omega) (2 * i + 2) rfl
      rw [itemsAt, Splitting.itemsAt_right, ← itemsAt, splitting_right hne] at hfound
      refine ⟨_, (hfound.append_left _).trans hperm, fun callback s => ?_⟩
      refine (h.filled hi).find_of_le hne rfl hright.le fun s => ?_
      rw [if_pos hright, hrun]
    · -- at the median itself no child has an interval with the point
      rw [filter_contains_rightIntervals (not_lt.1 hright)] at hperm
      refine ⟨_, hperm, fun callback s => ?_⟩
      refine (h.filled hi).find_of_le hne rfl (not_lt.1 hpoint) fun s => ?_
      rw [if_neg hright]
      rfl

end Found

/-! ## Iteration -/

section Iteration

variable {tree : IntervalTree T V} {rows : ℕ → List (IntervalWithValue T V)} {it : Iterator}
  {i j : ℕ}

/-- The intervals that the nodes have, one after the other. -/
structure Layout (tree : IntervalTree T V) (rows : ℕ → List (IntervalWithValue T V)) : Prop where
  size : ∀ i, (tree.nodes[i]?.map Node.sorted_intervals_range_size).getD 0 = (rows i).length
  place : ∀ i, rows i ≠ [] → ∃ (node : Node T) (before after : List (IntervalWithValue T V)),
    tree.nodes[i]? = some node ∧ node.sorted_intervals_range_start_index = before.length ∧
      tree.sorted_intervals = before ++ rows i ++ after

variable (tree rows) in
/-- What the nodes from a place on have. -/
def rowsFrom (i : ℕ) : List (IntervalWithValue T V) :=
  (List.range' i (tree.nodes.length - i)).flatMap rows

variable (tree rows) in
/-- What an iterator has still to give. -/
def remaining (it : Iterator) : List (IntervalWithValue T V) :=
  (rows it.node_index).drop it.current_interval_index ++ rowsFrom tree rows (it.node_index + 1)

variable (tree rows) in
/-- The iterator is at an interval or at the end. -/
def AtInterval (it : Iterator) : Prop :=
  it.current_interval_index < (rows it.node_index).length ∨ it = tree.end_

lemma rowsFrom_of_lt (h : i < tree.nodes.length) :
    rowsFrom tree rows i = rows i ++ rowsFrom tree rows (i + 1) := by
  rw [rowsFrom, rowsFrom, show tree.nodes.length - i = tree.nodes.length - (i + 1) + 1 by omega,
    range'_succ, flatMap_cons]

lemma rowsFrom_of_le (h : tree.nodes.length ≤ i) : rowsFrom tree rows i = [] := by
  rw [rowsFrom, Nat.sub_eq_zero_of_le h]
  rfl

lemma rowsFrom_skip (hij : i ≤ j) (hj : j ≤ tree.nodes.length)
    (h : ∀ k, i ≤ k → k < j → rows k = []) : rowsFrom tree rows i = rowsFrom tree rows j := by
  induction hij using decreasingInduction with
  | self => rfl
  | of_succ k hk ih =>
    rw [rowsFrom_of_lt (by omega), h k le_rfl hk, nil_append]
    exact ih fun k' hk' => h k' (by omega)

variable (tree) in
/-- A step back undoes a step, and the steps back from the end are those from the start in
reverse. -/
def Reversible : Prop :=
  (∀ it it' : Iterator, it.current_interval_index <
      (tree.nodes[it.node_index]?.map Node.sorted_intervals_range_size).getD 0 →
    tree.iterateToNext it = some it' → tree.iterateToPrevious it' = some it) ∧
  ∃ fuel visited, tree.forEach fuel = some (tree.end_, visited) ∧
    tree.forEachBack fuel = some (tree.begin, visited.reverse)

lemma lt_of_previousFrom (hi : tree.hasValueAt i = true) (hij : i < j)
    (h : tree.previousFrom j = some it) : i < it.node_index := by
  induction j with
  | zero => omega
  | succ j ih =>
    rw [previousFrom, Option.bind_eq_some_iff] at h
    obtain ⟨node, hnode, h⟩ := h
    split_ifs at h with hvalue
    · obtain rfl := Option.some.inj h
      exact hij
    · rcases (le_of_lt_succ hij).eq_or_lt with rfl | hlt
      · simp [hasValueAt, hnode, hvalue] at hi
      · exact ih hlt h

namespace Layout

variable (h : Layout tree rows)

include h

lemma hasValueAt_iff : tree.hasValueAt i = true ↔ rows i ≠ [] := by
  have hsize := h.size i
  rw [hasValueAt]
  cases hnode : tree.nodes[i]? with
  | none =>
    rw [hnode] at hsize
    rw [eq_nil_of_length_eq_zero hsize.symm]
    exact ⟨nofun, fun hne => absurd rfl hne⟩
  | some node =>
    rw [hnode, map_some, getD_some] at hsize
    rw [map_some, getD_some, Node.hasValue, bne_iff_ne, hsize]
    exact length_eq_zero_iff.not

lemma rows_eq_nil (hi : tree.hasValueAt i = false) : rows i = [] := by
  by_contra hne
  rw [h.hasValueAt_iff.2 hne] at hi
  cases hi

lemma lt_length (hi : rows i ≠ []) : i < tree.nodes.length := by
  obtain ⟨node, _, _, hnode, _⟩ := h.place i hi
  exact (List.getElem?_eq_some_iff.1 hnode).1

/-- The search for the next node with intervals passes nothing. -/
lemma rowsFrom_scanUntil (hi : i ≤ tree.nodes.length) : rowsFrom tree rows i =
    rowsFrom tree rows (scanUntil tree.hasValueAt i tree.nodes.length) :=
  rowsFrom_skip (le_scanUntil hi) (scanUntil_le hi) fun _ hk hlt =>
    h.rows_eq_nil (stop_of_lt_scanUntil hi hk hlt)

lemma lastWithValue_eq (hi : i = 0 ∨ rows i ≠ []) (hij : i ≤ j)
    (hafter : ∀ k, i < k → k ≤ j → rows k = []) : tree.lastWithValue j = i := by
  induction hij with
  | refl =>
    rcases i with _ | i
    · rfl
    · rw [lastWithValue, if_pos (h.hasValueAt_iff.2 (hi.resolve_left (succ_ne_zero i)))]
  | @step j hij ih =>
    have hvalue : ¬ tree.hasValueAt (j + 1) = true := by
      rw [h.hasValueAt_iff, Classical.not_not]
      exact hafter (j + 1) (lt_succ_of_le hij) le_rfl
    rw [lastWithValue, if_neg hvalue]
    exact ih fun k hk hkj => hafter k hk (by omega)

/-- The end, given the last node with intervals. -/
lemma end_eq (hi : i = 0 ∨ rows i ≠ []) (hafter : ∀ k, i < k → rows k = []) :
    tree.end_ = ⟨i, (rows i).length⟩ := by
  have hlast : tree.findLastIteratorNodeIndex = i := by
    rw [findLastIteratorNodeIndex]
    split_ifs with hnodes
    · rcases hi with hi | hi
      · exact hi.symm
      · have hlt := h.lt_length hi
        rw [hnodes] at hlt
        exact absurd hlt (not_lt_zero i)
    · have hle : i ≤ tree.nodes.length - 1 := by
        rcases hi with rfl | hi
        · exact zero_le _
        · exact le_sub_one_of_lt (h.lt_length hi)
      exact h.lastWithValue_eq hi hle fun k hk _ => hafter k hk
  rw [end_, hlast, h.size]

lemma lastWithValue_after (hk : tree.lastWithValue j < i) (hj : i ≤ j) : rows i = [] := by
  induction j with
  | zero => omega
  | succ j ih =>
    rw [lastWithValue] at hk
    split_ifs at hk with hvalue
    · omega
    · rcases hj.eq_or_lt with rfl | hlt
      · exact h.rows_eq_nil (eq_false_of_not_eq_true hvalue)
      · exact ih hk (le_of_lt_succ hlt)

/-- Nothing is left at the end. -/
lemma remaining_end : remaining tree rows tree.end_ = [] := by
  rw [remaining, end_, h.size, drop_length, nil_append, rowsFrom, flatMap_eq_nil_iff]
  intro k hk
  obtain ⟨hlow, hhigh⟩ := mem_range'_1.1 hk
  have hnodes : tree.nodes ≠ [] := ne_nil_of_length_pos (by omega)
  rw [findLastIteratorNodeIndex, if_neg hnodes] at hlow hhigh
  exact h.lastWithValue_after hlow (by omega)

/-- An iterator that is not at the end gives an interval and goes on to the next one. -/
lemma next (hit : it.current_interval_index < (rows it.node_index).length) :
    ∃ x it', tree.getCurrentValue it = some x ∧ tree.iterateToNext it = some it' ∧
      remaining tree rows it = x :: remaining tree rows it' ∧ AtInterval tree rows it' ∧
      (it' = ⟨it.node_index, it.current_interval_index + 1⟩ ∧
          (it.current_interval_index + 1 = (rows it.node_index).length →
            ∀ k, it.node_index < k → rows k = []) ∨
        it'.current_interval_index = 0 ∧ it.node_index < it'.node_index ∧
          rows it'.node_index ≠ []) := by
  have hrow : rows it.node_index ≠ [] := ne_nil_of_length_pos (by omega)
  have hnode_lt : it.node_index + 1 ≤ tree.nodes.length := h.lt_length hrow
  obtain ⟨node, before, after, hnode, hstart, hsorted⟩ := h.place _ hrow
  have hsize := h.size it.node_index
  rw [hnode, map_some, getD_some] at hsize
  have hvalue : tree.getCurrentValue it =
      some (rows it.node_index)[it.current_interval_index] := by
    rw [getCurrentValue, hnode, bind_some, hstart, hsorted, append_assoc,
      getElem?_append_right (le_add_right _ _), Nat.add_sub_cancel_left,
      getElem?_append_left hit, getElem?_eq_getElem hit]
  refine ⟨_, _, hvalue, by rw [iterateToNext, hnode, map_some], ?_⟩
  rw [hsize, remaining, remaining, AtInterval, drop_eq_getElem_cons hit, cons_append,
    cons_inj_right]
  -- the node has more intervals
  by_cases hmore : it.current_interval_index + 1 < (rows it.node_index).length
  · rw [if_pos hmore]
    exact ⟨rfl, .inl hmore, .inl ⟨rfl, fun hend => absurd hend hmore.ne⟩⟩
  -- it has not, and the next place with a value is looked for
  rw [if_neg hmore, drop_eq_nil_of_le (by omega), nil_append, h.rowsFrom_scanUntil hnode_lt]
  dsimp only
  split_ifs with hnext
  · have hfound := h.hasValueAt_iff.1 (stop_scanUntil hnode_lt hnext)
    exact ⟨by rw [rowsFrom_of_lt hnext, drop_zero], .inl (length_pos_of_ne_nil hfound),
      .inr ⟨rfl, le_scanUntil hnode_lt, hfound⟩⟩
  -- there is none, and the iterator stays behind the last interval
  have hend : it.current_interval_index + 1 = (rows it.node_index).length := by omega
  have hafter : ∀ k, it.node_index < k → rows k = [] := by
    intro k hk
    by_contra hne
    have hlt := h.lt_length hne
    have hnone : tree.hasValueAt k = false := stop_of_lt_scanUntil hnode_lt hk (by omega)
    exact hne (h.rows_eq_nil hnone)
  refine ⟨?_, .inr ?_, .inl ⟨rfl, fun _ => hafter⟩⟩
  · rw [rowsFrom_of_le (not_lt.1 hnext),
      rowsFrom_skip hnode_lt le_rfl fun k hk _ => hafter k hk, rowsFrom_of_le le_rfl, hend,
      drop_length]
    rfl
  · rw [h.end_eq (.inr hrow) hafter, hend]

/-- Iteration begins at the first interval of all rows. -/
lemma begin_eq : AtInterval tree rows tree.begin ∧
    remaining tree rows tree.begin = rowsFrom tree rows 0 := by
  have hskip := h.rowsFrom_scanUntil (zero_le tree.nodes.length)
  rw [AtInterval, remaining, begin, findFirstIteratorNodeIndex]
  by_cases hnone : scanUntil tree.hasValueAt 0 tree.nodes.length = tree.nodes.length
  · -- no node has a value, and the iterator is at the end at once
    have hempty : ∀ k, rows k = [] := by
      intro k
      by_contra hne
      have hlt := h.lt_length hne
      exact hne (h.rows_eq_nil (stop_of_lt_scanUntil (zero_le _) (zero_le k) (by rwa [hnone])))
    rw [if_pos hnone, h.end_eq (.inl rfl) fun k _ => hempty k, hempty 0]
    refine ⟨.inr rfl, ?_⟩
    rw [hskip, hnone, rowsFrom_of_le le_rfl, drop_nil, nil_append, rowsFrom, flatMap_eq_nil_iff]
    exact fun k _ => hempty k
  · rw [if_neg hnone]
    have hlt := lt_of_le_of_ne (scanUntil_le (zero_le _)) hnone
    have hfound := h.hasValueAt_iff.1 (stop_scanUntil (zero_le _) hlt)
    refine ⟨.inl (length_pos_of_ne_nil hfound), ?_⟩
    rw [drop_zero, hskip, rowsFrom_of_lt hlt]

/-- **The whole iteration** visits what the nodes have, in their order. -/
theorem forEach_eq {fuel : ℕ} (hfuel : (rowsFrom tree rows 0).length ≤ fuel) :
    tree.forEach fuel = some (tree.end_, rowsFrom tree rows 0) := by
  obtain ⟨hbegin, hall⟩ := h.begin_eq
  -- in every state of the loop, what was visited and what remains are all intervals
  obtain ⟨⟨it, visited⟩, hrun, ⟨hvisited, hit⟩, hcond⟩ := whileLoop_spec
    (fun state : Iterator × List (IntervalWithValue T V) => decide (state.1 ≠ tree.end_))
    (fun state => (tree.getCurrentValue state.1).bind fun x =>
      (tree.iterateToNext state.1).map fun it => (it, state.2 ++ [x]))
    (fun state => state.2 ++ remaining tree rows state.1 = rowsFrom tree rows 0 ∧
      AtInterval tree rows state.1)
    (fun state => (rowsFrom tree rows 0).length - state.2.length)
    (by
      rintro ⟨it, visited⟩ ⟨hvisited, hit⟩ hcond
      obtain ⟨x, it', hvalue, hnext, hrest, hit', -⟩ :=
        h.next (hit.resolve_right (of_decide_eq_true hcond))
      dsimp only at hvisited ⊢
      rw [hrest] at hvisited
      refine ⟨(it', visited ++ [x]), by rw [hvalue, hnext]; rfl, ⟨?_, hit'⟩, ?_⟩
      · rw [append_assoc, singleton_append]
        exact hvisited
      · have hlen := congrArg length hvisited
        rw [length_append, length_cons] at hlen
        rw [length_append, length_singleton]
        omega)
    fuel (tree.begin, []) ⟨hall, hbegin⟩ hfuel
  obtain rfl : it = tree.end_ := not_not.1 (of_decide_eq_false hcond)
  dsimp only at hvisited
  rw [h.remaining_end, append_nil] at hvisited
  rw [forEach, hrun, hvisited]

/-- **The iteration is reversible** exactly if one node at most has intervals. -/
theorem reversible_iff :
    Reversible tree ↔ ∀ i j, rows i ≠ [] → rows j ≠ [] → i = j := by
  constructor
  · rintro ⟨hback, -⟩ i j hi hj
    by_contra hne
    wlog hij : i < j generalizing i j
    · exact this j i hj hi (Ne.symm hne) (lt_of_le_of_ne (not_lt.1 hij) (Ne.symm hne))
    have hlen := length_pos_of_ne_nil hi
    -- from the last interval of the node to a later node
    have hit : (Iterator.mk i ((rows i).length - 1)).2 < (rows i).length := sub_one_lt hlen.ne'
    obtain ⟨x, it', -, hnext, -, -, ⟨-, hlast⟩ | ⟨hzero, hlt, -⟩⟩ := h.next hit
    · exact hj (hlast (sub_one_add_one hlen.ne') j hij)
    have hprevious := hback _ _ (by rwa [h.size]) hnext
    rw [iterateToPrevious, hzero, if_neg (lt_irrefl 0)] at hprevious
    exact lt_irrefl _ (lt_of_previousFrom (h.hasValueAt_iff.2 hi) hlt hprevious)
  intro hone
  have hstep (it : Iterator) (hit : it.current_interval_index < (rows it.node_index).length) :
      ∃ x, tree.getCurrentValue it = some x ∧
        tree.iterateToNext it = some ⟨it.node_index, it.current_interval_index + 1⟩ ∧
        remaining tree rows it =
          x :: remaining tree rows ⟨it.node_index, it.current_interval_index + 1⟩ := by
    obtain ⟨x, it', hvalue, hnext, hrest, -, ⟨rfl, -⟩ | ⟨-, hlt, hk⟩⟩ := h.next hit
    · exact ⟨x, hvalue, hnext, hrest⟩
    · exact absurd (hone _ _ (ne_nil_of_length_pos (by omega)) hk) hlt.ne
  set a := tree.begin.node_index
  obtain ⟨k, hk, hend⟩ : ∃ k ≤ (rows a).length, tree.end_ = ⟨a, k⟩ := by
    rcases h.begin_eq.1 with hlt | heq
    · have hrow : rows a ≠ [] := ne_nil_of_length_pos hlt
      exact ⟨_, le_rfl, h.end_eq (.inr hrow) fun k hk => by_contra fun hne =>
        hk.ne (hone _ _ hrow hne)⟩
    · exact ⟨0, zero_le _, heq.symm⟩
  refine ⟨fun it it' hit hnext => ?_, (rowsFrom tree rows 0).length + k, _,
    h.forEach_eq (le_add_right _ _), ?_⟩
  · obtain ⟨x, -, hsame, -⟩ := hstep it (by rwa [h.size] at hit)
    obtain rfl := Option.some.inj (hsame.symm.trans hnext)
    exact if_pos (succ_pos _)
  -- the loop back, which has still to visit what is before its interval
  obtain ⟨⟨it, visited⟩, hrun, ⟨k, -, rfl, hvisited⟩, hcond⟩ := whileLoop_spec
    (fun state : Iterator × List (IntervalWithValue T V) => decide (state.1 ≠ tree.begin))
    (fun state => (tree.iterateToPrevious state.1).bind fun it =>
      (tree.getCurrentValue it).map fun x => (it, state.2 ++ [x]))
    (fun state => ∃ k ≤ (rows a).length, state.1 = ⟨a, k⟩ ∧
      state.2.reverse = remaining tree rows ⟨a, k⟩)
    (fun state => state.1.current_interval_index)
    (by
      rintro ⟨_, visited⟩ ⟨_ | k, hle, rfl, hvisited⟩ hcond
      · exact absurd rfl (of_decide_eq_true hcond)
      obtain ⟨x, hvalue, -, hrest⟩ := hstep ⟨a, k⟩ hle
      refine ⟨(⟨a, k⟩, visited ++ [x]), ?_, ⟨k, by omega, rfl, ?_⟩, lt_succ_self k⟩
      · rw [iterateToPrevious, if_pos (succ_pos k), bind_some]
        exact congrArg (Option.map _) hvalue
      · rw [hrest, ← hvisited, reverse_append]
        rfl)
    ((rowsFrom tree rows 0).length + k) (tree.end_, [])
    ⟨k, hk, hend, by rw [← hend, h.remaining_end]; rfl⟩ (hend ▸ le_add_left k _)
  have hbegin : (⟨a, k⟩ : Iterator) = tree.begin := not_not.1 (of_decide_eq_false hcond)
  rw [forEachBack, hrun, hbegin, ← h.begin_eq.2, ← hbegin, ← hvisited, reverse_reverse]

end Layout

end Iteration

/-! ## The container -/

section Container

variable {items : List (Interval T × V)} {tree : IntervalTree T V}

/-- A tree that has not been built. -/
structure Fresh (tree : IntervalTree T V) : Prop where
  nodes : ∃ middle, tree.nodes = [⟨0, tree.sorted_intervals.length, middle⟩]
  intervals_size : tree.intervals_size = tree.sorted_intervals.length
  tree_is_built : tree.tree_is_built = false

/-- What was inserted with an interval. -/
def item (x : IntervalWithValue T V) : Interval T × V := (x.interval, x.value)

lemma Fresh.emplace (h : Fresh tree) (interval : Interval T) (value : V) :
    Fresh (tree.emplace interval value).2 := by
  obtain ⟨⟨middle, hnodes⟩, hsize, hbuilt⟩ := h
  rw [IntervalTree.emplace]
  split
  · exact ⟨⟨middle, hnodes⟩, hsize, hbuilt⟩
  · refine ⟨⟨middle, ?_⟩, ?_, hbuilt⟩
    · rw [increaseIntervalsSize, length_append, length_singleton, hnodes, hsize]
      rfl
    · rw [increaseIntervalsSize, length_append, length_singleton, hsize]

lemma emplace_items (interval : Interval T) (value : V) :
    (tree.emplace interval value).2.sorted_intervals.map item =
      tree.sorted_intervals.map item ++
        [(interval, value)].filter fun x => decide (x.1.left ≤ x.1.right) := by
  rw [emplace]
  split_ifs with hle
  · rw [filter_cons_of_neg (by simpa using hle), filter_nil, append_nil]
  · rw [filter_cons_of_pos (by simpa using hle), filter_nil, increaseIntervalsSize, map_append]
    rfl

lemma Fresh.insertEach (h : Fresh tree) : Fresh (tree.insertEach items) := by
  induction items generalizing tree with
  | nil => exact h
  | cons x items ih => exact ih (h.emplace x.1 x.2)

lemma insertEach_items : (tree.insertEach items).sorted_intervals.map item =
    tree.sorted_intervals.map item ++ items.filter fun x => decide (x.1.left ≤ x.1.right) := by
  induction items generalizing tree with
  | nil => exact (append_nil _).symm
  | cons x items ih =>
    rw [insertEach, foldl_cons, ← insertEach, ih, emplace_items, append_assoc,
      ← filter_append, singleton_append]

/-- An interval that contains a point has its ends in order. -/
lemma filter_contains_items {stored : List (IntervalWithValue T V)} (point : T)
    (h : stored.map item = items.filter fun x => decide (x.1.left ≤ x.1.right)) :
    (stored.filter (·.interval.contains point)).map item =
      items.filter (·.1.contains point) := by
  have hcontains : (stored.filter (·.interval.contains point)).map item =
      (stored.map item).filter (·.1.contains point) := by
    rw [filter_map]
    rfl
  rw [hcontains, h, filter_filter]
  refine filter_congr fun x _ => ?_
  rw [Bool.eq_iff_iff, and_eq_true, decide_eq_true_eq, Interval.contains, and_eq_true,
    decide_eq_true_eq, decide_eq_true_eq]
  exact ⟨And.left, fun hpoint => ⟨hpoint, hpoint.1.trans hpoint.2⟩⟩

lemma size_of_not_hasValueAt {i : ℕ} (h : tree.hasValueAt i = false) :
    (tree.nodes[i]?.map Node.sorted_intervals_range_size).getD 0 = 0 := by
  rw [hasValueAt] at h
  cases hnode : tree.nodes[i]? with
  | none => rfl
  | some node =>
    rw [hnode, map_some, getD_some, Node.hasValue, bne_eq_false_iff_eq] at h
    exact h

/-- Before the tree is built all intervals are in the first node. -/
lemma Fresh.layout (h : Fresh tree) :
    Layout tree (fun i => if i = 0 then tree.sorted_intervals else []) := by
  obtain ⟨middle, hnodes⟩ := h.nodes
  constructor
  case size => rintro (_ | i) <;> rw [hnodes] <;> rfl
  case place =>
    intro i hrow
    rcases i with _ | i
    · exact ⟨_, [], [], by rw [hnodes]; rfl, rfl, (append_nil _).symm⟩
    · exact absurd rfl hrow

lemma Fresh.rowsFrom_eq (h : Fresh tree) :
    rowsFrom tree (fun i => if i = 0 then tree.sorted_intervals else []) 0 =
      tree.sorted_intervals := by
  obtain ⟨middle, hnodes⟩ := h.nodes
  rw [rowsFrom, hnodes, length_singleton, Nat.sub_zero, range'_one, flatMap_singleton, if_pos rfl]

lemma report_stop (found : List (IntervalWithValue T V)) (s : Bool) :
    (report (fun _ _ => (false, true)) s found).2 = (s || !found.isEmpty) := by
  cases found with
  | nil => exact (Bool.or_false s).symm
  | cons x xs => exact (Bool.or_true s).symm

variable [Inhabited T]

lemma new_insertEach (items : List (Interval T × V)) : Fresh (new.insertEach items) ∧
    (new.insertEach items).sorted_intervals.map item =
      items.filter fun x => decide (x.1.left ≤ x.1.right) :=
  ⟨Fresh.insertEach ⟨⟨default, rfl⟩, rfl, rfl⟩, insertEach_items⟩

variable (tree : IntervalTree T V)

/-- Each node of a built tree has the intervals that the splitting keeps at its place. -/
lemma layout_build : Layout tree.build fun i =>
    sortedByLeftAsc (splitting.kept (itemsAt tree.sorted_intervals i)) := by
  have h := building_build tree
  have hnil : sortedByLeftAsc (splitting.kept ([] : List (IntervalWithValue T V))) = [] := by
    have hkept : splitting.kept ([] : List (IntervalWithValue T V)) = [] := rfl
    rw [hkept, sortedByLeftAsc, mergeSort_nil]
  constructor
  case size =>
    intro i
    by_cases hi : itemsAt tree.sorted_intervals i = []
    · rw [size_of_not_hasValueAt (h.others i hi), hi, hnil, length_nil]
    · obtain ⟨hne, before, after, hnode, -⟩ := h.filled hi
      rw [hnode, splitting_kept hne]
      rfl
  case place =>
    intro i hrow
    have hi : itemsAt tree.sorted_intervals i ≠ [] := by
      intro hi
      rw [hi, hnil] at hrow
      exact hrow rfl
    obtain ⟨hne, before, after, hnode, hsorted⟩ := h.filled hi
    rw [splitting_kept hne]
    exact ⟨_, before, _, hnode, rfl, by rw [hsorted, append_assoc]⟩

lemma rowsFrom_build_perm :
    (rowsFrom tree.build (fun i => sortedByLeftAsc
      (splitting.kept (itemsAt tree.sorted_intervals i))) 0).Perm tree.sorted_intervals := by
  have hkept := splitting.kept_perm tree.sorted_intervals fun i hi =>
    have ⟨_, _, _, hnode, _⟩ := (building_build tree).filled hi
    (List.getElem?_eq_some_iff.1 hnode).1
  refine Perm.trans ?_ hkept.symm
  rw [rowsFrom, Nat.sub_zero, ← range_eq_range']
  exact Perm.flatMap_left _ fun i _ => mergeSort_perm _ _

/-- **The container.** Of any intervals that were inserted in any order, a search in the built
tree reports those that contain the point, once for each time they were inserted and with
their values, in an order that does not depend on the callback; `has` says whether there is
one; and iteration visits all whose ends are in order, before and after the tree is built.
The places in the array stay below twice the number of intervals. -/
theorem find_has_iterate_exact (items : List (Interval T × V)) :
    (∀ point, ∃ found : List (IntervalWithValue T V),
      (found.map item).Perm (items.filter (·.1.contains point)) ∧
      ∀ {σ : Type} (callback : σ → IntervalWithValue T V → Bool × σ) (s : σ),
        (new.insertEach items).build.find callback point s = some (report callback s found).2) ∧
    (∀ point, (new.insertEach items).build.has point = some (items.any (·.1.contains point))) ∧
    (∀ tree ∈ [new.insertEach items, (new.insertEach items).build],
      ∃ visited : List (IntervalWithValue T V),
        (visited.map item).Perm (items.filter fun x => decide (x.1.left ≤ x.1.right)) ∧
        ∀ fuel, items.length ≤ fuel → tree.forEach fuel = some (tree.end_, visited)) ∧
    (new.insertEach items).build.nodes.length ≤ 2 * items.length := by
  obtain ⟨hfresh, hitems⟩ := new_insertEach items
  have hbuilding := building_build (new.insertEach items)
  have hlen : (new.insertEach items).sorted_intervals.length ≤ items.length := by
    rw [← length_map (f := item), hitems]
    exact length_filter_le _ _
  have hfind : ∀ point, ∃ found : List (IntervalWithValue T V),
      (found.map item).Perm (items.filter (·.1.contains point)) ∧
      ∀ {σ : Type} (callback : σ → IntervalWithValue T V → Bool × σ) (s : σ),
        (new.insertEach items).build.find callback point s = some (report callback s found).2 := by
    intro point
    obtain ⟨found, hfound, hrun⟩ := hbuilding.findIntervalsImpl point 0
    rw [itemsAt, Splitting.itemsAt_zero] at hfound
    exact ⟨found, filter_contains_items point hitems ▸ hfound.map item, hrun⟩
  refine ⟨hfind, fun point => ?_, ?_, ?_⟩
  · -- `has` is a search whose callback stops at the first interval
    obtain ⟨found, hfound, hrun⟩ := hfind point
    have hnil : found.map item = [] ↔ items.filter (·.1.contains point) = [] := by
      rw [← length_eq_zero_iff, hfound.length_eq, length_eq_zero_iff]
    rw [has, hrun, report_stop, Bool.false_or, Option.some_inj, Bool.eq_iff_iff,
      not_eq_true', ← not_eq_true, List.isEmpty_iff, ← map_eq_nil_iff (f := item),
      hnil, filter_eq_nil_iff, any_eq_true]
    push Not
    rfl
  · intro tree htree
    -- before it is built the tree is one row, in the order of insertion
    rcases mem_pair.1 htree with rfl | rfl
    · refine ⟨_, Perm.of_eq hitems, fun fuel hfuel => ?_⟩
      rw [hfresh.layout.forEach_eq (by rw [hfresh.rowsFrom_eq]; omega), hfresh.rowsFrom_eq]
    · have hperm := rowsFrom_build_perm (new.insertEach items)
      refine ⟨_, hitems ▸ hperm.map item, fun fuel hfuel => ?_⟩
      exact (layout_build _).forEach_eq (by rw [hperm.length_eq]; omega)
  · exact hbuilding.size.trans (mul_le_mul_left 2 hlen)

/-- **Iteration is reversible** before the tree is built, and after it exactly if one node at most
has intervals. -/
theorem reverse_iteration_iff (items : List (Interval T × V)) :
    Reversible (new.insertEach items) ∧ (Reversible (new.insertEach items).build ↔
      ∀ i j, (new.insertEach items).build.hasValueAt i = true →
        (new.insertEach items).build.hasValueAt j = true → i = j) := by
  have hfresh := (new_insertEach items).1.layout
  have hbuilt := layout_build (new.insertEach items)
  refine ⟨hfresh.reversible_iff.2 fun i j hi hj => ?_, ?_⟩
  · rw [ite_ne_right_iff] at hi hj
    exact hi.1.trans hj.1.symm
  · simp only [hbuilt.reversible_iff, hbuilt.hasValueAt_iff]

/-- Two intervals in two nodes: from the second node the step back stays there. -/
theorem not_reversible_two_nodes :
    ¬ Reversible (new.insertEach [((⟨0, 0⟩ : Interval ℕ), ()), (⟨2, 2⟩, ())]).build := by
  intro hback
  let tree : IntervalTree ℕ Unit := new.insertEach [(⟨0, 0⟩, ()), (⟨2, 2⟩, ())]
  have hne : tree.sorted_intervals ≠ [] := cons_ne_nil _ _
  have hmedian : median tree.sorted_intervals hne = 2 := by
    simp [tree, new, insertEach, emplace, increaseIntervalsSize, median, pointsMedian,
      intervalsToPoints, mergeSort, MergeSort.Internal.splitInTwo]
  have hvalue {i : ℕ} (hi : itemsAt tree.sorted_intervals i ≠ []) :=
    (layout_build tree).hasValueAt_iff.1 ((building_build tree).filled hi).hasValueAt
  refine zero_ne_one ((layout_build tree).reversible_iff.1 hback 0 1 (hvalue ?_) (hvalue ?_))
  · rwa [itemsAt, Splitting.itemsAt_zero]
  · rw [itemsAt, splitting.itemsAt_left _ 0, Splitting.itemsAt_zero, splitting_left hne, hmedian]
    exact ne_nil_of_mem (mem_filter.2 ⟨mem_cons_self, rfl⟩)

end Container

end ClickHouse.IntervalTree
