/-
The rows of a window frame by the SQL definition.

A frame is a set of rows of the partition: those at or after its start and at or before
its end, by position for ROWS and by the value of the ORDER BY column for RANGE. The
transform never looks at the definition: it moves two cursors forward, each from where
it stood for the row before.

The value of a row and a boundary are compared in the type of the column, integers without
wrap-around and floating-point numbers as they are rounded. A NaN is on neither side of a
boundary, and the search goes wrong there: `run_nan_takes_frame_of_value`.

A cursor that only moves forward finds the right row because the condition it looks for
is monotone: a row that lies before the frame of one row lies before the frames of all
later rows. `Ordered` collects what the cursors need of the order of a partition, so that
the argument about the cursors (`Swept`, one step and then all rows) is made once, for
columns without NULLs and for those with. Sortedness enters only where `Ordered` is
derived from it.
-/
import ClickHouse.Processors.WindowRun

set_option autoImplicit false

namespace ClickHouse.Window

open List Lib Column
open Lib (scanUntil le_scanUntil scanUntil_le lex IsComparison)
open Column (Value compareAt isComparison_compareAt)
open WindowTransform (compareWithOffset direction endsFrame peers sameOrder samePartition
  startsFrame)

section

variable {p q : ℕ} {V A S R : Type} [Ord V]
variable (d : WindowDescription q V) (input : List (Row p q V A))

/-! ## Where a frame starts and ends -/

/-- Row `j` is not before the start of the frame of row `i`. -/
def Starts (i j : ℕ) : Prop :=
  match d.frame.begin_type with
  | .Unbounded => True
  | .Current => i ≤ j ∨ arePeersAt d input i j = true
  | .Offset =>
    match d.frame.type with
    | .ROWS => i + signedOffset d.frame.begin_offset d.frame.begin_preceding ≤ j
    | .RANGE => bothAt input (startsFrame d) i j = true

/-- Row `j` is not after the end of the frame of row `i`. -/
def Lasts (i j : ℕ) : Prop :=
  match d.frame.end_type with
  | .Unbounded => True
  | .Current => j ≤ i ∨ arePeersAt d input i j = true
  | .Offset =>
    match d.frame.type with
    | .ROWS => j ≤ i + signedOffset d.frame.end_offset d.frame.end_preceding
    | .RANGE => bothAt input (endsFrame d) i j = false

/-- What the cursors need of the order of the rows from `first` to `past`. -/
structure Ordered (first past : ℕ) : Prop where
  peers_symm : ∀ {i j}, arePeersAt d input i j = true → arePeersAt d input j i = true
  peers_trans : ∀ {i j k}, arePeersAt d input i j = true → arePeersAt d input j k = true →
    arePeersAt d input i k = true
  peers_between : ∀ {i j k}, first ≤ i → i ≤ j → j ≤ k → k < past →
    arePeersAt d input i k = true → arePeersAt d input i j = true
  start_mono : d.frame.type = .RANGE → d.frame.begin_type = .Offset → ∀ {i i' j j'},
    first ≤ i → i ≤ i' → i' < past → first ≤ j → j ≤ j' → j' < past →
    bothAt input (startsFrame d) i' j = true → bothAt input (startsFrame d) i j' = true
  end_mono : d.frame.type = .RANGE → d.frame.end_type = .Offset → ∀ {i i' j j'},
    first ≤ i → i ≤ i' → i' < past → first ≤ j → j ≤ j' → j' < past →
    bothAt input (endsFrame d) i' j = true → bothAt input (endsFrame d) i j' = true

/-- The cursors before row `i`: what they passed needs no second look. -/
structure Swept (first past i : ℕ) (frame : Frame) : Prop where
  peer_group : ∀ {j}, frame.peer_group_start ≤ j → j < i →
    arePeersAt d input frame.peer_group_start j = true
  before_group : ∀ {j}, first ≤ j → j < frame.peer_group_start →
    arePeersAt d input j frame.peer_group_start = false
  before_start : d.frame.type = .RANGE → d.frame.begin_type = .Offset → ∀ {i' j}, i ≤ i' →
    i' < past → first ≤ j → j < frame.frame_start → bothAt input (startsFrame d) i' j = false
  before_end : SearchesEnd d → ∀ {i' j}, i ≤ i' → i' < past → frame.frame_start ≤ j →
    j < frame.frame_end → Lasts d input i' j

variable {d input} {first past i j : ℕ} {prev : Frame}

/-- Before the first row. -/
lemma Swept.initial : Swept d input first past first ⟨first, first, first⟩ where
  peer_group h1 h2 := absurd h1 (not_le.2 h2)
  before_group h1 h2 := absurd h1 (not_le.2 h2)
  before_start _ _ _ _ _ _ h1 h2 := absurd h1 (not_le.2 h2)
  before_end _ _ _ _ _ h1 h2 := absurd h1 (not_le.2 h2)

namespace Swept

variable (h : Swept d input first past i prev) (hb : Bounded d first past i prev)
  (ho : Ordered d input first past) (hi : i < past)
include h hb ho hi

/-- No row before a new group is a peer of its first row. -/
lemma before_nextPeerGroup (hj : first ≤ j) (hlt : j < nextPeerGroup d input prev i) :
    arePeersAt d input j (nextPeerGroup d input prev i) = false := by
  rw [nextPeerGroup] at hlt ⊢
  split at hlt
  · rename_i hsame
    rw [if_pos hsame]
    exact h.before_group hj hlt
  rename_i hother
  rw [if_neg hother]
  by_contra hpeer
  rw [Bool.not_eq_false] at hpeer
  rcases lt_or_ge j prev.peer_group_start with hbefore | hafter
  · have := ho.peers_between hj hbefore.le hb.peer_le hi hpeer
    rw [h.before_group hj hbefore] at this
    cases this
  · exact hother (ho.peers_trans (h.peer_group hafter hlt) hpeer)

omit ho in
lemma nextPeerGroup_peer (hj : nextPeerGroup d input prev i ≤ j) (hji : j ≤ i) :
    arePeersAt d input (nextPeerGroup d input prev i) j = true := by
  rw [nextPeerGroup] at hj ⊢
  split at hj
  · rename_i hsame
    rw [if_pos hsame]
    rcases hji.lt_or_eq with hlt | rfl
    · exact h.peer_group hj hlt
    · exact hsame
  · rename_i hother
    rw [if_neg hother, le_antisymm hj hji]
    exact arePeersAt_self

/-- The group of the current row, as far as it is known, starts with its first peer. -/
lemma nextPeerGroup_le_iff (hj : first ≤ j) :
    nextPeerGroup d input prev i ≤ j ↔ i ≤ j ∨ arePeersAt d input i j = true := by
  have hgroup := h.nextPeerGroup_peer hb hi hb.nextPeerGroup_le le_rfl
  constructor
  · intro hle
    rcases le_total i j with hij | hji
    · exact .inl hij
    · have hpeer := h.nextPeerGroup_peer hb hi hle hji
      exact .inr (ho.peers_symm (ho.peers_trans (ho.peers_symm hpeer) hgroup))
  · rintro (hij | hpeer)
    · exact hb.nextPeerGroup_le.trans hij
    · by_contra hbefore
      have hnot := h.before_nextPeerGroup hb ho hi hj (not_le.1 hbefore)
      rw [ho.peers_symm (ho.peers_trans hgroup hpeer)] at hnot
      cases hnot

/-- **The start of the frame.** -/
theorem nextStart_le_iff (hj : first ≤ j) (hlt : j < past) :
    nextStart d input first past prev i ≤ j ↔ Starts d input i j := by
  cases hbegin : d.frame.begin_type with
  | Unbounded =>
    rw [nextStart_unbounded hbegin, Starts, hbegin]
    exact iff_of_true hj trivial
  | Current =>
    rw [nextStart_current hbegin, Starts, hbegin]
    exact h.nextPeerGroup_le_iff hb ho hi hj
  | Offset =>
    cases htype : d.frame.type with
    | ROWS =>
      rw [nextStart_rows htype hbegin, Starts, hbegin, htype, clamp]
      omega
    | RANGE =>
      have hle : prev.frame_start ≤ past := hb.start_le_end.trans hb.end_le
      rw [nextStart_range htype hbegin, Starts, hbegin, htype]
      constructor
      · -- the rows behind the one where the search stopped are in the frame as well
        intro hscan
        exact ho.start_mono htype hbegin hb.first_le le_rfl hi
          (hb.first_le_start.trans (le_scanUntil hle)) hscan hlt
          (stop_scanUntil hle (hscan.trans_lt hlt))
      · -- no row that this search or one before it has passed is in the frame
        intro hstart
        by_contra hbefore
        rcases lt_or_ge j prev.frame_start with hswept | hsearched
        · rw [h.before_start htype hbegin le_rfl hi hj hswept] at hstart
          cases hstart
        · rw [stop_of_lt_scanUntil hle hsearched (not_le.1 hbefore)] at hstart
          cases hstart

section

variable (hstart : nextStart d input first past prev i ≤ j) (hlt : j < past)
include hstart hlt

/-- The end of a frame that goes up to the current row or its last peer. -/
lemma lt_nextEnd_current_iff (hend : d.frame.end_type = .Current) :
    j < nextEnd d input first past prev i ↔ j ≤ i ∨ arePeersAt d input i j = true := by
  have hself : i < nextEnd d input first past prev i := hb.lt_nextEnd hi hend
  have hfrom : endFrom d input first past prev i ≤ past := hb.endFrom_le hi
  have hbefore := h.before_end (.inl hend) le_rfl hi (hb.start_le_nextStart.trans hstart)
  simp only [Lasts, hend] at hbefore
  rw [nextEnd_current hend] at hself ⊢
  constructor
  · intro hj
    rcases lt_or_ge j (endFrom d input first past prev i) with hswept | hsearched
    · -- a row that the search for an earlier row has passed
      exact hbefore ((lt_max_iff.1 hswept).resolve_right (not_lt.2 hstart))
    · -- a row that this search has passed
      have hstop := stop_of_lt_scanUntil hfrom hsearched hj
      exact .inr (by simpa using hstop)
  · rintro (hji | hpeer)
    · exact hji.trans_lt hself
    · by_contra hafter
      -- the search stopped before a peer, which is a peer of all rows in between
      have hscan := stop_scanUntil hfrom ((not_lt.1 hafter).trans_lt hlt)
      rw [ho.peers_between hb.first_le hself.le (not_lt.1 hafter) hlt hpeer] at hscan
      cases hscan

/-- The end of a RANGE frame with an offset. -/
lemma lt_nextEnd_range_iff (htype : d.frame.type = .RANGE) (hend : d.frame.end_type = .Offset) :
    j < nextEnd d input first past prev i ↔ bothAt input (endsFrame d) i j = false := by
  have hfrom : endFrom d input first past prev i ≤ past := hb.endFrom_le hi
  have hbefore := h.before_end (.inr ⟨htype, hend⟩) le_rfl hi (hb.start_le_nextStart.trans hstart)
  simp only [Lasts, hend, htype] at hbefore
  rw [nextEnd_range htype hend]
  constructor
  · intro hj
    rcases lt_or_ge j (endFrom d input first past prev i) with hswept | hsearched
    · -- a row that the search for an earlier row has passed
      exact hbefore ((lt_max_iff.1 hswept).resolve_right (not_lt.2 hstart))
    · exact stop_of_lt_scanUntil hfrom hsearched hj
  intro hnot
  by_contra hafter
  -- the search stopped before the row, and a later row is not in the frame either
  have hscan := stop_scanUntil hfrom ((not_lt.1 hafter).trans_lt hlt)
  have hfirst : first ≤ endFrom d input first past prev i :=
    (hb.first_le_start.trans hb.start_le_end).trans (le_max_left _ _)
  rw [ho.end_mono htype hend hb.first_le le_rfl hi (hfirst.trans (le_scanUntil hfrom))
    (not_lt.1 hafter) hlt hscan] at hnot
  cases hnot

/-- **The end of the frame.** -/
theorem lt_nextEnd_iff : j < nextEnd d input first past prev i ↔ Lasts d input i j := by
  cases hend : d.frame.end_type with
  | Unbounded =>
    rw [nextEnd_unbounded hend, Lasts, hend]
    exact iff_of_true hlt trivial
  | Current =>
    rw [Lasts, hend]
    exact h.lt_nextEnd_current_iff hb ho hi hstart hlt hend
  | Offset =>
    cases htype : d.frame.type with
    | ROWS =>
      have hfirst := hb.first_le_start.trans (hb.start_le_nextStart.trans hstart)
      rw [nextEnd_rows htype hend, Lasts, hend, htype, clamp]
      omega
    | RANGE =>
      rw [Lasts, hend, htype]
      exact h.lt_nextEnd_range_iff hb ho hi hstart hlt htype hend

end

omit h hi in
/-- A row that is not after the end of one frame is not after the end of a later one. -/
lemma lasts_succ {i' : ℕ} (hsearch : SearchesEnd d) (hi' : i + 1 ≤ i') (hpast : i' < past)
    (hj : first ≤ j) (hlt : j < past) (hlasts : Lasts d input i j) : Lasts d input i' j := by
  rcases hsearch with hend | ⟨htype, hend⟩
  · simp only [Lasts, hend] at hlasts ⊢
    rcases le_or_gt j i' with hle | hgt
    · exact .inl hle
    · have hpeer := hlasts.resolve_left (by omega)
      have hbetween := ho.peers_between hb.first_le (by omega) hgt.le hlt hpeer
      exact .inr (ho.peers_trans (ho.peers_symm hbetween) hpeer)
  · simp only [Lasts, hend, htype] at hlasts ⊢
    by_contra hends
    rw [Bool.not_eq_false] at hends
    rw [ho.end_mono htype hend hb.first_le (by omega) hpast hj le_rfl hlt hends] at hlasts
    cases hlasts

/-- **One row.** -/
theorem next : Swept d input first past (i + 1) (nextFrame d input first past prev i) where
  peer_group hj hlt := h.nextPeerGroup_peer hb hi hj (Nat.le_of_lt_succ hlt)
  before_group hj hlt := h.before_nextPeerGroup hb ho hi hj hlt
  before_start htype hbegin i' j hi' hpast hj hlt := by
    have hlen : j < past := hlt.trans_le (hb.nextStart_le hi)
    have hnot : ¬ Starts d input i j := fun hstarts =>
      absurd ((h.nextStart_le_iff hb ho hi hj hlen).2 hstarts) (not_le.2 hlt)
    simp only [Starts, hbegin, htype] at hnot
    by_contra hstarts
    rw [Bool.not_eq_false] at hstarts
    exact hnot (ho.start_mono htype hbegin hb.first_le (by omega) hpast hj le_rfl hlen hstarts)
  before_end hsearch i' j hi' hpast hj hlt := by
    have hlen : j < past := hlt.trans_le (hb.nextEnd_le hi)
    have hfirst := hb.first_le_start.trans (hb.start_le_nextStart.trans hj)
    exact Swept.lasts_succ hb ho hsearch hi' hpast hfirst hlen
      ((h.lt_nextEnd_iff hb ho hi hj hlen).1 hlt)

end Swept

lemma swept_frameBefore (hd : Admitted d input) (hlen : past ≤ input.length)
    (ho : Ordered d input first past) {k : ℕ} (hk : first + k ≤ past) :
    Swept d input first past (first + k) (frameBefore d input first past k) := by
  induction k with
  | zero => exact .initial
  | succ k ih =>
    exact (ih (by omega)).next (frame_bounds hd hlen (by omega)) ho (by omega)

/-! ## The partition of a row -/

section Partition

variable [Std.TransOrd V]

/-- The rows from the start of the partition up to row `i` belong to it, and the row before
does not. -/
lemma partitionStart_spec (hi : i < input.length) :
    partitionStart input i ≤ i ∧
      (∀ j, partitionStart input i ≤ j → j ≤ i →
        samePartitionAt input (partitionStart input i) j = true) ∧
      (∀ j, j + 1 = partitionStart input i → samePartitionAt input j (j + 1) = false) := by
  induction i with
  | zero =>
    refine ⟨le_rfl, fun j _ hj => ?_, fun j hj => absurd hj (Nat.succ_ne_zero j)⟩
    rw [Nat.le_zero.1 hj]
    exact samePartitionAt_self hi
  | succ i ih =>
    obtain ⟨hle, hsame, hbefore⟩ := ih (by omega)
    rw [partitionStart]
    split
    · -- row `i + 1` belongs to the partition of row `i`
      rename_i hnext
      refine ⟨hle.trans (Nat.le_succ i), fun j hj hji => ?_, hbefore⟩
      rcases hji.lt_or_eq with hlt | rfl
      · exact hsame j hj (Nat.le_of_lt_succ hlt)
      · exact hnext
    · -- a new partition starts with row `i + 1`
      rename_i hnext
      refine ⟨le_rfl, fun j hj hji => ?_, fun j hj => ?_⟩
      · rw [le_antisymm hji hj]
        exact samePartitionAt_self hi
      · obtain rfl : j = i := Nat.succ.inj hj
        rw [samePartitionAt_congr (hsame j hle le_rfl)]
        exact Bool.eq_false_of_not_eq_true hnext

lemma lt_partitionEnd_of_row (hi : i < input.length) :
    i < partitionEnd input (partitionStart input i) := by
  obtain ⟨hle, hsame, -⟩ := partitionStart_spec hi
  exact le_partitionEnd (hle.trans (Nat.le_succ i)) hi fun j hj hlt =>
    hsame j hj (Nat.le_of_lt_succ hlt)

variable (input) in
/-- The rows of a partition follow each other. -/
def Contiguous : Prop :=
  ∀ i j k, i ≤ j → j ≤ k → samePartitionAt input i k = true → samePartitionAt input i j = true

/-- **The partition of a row** is what lies between its boundaries. -/
theorem samePartitionAt_iff_between (hcontiguous : Contiguous input) (hi : i < input.length) :
    samePartitionAt input i j = true ↔
      partitionStart input i ≤ j ∧ j < partitionEnd input (partitionStart input i) := by
  obtain ⟨hle, hsame, hbefore⟩ := partitionStart_spec hi
  have hself := hsame i hle le_rfl
  obtain ⟨-, hlen, hend, -⟩ := partitionEnd_spec (hle.trans hi.le)
  constructor
  · intro h
    obtain ⟨-, hj, -⟩ := samePartitionAt_iff.1 h
    have hfirst := samePartitionAt_trans hself h
    have hstart : partitionStart input i ≤ j := by
      by_contra hlt
      obtain ⟨k, hk⟩ : ∃ k, k + 1 = partitionStart input i :=
        Nat.exists_eq_add_one_of_ne_zero (by omega) |>.imp fun _ => Eq.symm
      -- row `j` and the first row are one partition, so the row in between is in it too
      have hback := samePartitionAt_symm hfirst
      have hlast := hcontiguous j k _ (by omega) (by omega) hback
      have hnot := hbefore k hk
      rw [hk, samePartitionAt_trans (samePartitionAt_symm hlast) hback] at hnot
      cases hnot
    refine ⟨hstart, le_partitionEnd (hstart.trans (Nat.le_succ j)) hj fun k hk hlt => ?_⟩
    exact hcontiguous _ k j hk (Nat.le_of_lt_succ hlt) hfirst
  · rintro ⟨hstart, hlt⟩
    exact samePartitionAt_trans (samePartitionAt_symm hself) (hend j hstart hlt)

/-- The frame of a row follows the frames of the rows before it in the partition. -/
lemma exists_frameBefore (hd : Admitted d input) (hi : i < input.length) :
    ∃ first past k, partitionStart input i = first ∧ partitionEnd input first = past ∧
      first + k = i ∧ i < past ∧ past ≤ input.length ∧
      Bounded d first past i (frameBefore d input first past k) ∧
      frameOf d input i = nextFrame d input first past (frameBefore d input first past k) i := by
  obtain ⟨hle, -, -⟩ := partitionStart_spec hi
  obtain ⟨-, hlen, -, -⟩ := partitionEnd_spec (hle.trans hi.le)
  have hpast := lt_partitionEnd_of_row hi
  have hsum := Nat.add_sub_of_le hle
  refine ⟨_, _, _, rfl, rfl, hsum, hpast, hlen, ?_, ?_⟩
  · have hb := frame_bounds hd hlen (hsum.trans_le hpast.le)
    rwa [hsum] at hb
  · rw [frameOf, frameBefore, hsum]

/-- **The frame of a row**: the cursors end at its boundaries. -/
theorem mem_frameOf_iff (hd : Admitted d input) (hcontiguous : Contiguous input)
    (hi : i < input.length)
    (ho : Ordered d input (partitionStart input i) (partitionEnd input (partitionStart input i))) :
    ((frameOf d input i).frame_start ≤ j ∧ j < (frameOf d input i).frame_end) ↔
      samePartitionAt input i j = true ∧ Starts d input i j ∧ Lasts d input i j := by
  -- the partition is a segment, and the cursors of its rows are those of `frameBefore`
  rw [samePartitionAt_iff_between hcontiguous hi]
  obtain ⟨first, past, k, hfirst, hend, hsum, hpast, hlen, hb, hframe⟩ := exists_frameBefore hd hi
  rw [hfirst, hend] at ho ⊢
  have hs := swept_frameBefore hd hlen ho (k := k) (by omega)
  rw [hsum] at hs
  rw [hframe, nextFrame]
  constructor
  · rintro ⟨hstart, hlt⟩
    have hj := hb.first_le_start.trans (hb.start_le_nextStart.trans hstart)
    have hjlt := hlt.trans_le (hb.nextEnd_le hpast)
    exact ⟨⟨hj, hjlt⟩, (hs.nextStart_le_iff hb ho hpast hj hjlt).1 hstart,
      (hs.lt_nextEnd_iff hb ho hpast hstart hjlt).1 hlt⟩
  · rintro ⟨⟨hj, hjlt⟩, hstarts, hlasts⟩
    have hstart := (hs.nextStart_le_iff hb ho hpast hj hjlt).2 hstarts
    exact ⟨hstart, (hs.lt_nextEnd_iff hb ho hpast hstart hjlt).2 hlasts⟩

end Partition

/-! ## The order of the input -/

section Order

/-- The comparisons by the PARTITION BY columns. -/
def partitionColumns (p q : ℕ) (V A : Type) [Ord V] : List (Row p q V A → Row p q V A → ℤ) :=
  (List.finRange p).map fun c x y => compareAt (x.partition_by c) (y.partition_by c) 1

variable (d) in
/-- The comparisons by the ORDER BY columns, in their directions. -/
def orderColumns (p : ℕ) (V A : Type) [Ord V] : List (Row p q V A → Row p q V A → ℤ) :=
  (List.finRange q).map fun c x y => (d.order_by c).direction *
    compareAt (x.order_by c) (y.order_by c) (d.order_by c).nulls_direction

variable (d input) in
/-- The input is sorted by the PARTITION BY and then by the ORDER BY columns. -/
def Sorted : Prop :=
  input.Pairwise fun x y => lex (partitionColumns p q V A ++ orderColumns d p V A) x y ≤ 0

lemma sameOrder_iff (x y : Row p q V A) :
    sameOrder x y = true ↔ lex (orderColumns d p V A) x y = 0 := by
  rw [sameOrder, decide_eq_true_eq, lex_eq_zero_iff, orderColumns, forall_mem_map]
  refine forall_congr' fun c => ?_
  have hdirection : (d.order_by c).direction ≠ 0 := by
    rcases (d.order_by c).direction_sign with h | h <;> omega
  rw [mul_eq_zero_iff_left hdirection, compareAt_eq_zero_iff (d.order_by c).nulls_direction_sign]
  simp

variable [Std.TransOrd V]

lemma samePartition_iff (x y : Row p q V A) :
    samePartition x y = true ↔ lex (partitionColumns p q V A) x y = 0 := by
  rw [samePartition, decide_eq_true_eq, lex_eq_zero_iff, partitionColumns, forall_mem_map]
  refine forall_congr' fun c => ?_
  rw [compareAt_swap, neg_eq_zero]
  simp

lemma isComparison_partitionColumns : IsComparison (lex (partitionColumns p q V A)) :=
  isComparison_lex (forall_mem_map.2 fun _ _ =>
    (isComparison_compareAt (.inl rfl)).comap _)

lemma isComparison_orderColumns : IsComparison (lex (orderColumns d p V A)) :=
  isComparison_lex (forall_mem_map.2 fun c _ =>
    ((isComparison_compareAt (d.order_by c).nulls_direction_sign).comap _).mul
      (d.order_by c).direction_sign)

namespace Sorted

variable (hsorted : Sorted d input)
include hsorted

lemma le (hij : i ≤ j) (hj : j < input.length) :
    lex (partitionColumns p q V A ++ orderColumns d p V A) (input.get ⟨i, hij.trans_lt hj⟩)
      (input.get ⟨j, hj⟩) ≤ 0 := by
  rcases hij.lt_or_eq with hlt | rfl
  · exact pairwise_iff_get.1 hsorted ⟨i, hij.trans_lt hj⟩ ⟨j, hj⟩ hlt
  · have hpartition := isComparison_partitionColumns.self (input.get ⟨i, hj⟩)
    have horder := (isComparison_orderColumns (d := d)).self (input.get ⟨i, hj⟩)
    rw [lex_append, if_pos hpartition, horder]

lemma contiguous : Contiguous input := by
  intro i j k hij hjk h
  obtain ⟨hi, hk, h⟩ := samePartitionAt_iff.1 h
  refine samePartitionAt_iff.2 ⟨hi, hjk.trans_lt hk, ?_⟩
  rw [samePartition_iff] at h ⊢
  exact isComparison_partitionColumns.eq_of_between
    (lex_le_of_append_le (hsorted.le hij (hjk.trans_lt hk)))
    (lex_le_of_append_le (hsorted.le hjk hk)) h

/-- Within a partition the ORDER BY columns decide. -/
lemma order_le (hij : i ≤ j) (hsame : samePartitionAt input i j = true) :
    ∃ (hi : i < input.length) (hj : j < input.length),
      lex (orderColumns d p V A) (input.get ⟨i, hi⟩) (input.get ⟨j, hj⟩) ≤ 0 := by
  obtain ⟨hi, hj, hsame⟩ := samePartitionAt_iff.1 hsame
  refine ⟨hi, hj, ?_⟩
  have hle := hsorted.le hij hj
  rwa [lex_append, if_pos ((samePartition_iff _ _).1 hsame)] at hle

end Sorted

end Order

/-! ## Peers -/

section Peers

lemma arePeersAt_range_iff (hrange : d.frame.type = .RANGE) :
    arePeersAt d input i j = true ↔
      i = j ∨ q = 0 ∨ bothAt input sameOrder i j = true := by
  rw [arePeersAt, peers, hrange]
  by_cases heq : i = j
  · simp [heq]
  · by_cases hq : q = 0 <;> simp [heq, hq]

lemma arePeersAt_rows_iff (hrows : d.frame.type = .ROWS) :
    arePeersAt d input i j = true ↔ i = j := by
  constructor
  · intro h
    by_contra hne
    rw [arePeersAt_rows hrows hne] at h
    cases h
  · rintro rfl
    exact arePeersAt_self

lemma bothAt_sameOrder_iff : bothAt input sameOrder i j = true ↔
    ∃ (hi : i < input.length) (hj : j < input.length),
      lex (orderColumns d p V A) (input.get ⟨i, hi⟩) (input.get ⟨j, hj⟩) = 0 := by
  rw [bothAt_eq_true_iff]
  exact exists_congr fun hi => exists_congr fun hj => sameOrder_iff _ _

variable [Std.TransOrd V]

lemma arePeersAt_symm (h : arePeersAt d input i j = true) : arePeersAt d input j i = true := by
  cases htype : d.frame.type with
  | ROWS =>
    rw [arePeersAt_rows_iff htype] at h ⊢
    exact h.symm
  | RANGE =>
    rw [arePeersAt_range_iff htype, bothAt_sameOrder_iff (d := d)] at h ⊢
    refine h.imp Eq.symm (.imp id ?_)
    rintro ⟨hi, hj, h⟩
    exact ⟨hj, hi, isComparison_orderColumns.eq_symm h⟩

lemma arePeersAt_trans {k : ℕ} (hij : arePeersAt d input i j = true)
    (hjk : arePeersAt d input j k = true) : arePeersAt d input i k = true := by
  cases htype : d.frame.type with
  | ROWS =>
    rw [arePeersAt_rows_iff htype] at *
    exact hij.trans hjk
  | RANGE =>
    rw [arePeersAt_range_iff htype, bothAt_sameOrder_iff (d := d)] at *
    rcases hij with rfl | hq | ⟨hi, hj, hij⟩
    · exact hjk
    · exact .inr (.inl hq)
    · rcases hjk with rfl | hq | ⟨_, hk, hjk⟩
      · exact .inr (.inr ⟨hi, hj, hij⟩)
      · exact .inr (.inl hq)
      · exact .inr (.inr ⟨hi, hk, isComparison_orderColumns.eq_trans hij hjk⟩)

/-- Sorted rows between two peers are peers. -/
lemma Sorted.arePeersAt_between (hsorted : Sorted d input) {k : ℕ} (hij : i ≤ j) (hjk : j ≤ k)
    (hsame : samePartitionAt input i k = true) (h : arePeersAt d input i k = true) :
    arePeersAt d input i j = true := by
  have hsame' := hsorted.contiguous i j k hij hjk hsame
  obtain ⟨hi, hj, hle⟩ := hsorted.order_le hij hsame'
  obtain ⟨_, hk, hle'⟩ := hsorted.order_le hjk
    (samePartitionAt_trans (samePartitionAt_symm hsame') hsame)
  cases htype : d.frame.type with
  | ROWS =>
    rw [arePeersAt_rows_iff htype] at h ⊢
    omega
  | RANGE =>
    rw [arePeersAt_range_iff htype, bothAt_sameOrder_iff (d := d)] at h ⊢
    rcases h with heq | hq | ⟨_, _, h⟩
    · exact .inl (by omega)
    · exact .inr (.inl hq)
    · exact .inr (.inr ⟨hi, hj, isComparison_orderColumns.eq_of_between hle hle' h⟩)

/-- A sorted partition has the order that the cursors need, if the search of a RANGE frame
agrees with it. -/
lemma Sorted.ordered (hsorted : Sorted d input) (hlen : past ≤ input.length)
    (hsame : ∀ i j, first ≤ i → i < past → first ≤ j → j < past → samePartitionAt input i j = true)
    (hoffset : d.frame.rangeOffset = true → ∀ offset preceding (c c' x x' : Fin input.length),
      first ≤ c.1 → c ≤ c' → c' < past → first ≤ x.1 → x ≤ x' → x' < past →
      (0 ≤ compareWithOffset d offset preceding (input.get c') (input.get x) →
        0 ≤ compareWithOffset d offset preceding (input.get c) (input.get x')) ∧
      (0 < compareWithOffset d offset preceding (input.get c') (input.get x) →
        0 < compareWithOffset d offset preceding (input.get c) (input.get x'))) :
    Ordered d input first past where
  peers_symm := arePeersAt_symm
  peers_trans := arePeersAt_trans
  peers_between hi hij hjk hk h := hsorted.arePeersAt_between hij hjk
    (hsame _ _ hi (by omega) (by omega) hk) h
  -- a later boundary and an earlier row: the comparison only gets less
  start_mono htype hbegin i i' j j' hi hii' hi' hj hjj' hj' h := by
    rw [bothAt_eq (by omega) (by omega), startsFrame, decide_eq_true_eq] at h ⊢
    exact (hoffset (by rw [WindowFrame.rangeOffset]; exact decide_eq_true ⟨htype, .inl hbegin⟩) _ _
      ⟨i, by omega⟩ ⟨i', by omega⟩ ⟨j, by omega⟩ ⟨j', by omega⟩ hi hii' hi' hj hjj' hj').1 h
  end_mono htype hend i i' j j' hi hii' hi' hj hjj' hj' h := by
    rw [bothAt_eq (by omega) (by omega), endsFrame, decide_eq_true_eq] at h ⊢
    exact (hoffset (by rw [WindowFrame.rangeOffset]; exact decide_eq_true ⟨htype, .inr hend⟩) _ _
      ⟨i, by omega⟩ ⟨i', by omega⟩ ⟨j, by omega⟩ ⟨j', by omega⟩ hi hii' hi' hj hjj' hj').2 h

end Peers

/-! ## Offsets of a RANGE frame -/

section Offsets

section Values

variable [Std.TransOrd V] {type : OrderType V} {offset : ℕ} {preceding : Bool}

omit [Std.TransOrd V] in
lemma compare_swap [Std.OrientedOrd V] (a b : V) : compare b a = (compare a b).swap :=
  Std.OrientedCmp.eq_swap

lemma sign_compare_mono {a a' b : V} (h : (compare a a').isLE = true) :
    sign (compare a b) ≤ sign (compare a' b) := by
  have hle : (compare a' b).isLE = true → (compare a b).isLE = true := Std.TransCmp.isLE_trans h
  have hge : (compare b a).isLE = true → (compare b a').isLE = true :=
    fun hba => Std.TransCmp.isLE_trans hba h
  rw [compare_swap a b, compare_swap a' b] at hge
  cases hab : compare a b <;> cases hab' : compare a' b <;> rw [hab, hab'] at hle hge <;>
    revert hle hge <;> decide

lemma sign_compare_anti {a b b' : V} (h : (compare b b').isLE = true) :
    sign (compare a b') ≤ sign (compare a b) := by
  rw [compare_swap b a, compare_swap b' a, sign_swap, sign_swap]
  exact neg_le_neg (sign_compare_mono h)

namespace OrderType

variable {x x' c c' : Value V}

/-- A greater value is further on. -/
lemma compareWithOffset_mono (hx : type.Has x) (hx' : type.Has x') (hc : type.Has c)
    (hle : compareAt x x' 1 ≤ 0) :
    type.compareWithOffset x c offset preceding ≤ type.compareWithOffset x' c offset preceding := by
  cases type with
  | integer type =>
    obtain ⟨z, rfl, -⟩ := hx.eq_int
    obtain ⟨z', rfl, -⟩ := hx'.eq_int
    obtain ⟨n, rfl, -⟩ := hc.eq_int
    rw [compareAt, sign_nonpos, Int.isLE_compare] at hle
    simp only [OrderType.compareWithOffset, compareValuesWithOffset]
    split_ifs <;> omega
  | float digits arithmetic =>
    obtain ⟨v, rfl⟩ := hx.eq_other
    obtain ⟨v', rfl⟩ := hx'.eq_other
    obtain ⟨w, rfl⟩ := hc.eq_other
    exact sign_compare_mono (sign_nonpos.1 hle)

/-- Moving a boundary by an offset keeps the order of the values. -/
lemma compareWithOffset_anti (htype : type.Lawful) (hx : type.Has x) (hc : type.Has c)
    (hc' : type.Has c') (hle : compareAt c c' 1 ≤ 0) :
    type.compareWithOffset x c' offset preceding ≤ type.compareWithOffset x c offset preceding := by
  cases type with
  | integer type =>
    obtain ⟨z, rfl, hx⟩ := hx.eq_int
    obtain ⟨n, rfl, hc⟩ := hc.eq_int
    obtain ⟨n', rfl, hc'⟩ := hc'.eq_int
    rw [compareAt, sign_nonpos, Int.isLE_compare] at hle
    simp only [OrderType.compareWithOffset, compareValuesWithOffset]
    -- a boundary that leaves the type is beyond every value of it
    cases preceding <;> simp only [Bool.false_eq_true, if_true, if_false] <;> split_ifs <;> omega
  | float digits arithmetic =>
    obtain ⟨v, rfl⟩ := hx.eq_other
    obtain ⟨w, rfl⟩ := hc.eq_other
    obtain ⟨w', rfl⟩ := hc'.eq_other
    -- the arithmetic is monotone
    refine sign_compare_anti ?_
    cases preceding with
    | true => exact htype.sub_mono offset (sign_nonpos.1 hle)
    | false => exact htype.add_mono offset (sign_nonpos.1 hle)

omit [Std.TransOrd V] in
/-- Between values the place of the NULLs does not matter. -/
lemma compareAt_eq (hx : type.Has x) (hc : type.Has c) (hint : ℤ) :
    compareAt x c hint = compareAt x c 1 := by
  cases type with
  | integer type =>
    obtain ⟨z, rfl, -⟩ := hx.eq_int
    obtain ⟨n, rfl, -⟩ := hc.eq_int
    rfl
  | float digits arithmetic =>
    obtain ⟨v, rfl⟩ := hx.eq_other
    obtain ⟨w, rfl⟩ := hc.eq_other
    rfl

end OrderType

end Values

variable {x c : Row p q V A} {offset : ℕ} {preceding : Bool}

variable (d) in
/-- `nulls_direction` of the only ORDER BY column. -/
def nullsDirection : ℤ := (front d.order_by).elim 1 (·.nulls_direction)

lemma lex_order_of_one (hq : q = 1) :
    lex (orderColumns d p V A) c x = direction d *
      compareAt ((front c.order_by).getD .null) ((front x.order_by).getD .null)
        (nullsDirection d) := by
  subst hq
  have hlex : lex (orderColumns d p V A) c x =
      if (d.order_by 0).direction *
        compareAt (c.order_by 0) (x.order_by 0) (d.order_by 0).nulls_direction = 0 then 0
      else (d.order_by 0).direction *
        compareAt (c.order_by 0) (x.order_by 0) (d.order_by 0).nulls_direction := rfl
  have hdirection : direction d = (d.order_by 0).direction := rfl
  have hnulls : nullsDirection d = (d.order_by 0).nulls_direction := rfl
  rw [hlex, hdirection, hnulls]
  split
  · rename_i hzero
    exact hzero.symm
  · rfl

section Monotone

variable [Std.TransOrd V] {x' c' : Row p q V A}

/-- With one column the order of the rows is that of its values. -/
lemma order_le_cases (hq : q = 1) (hx : HasValue d x) (hc : HasValue d c)
    (hle : lex (orderColumns d p V A) c x ≤ 0) :
    direction d = 1 ∧ compareAt (orderKey c) (orderKey x) 1 ≤ 0 ∨
      direction d = -1 ∧ compareAt (orderKey x) (orderKey c) 1 ≤ 0 := by
  have hkey : lex (orderColumns d p V A) c x =
      direction d * compareAt (orderKey c) (orderKey x) (nullsDirection d) := lex_order_of_one hq
  rw [hkey, OrderType.compareAt_eq hc hx] at hle
  rcases direction_sign d with h | h <;> rw [h] at hle
  · exact .inl ⟨h, by omega⟩
  · rw [compareAt_swap (orderKey c)]
    exact .inr ⟨h, by omega⟩

/-- A later row is further on. -/
lemma compareWithOffset_mono (hq : q = 1) (hx : HasValue d x) (hx' : HasValue d x')
    (hc : HasValue d c) (hle : lex (orderColumns d p V A) x x' ≤ 0) :
    compareWithOffset d offset preceding c x ≤ compareWithOffset d offset preceding c x' := by
  rw [compareWithOffset_eq hx hc, compareWithOffset_eq hx' hc]
  rcases order_le_cases hq hx' hx hle with ⟨h, hle⟩ | ⟨h, hle⟩ <;> rw [h]
  · rw [mul_one, mul_one]
    exact OrderType.compareWithOffset_mono hx hx' hc hle
  · rw [mul_neg_one, mul_neg_one]
    exact neg_le_neg (OrderType.compareWithOffset_mono hx' hx hc hle)

/-- The frame of a later row starts and ends later. -/
lemma compareWithOffset_anti (hd : d.Accepted) (hq : q = 1) (hx : HasValue d x)
    (hc : HasValue d c) (hc' : HasValue d c') (hle : lex (orderColumns d p V A) c c' ≤ 0) :
    compareWithOffset d offset preceding c' x ≤ compareWithOffset d offset preceding c x := by
  rw [compareWithOffset_eq hx hc, compareWithOffset_eq hx hc']
  rcases order_le_cases hq hc' hc hle with ⟨h, hle⟩ | ⟨h, hle⟩ <;> rw [h]
  · rw [mul_one, mul_one]
    exact OrderType.compareWithOffset_anti hd.arithmetic hx hc hc' hle
  · rw [mul_neg_one, mul_neg_one]
    exact neg_le_neg (OrderType.compareWithOffset_anti hd.arithmetic hx hc' hc hle)

end Monotone

end Offsets

/-! ## The definition of a frame -/

variable (d) in
/-- How far the value of a row lies after a boundary of the frame of the row `current`, in
the order of the window. Between integers it is a distance; of a floating-point boundary,
which is rounded as every result of the type, only the side is of interest. A NULL or a NaN
is on neither side of anything. -/
def fromBoundary (offset : ℕ) (preceding : Bool) (current x : Row p q V A) : Option ℤ :=
  match d.order_type, orderKey current, orderKey x with
  | .integer _, .int c, .int z =>
    some (WindowTransform.direction d * (z - c) - signedOffset offset preceding)
  | .float _ arithmetic, .other c, .other v =>
    let boundary := if 0 ≤ WindowTransform.direction d * signedOffset 1 preceding then
      arithmetic.add c offset else arithmetic.sub c offset
    some (WindowTransform.direction d * sign (compare v boundary))
  | _, _, _ => none

variable (d input) in
/-- Row `j` is at or after the start of the frame of row `i`. -/
def atOrAfterStart (i j : ℕ) : Bool :=
  match d.frame.begin_type, d.frame.type with
  | .Unbounded, _ => true
  | .Current, .ROWS => decide (i ≤ j)
  | .Current, .RANGE => decide (i ≤ j) || bothAt input WindowTransform.sameOrder i j
  | .Offset, .ROWS =>
    decide (i + signedOffset d.frame.begin_offset d.frame.begin_preceding ≤ j)
  | .Offset, .RANGE => bothAt input (fun current x =>
      (fromBoundary d d.frame.begin_offset d.frame.begin_preceding current x).any (0 ≤ ·)) i j

variable (d input) in
/-- Row `j` is at or before the end of the frame of row `i`. -/
def atOrBeforeEnd (i j : ℕ) : Bool :=
  match d.frame.end_type, d.frame.type with
  | .Unbounded, _ => true
  | .Current, .ROWS => decide (j ≤ i)
  | .Current, .RANGE => decide (j ≤ i) || bothAt input WindowTransform.sameOrder i j
  | .Offset, .ROWS =>
    decide (j ≤ i + signedOffset d.frame.end_offset d.frame.end_preceding)
  | .Offset, .RANGE => bothAt input (fun current x =>
      (fromBoundary d d.frame.end_offset d.frame.end_preceding current x).any (· ≤ 0)) i j

variable (d input) in
/-- Row `j` is in the frame of row `i`. -/
def inFrame (i j : ℕ) : Bool :=
  samePartitionAt input i j && (atOrAfterStart d input i j && atOrBeforeEnd d input i j)

variable (d input) in
/-- The rows in the frame of row `i`, in their order. -/
def rowsInFrame (i : ℕ) : List (Row p q V A) :=
  ((List.range input.length).filter (inFrame d input i)).filterMap (input[·]?)

section Boundary

variable {x c : Row p q V A}

/-- The comparison of the search tells the side of the boundary. An offset that leaves an
integer type is beyond every value on its side. -/
lemma exists_fromBoundary (offset : ℕ) (preceding : Bool) (hx : HasValue d x)
    (hc : HasValue d c) :
    ∃ z, fromBoundary d offset preceding c x = some z ∧
      (0 ≤ compareWithOffset d offset preceding c x ↔ 0 ≤ z) ∧
      (0 < compareWithOffset d offset preceding c x ↔ 0 < z) := by
  rw [compareWithOffset_eq hx hc, fromBoundary]
  rw [HasValue] at hx hc
  generalize orderKey x = x at hx
  generalize orderKey c = c at hc
  cases htype : d.order_type with
  | integer type =>
    rw [htype] at hx hc
    obtain ⟨z, rfl, hx⟩ := hx.eq_int
    obtain ⟨n, rfl, hc⟩ := hc.eq_int
    refine ⟨_, rfl, ?_⟩
    simp only [OrderType.compareWithOffset, compareValuesWithOffset, signedOffset]
    rcases direction_sign d with h | h <;> cases preceding <;> rw [h] <;>
      split_ifs <;> simp at * <;> omega
  | float digits arithmetic =>
    rw [htype] at hx hc
    obtain ⟨v, rfl⟩ := hx.eq_other
    obtain ⟨w, rfl⟩ := hc.eq_other
    refine ⟨_, rfl, ?_⟩
    simp only [OrderType.compareWithOffset, compareValuesWithOffsetFloat, signedOffset]
    rcases direction_sign d with h | h <;> cases preceding <;> rw [h] <;> simp

end Boundary

section Definition

variable (hvalues : d.frame.rangeOffset = true → ∀ row ∈ input, HasValue d row)

lemma peer_or_iff {b : Prop} (hb : i = j → b) (hi : i < input.length) (hj : j < input.length) :
    b ∨ arePeersAt d input i j = true ↔
      b ∨ d.frame.type = .RANGE ∧ bothAt input sameOrder i j = true := by
  cases htype : d.frame.type with
  | ROWS =>
    rw [arePeersAt_rows_iff htype]
    simp only [reduceCtorEq, false_and, or_false]
    exact ⟨fun h => h.elim id hb, .inl⟩
  | RANGE =>
    rw [arePeersAt_range_iff htype]
    simp only [true_and]
    constructor
    · rintro (h | h | h | h)
      · exact .inl h
      · exact .inl (hb h)
      · -- without ORDER BY all rows are peers
        subst h
        refine .inr ?_
        rw [bothAt_eq hi hj]
        exact decide_eq_true fun c => c.elim0
      · exact .inr h
    · exact .imp id fun h => .inr (.inr h)

include hvalues

/-- The test of a row as the start of a frame says what the frame asks for. -/
lemma starts_iff (hi : i < input.length) (hj : j < input.length) :
    Starts d input i j ↔ atOrAfterStart d input i j = true := by
  have hpeer := peer_or_iff (d := d) (b := i ≤ j) Eq.le hi hj
  rw [Starts, atOrAfterStart]
  cases hbegin : d.frame.begin_type with
  | Unbounded => exact iff_of_true trivial rfl
  | Current =>
    rw [hpeer]
    cases htype : d.frame.type <;> simp
  | Offset =>
    cases htype : d.frame.type with
    | ROWS => exact decide_eq_true_iff.symm
    | RANGE =>
      -- the search compares values, of which `exists_fromBoundary` tells the side
      have hvalues := hvalues (decide_eq_true ⟨htype, .inl hbegin⟩)
      obtain ⟨z, hz, hnonneg, -⟩ := exists_fromBoundary d.frame.begin_offset
        d.frame.begin_preceding (hvalues _ (get_mem input ⟨j, hj⟩))
        (hvalues _ (get_mem input ⟨i, hi⟩))
      dsimp only
      rw [bothAt_eq hi hj, bothAt_eq hi hj, startsFrame, decide_eq_true_eq, hnonneg, hz,
        Option.any_some, decide_eq_true_eq]

/-- The test of a row as the last one of a frame says what the frame asks for. -/
lemma lasts_iff (hi : i < input.length) (hj : j < input.length) :
    Lasts d input i j ↔ atOrBeforeEnd d input i j = true := by
  have hpeer := peer_or_iff (d := d) (b := j ≤ i) Eq.ge hi hj
  rw [Lasts, atOrBeforeEnd]
  cases hend : d.frame.end_type with
  | Unbounded => exact iff_of_true trivial rfl
  | Current =>
    rw [hpeer]
    cases htype : d.frame.type <;> simp
  | Offset =>
    cases htype : d.frame.type with
    | ROWS => exact decide_eq_true_iff.symm
    | RANGE =>
      have hvalues := hvalues (decide_eq_true ⟨htype, .inr hend⟩)
      dsimp only
      obtain ⟨z, hz, -, hpos⟩ := exists_fromBoundary d.frame.end_offset
        d.frame.end_preceding (hvalues _ (get_mem input ⟨j, hj⟩))
        (hvalues _ (get_mem input ⟨i, hi⟩))
      rw [bothAt_eq hi hj, bothAt_eq hi hj, endsFrame, decide_eq_false_iff_not, hpos, hz,
        Option.any_some, decide_eq_true_eq, not_lt]

variable [Std.TransOrd V]

variable (hd : d.Accepted) (hsorted : Sorted d input)

section

include hd in
omit [Std.TransOrd V] in
lemma admitted_of_values : Admitted d input :=
  ⟨hd, fun hrange row hrow => .inr (hvalues hrange row hrow)⟩

include hd hsorted

lemma ordered_of_values (hlen : past ≤ input.length)
    (hsame : ∀ i j, first ≤ i → i < past → first ≤ j → j < past →
      samePartitionAt input i j = true) : Ordered d input first past := by
  refine hsorted.ordered hlen hsame
    fun hrange offset preceding c c' x x' hc hcc' hc' hx hxx' hx' => ?_
  have hvalue : ∀ n, HasValue d (input.get n) := fun n => hvalues hrange _ (get_mem _ n)
  have hq := hd.one_column hrange
  have hcle : lex (orderColumns d p V A) (input.get c) (input.get c') ≤ 0 :=
    (hsorted.order_le hcc' (hsame c c' hc (by omega) (by omega) hc')).choose_spec.choose_spec
  have hxle : lex (orderColumns d p V A) (input.get x) (input.get x') ≤ 0 :=
    (hsorted.order_le hxx' (hsame x x' hx (by omega) (by omega) hx')).choose_spec.choose_spec
  have hle : compareWithOffset d offset preceding (input.get c') (input.get x) ≤
      compareWithOffset d offset preceding (input.get c) (input.get x') :=
    (compareWithOffset_mono hq (hvalue x) (hvalue x') (hvalue c') hxle).trans
      (compareWithOffset_anti hd hq (hvalue x') (hvalue c) (hvalue c') hcle)
  exact ⟨fun h => h.trans hle, fun h => h.trans_le hle⟩

/-- **The cursors find the rows of the definition.** -/
theorem mem_frameOf_iff_inFrame (hi : i < input.length) (hj : j < input.length) :
    inFrame d input i j = true ↔
      (frameOf d input i).frame_start ≤ j ∧ j < (frameOf d input i).frame_end := by
  obtain ⟨hle, -, -⟩ := partitionStart_spec hi
  obtain ⟨-, hlen, hsame, -⟩ := partitionEnd_spec (hle.trans hi.le)
  have ho :
      Ordered d input (partitionStart input i) (partitionEnd input (partitionStart input i)) :=
    ordered_of_values hvalues hd hsorted hlen fun a b ha ha' hb hb' =>
      samePartitionAt_trans (samePartitionAt_symm (hsame a ha ha')) (hsame b hb hb')
  rw [mem_frameOf_iff (admitted_of_values hvalues hd) hsorted.contiguous hi ho,
    starts_iff hvalues hi hj,
    lasts_iff hvalues hi hj, inFrame, Bool.and_eq_true, Bool.and_eq_true]

lemma frameRows_eq (hi : i < input.length) :
    frameRows input (frameOf d input i) = rowsInFrame d input i := by
  have hadmitted := admitted_of_values hvalues hd
  obtain ⟨first, past, k, -, -, -, hpast, hlen, hb, hframe⟩ := exists_frameBefore hadmitted hi
  have hb := hb.next hpast hadmitted hlen
  rw [← hframe] at hb
  exact slice_eq_filterMap input hb.start_le_end (hb.end_le.trans hlen) _ fun j hj =>
    mem_frameOf_iff_inFrame hvalues hd hsorted hi hj

end

end Definition

/-! ## The transform -/

section Run

variable {chunks : List (List (Row p q V A))} {f : AggregateFunction A S R}

lemma map_rows_blockOf (current : ℕ) :
    ((range chunks.length).map (blockOf d f chunks current)).map (·.rows) = chunks := by
  rw [map_map]
  apply ext_getElem
  · rw [length_map, length_range]
  · intro b hb _
    rw [getElem_map, getElem_range]
    simp only [Function.comp, blockOf]
    rw [getElem?_eq_getElem, Option.getD_some]

omit [Ord V] in
lemma blockStart_le_length {b : ℕ} (hb : b < chunks.length) :
    blockStart chunks (b + 1) ≤ chunks.flatten.length :=
  (blockStart_mono hb).trans_eq blockStart_length

lemma length_resultsIn {b : ℕ} (hb : b < chunks.length) :
    (resultsIn d f chunks chunks.flatten.length b).length = (chunks[b]?.getD []).length := by
  rw [resultsIn, length_map, length_range', min_eq_right (blockStart_le_length hb),
    blockStart_succ, blockSize, Nat.add_sub_cancel_left]

lemma flatten_results :
    (((range chunks.length).map (blockOf d f chunks chunks.flatten.length)).map
      (·.output_columns)).flatten =
      (range chunks.flatten.length).map (resultOf d chunks.flatten f) := by
  rw [← flatten_range_blocks, map_flatten, map_map, map_map]
  congr 1
  refine map_congr_left fun b hb => ?_
  simp only [Function.comp, blockOf, resultsIn]
  rw [min_eq_right (blockStart_le_length (mem_range.1 hb))]

variable [Std.TransOrd V]

/-- **Window frames follow the SQL definition**, for every cut of the sorted input into
chunks: every row gets one result, the result of its aggregate over the rows in its
frame. -/
theorem run_aggregates_rowsInFrame (hd : d.Accepted) (hne : ∀ chunk ∈ chunks, chunk ≠ [])
    (hsorted : Sorted d chunks.flatten)
    (hvalues : d.frame.rangeOffset = true → ∀ row ∈ chunks.flatten, HasValue d row) :
    ∃ blocks, run d f chunks = some blocks ∧ blocks.map (·.rows) = chunks ∧
      (∀ block ∈ blocks, block.output_columns.length = block.rows.length) ∧
      (blocks.map (·.output_columns)).flatten =
        (List.range chunks.flatten.length).map fun i =>
          f.insertResult (aggregate f (rowsInFrame d chunks.flatten i)) := by
  refine ⟨_, run_eq (admitted_of_values hvalues hd) hne, map_rows_blockOf _, ?_, ?_⟩
  · intro block hblock
    obtain ⟨b, hb, rfl⟩ := mem_map.1 hblock
    exact length_resultsIn (mem_range.1 hb)
  · rw [flatten_results]
    refine map_congr_left fun i hi => ?_
    rw [resultOf, frameRows_eq hvalues hd hsorted (mem_range.1 hi)]

/-- `RANGE BETWEEN 1 PRECEDING AND 1 FOLLOWING`, ascending. -/
def oneAround (order_type : OrderType ℤ) : WindowDescription 1 ℤ where
  order_by _ := {}
  order_type := order_type
  frame := ⟨.RANGE, .Offset, 1, true, .Offset, 1, false⟩

/-- One partition with the values 1, 2 and 4, in two chunks. -/
def twoChunks : List (List (Row 1 1 ℤ ℕ)) :=
  [[⟨fun _ => .other 7, fun _ => .int 1, 10⟩, ⟨fun _ => .other 7, fun _ => .int 2, 20⟩],
    [⟨fun _ => .other 7, fun _ => .int 4, 30⟩]]

theorem run_aggregates_rowsInFrame_at_two_chunks :
    ∃ blocks, run (oneAround (.integer .UInt8)) ⟨0, (· + ·), id⟩ twoChunks = some blocks ∧
      (blocks.map (·.output_columns)).flatten = [30, 30, 30] := by
  have hvalues : ∀ row ∈ twoChunks.flatten, HasValue (oneAround (.integer .UInt8)) row := by
    simp [twoChunks, HasValue, orderKey, front, OrderType.Has, oneAround, IntType.min, IntType.max]
  obtain ⟨blocks, hrun, -, -, hresults⟩ := run_aggregates_rowsInFrame
    (⟨by decide, by decide, by decide, by decide, by decide, trivial⟩ :
      (oneAround (.integer .UInt8)).Accepted)
    (by decide) (by rw [Sorted]; decide) fun _ => hvalues
  exact ⟨blocks, hrun, hresults.trans (by decide)⟩

/-- Floating-point numbers that are small whole numbers: nothing is rounded. -/
def wholeNumbers : FloatArithmetic ℤ := ⟨fun v n => v - n, fun v n => v + n⟩

lemma lawful_wholeNumbers : wholeNumbers.Lawful where
  ge_sub v n := by
    rw [Int.isGE_compare]
    exact Int.sub_le_self v (Int.natCast_nonneg n)
  le_add v n := by
    rw [Int.isLE_compare]
    exact Int.le_add_of_nonneg_right (Int.natCast_nonneg n)
  sub_mono n h := by
    rw [Int.isLE_compare] at h ⊢
    exact Int.sub_le_sub_right h n
  add_mono n h := by
    rw [Int.isLE_compare] at h ⊢
    exact Int.add_le_add_right h n

/-- One partition of a `Float64` column with the values 1.0 and NaN. -/
def valueThenNaN : List (List (Row 1 1 ℤ ℕ)) :=
  [[⟨fun _ => .other 7, fun _ => .other 1, 10⟩, ⟨fun _ => .other 7, fun _ => .nan, 20⟩]]

/-- **A NaN gets the frame of the value before it**: every comparison with a NaN is `1`, so
that the start of its frame is found at the value and its end at the NaN itself. -/
theorem run_nan_takes_frame_of_value :
    (oneAround (.float 53 wholeNumbers)).Accepted ∧
      Sorted (oneAround (.float 53 wholeNumbers)) valueThenNaN.flatten ∧
      (∀ row ∈ valueThenNaN.flatten, ¬ IsNull row) ∧
      ((run (oneAround (.float 53 wholeNumbers)) ⟨0, (· + ·), id⟩ valueThenNaN).map fun blocks =>
        (blocks.map (·.output_columns)).flatten) = some [10, 10] ∧
      ((List.range valueThenNaN.flatten.length).map fun i =>
        aggregate ⟨0, (· + ·), id⟩ (rowsInFrame (oneAround (.float 53 wholeNumbers))
          valueThenNaN.flatten i)) = [10, 0] := by
  refine ⟨⟨by decide, by decide, by decide, by decide, by decide, lawful_wholeNumbers⟩,
    by rw [Sorted]; decide, ?_, by decide, by decide⟩
  simp [valueThenNaN, IsNull, orderKey, front]

end Run

end

end ClickHouse.Window
