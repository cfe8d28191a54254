/-
The transform finds the frames of the whole input.

`Inv` says where every cursor stands after some chunks, in terms of the frames over the
whole input: the frame before is that of the last finished row, and a cursor that waits
has passed only rows that it had to pass. Nothing in it depends on how the input was cut
into chunks, so a search that goes on with a new chunk ends where it would have ended
without the cut. Each function of the transform keeps `Inv`; the loops and the run follow
by induction.

The partition is found by comparing with the first row of the frame before, so equality
of the PARTITION BY columns has to be transitive. Nothing else is asked of the order.
-/
import ClickHouse.Processors.WindowCursors

set_option autoImplicit false

namespace ClickHouse.Window

open List WindowTransform Lib Nat
open Bool hiding not_or
open Lib (scanUntil slice pos Valid blockStart blockSize)

section

variable {p q : ℕ} {V A S R : Type} [Ord V]
variable (d : WindowDescription q V) (f : AggregateFunction A S R)
variable (chunks : List (List (Row p q V A)))

/-! ## Where the cursors stand -/

variable (t : WindowTransform p q V A S R)

/-- The end of the partition that the transform is in. -/
def pastOf : ℕ :=
  partitionEnd chunks.flatten (pos chunks t.partition_start)

/-- The cursors before the current row. -/
def before : Frame :=
  frameBefore d chunks.flatten (pos chunks t.partition_start) (pastOf chunks t)
    (pos chunks t.current_row - pos chunks t.partition_start)

/-- The cursors after the current row. -/
def after : Frame :=
  nextFrame d chunks.flatten (pos chunks t.partition_start) (pastOf chunks t) (before d chunks t)
    (pos chunks t.current_row)

structure Inv (k : ℕ) (t : WindowTransform p q V A S R) : Prop where
  queue : Queue d f chunks k (pos chunks t.current_row) t
  valid_partition_start : Valid chunks t.partition_start
  valid_partition_end : Valid chunks t.partition_end
  valid_current_row : Valid chunks t.current_row
  valid_peer_group_start : Valid chunks t.peer_group_start
  valid_frame_start : Valid chunks t.frame_start
  valid_frame_end : Valid chunks t.frame_end
  valid_prev_frame_start : Valid chunks t.prev_frame_start
  valid_prev_frame_end : Valid chunks t.prev_frame_end
  -- the partition
  start_le_current : pos chunks t.partition_start ≤ pos chunks t.current_row
  current_le_end : pos chunks t.current_row ≤ pos chunks t.partition_end
  end_le : pos chunks t.partition_end ≤ blockStart chunks k
  last_block : blockStart chunks (k - 1) ≤ pos chunks t.partition_end
  finished : t.input_is_finished = true →
    k = chunks.length ∧ pos chunks t.partition_end = blockStart chunks k
  starts : partitionStart chunks.flatten (pos chunks t.partition_start) =
    pos chunks t.partition_start
  same_partition : ∀ j, pos chunks t.partition_start ≤ j → j < pos chunks t.partition_end →
    samePartitionAt chunks.flatten (pos chunks t.partition_start) j = true
  ended : t.partition_ended = true → pos chunks t.partition_end = pastOf chunks t
  more : t.partition_ended = true → t.input_is_finished = false →
    pos chunks t.partition_end < blockStart chunks k
  -- the frame before
  prev_frame_start : pos chunks t.prev_frame_start = (before d chunks t).frame_start
  prev_frame_end : pos chunks t.prev_frame_end = (before d chunks t).frame_end
  state : t.aggregate_function_state = aggregate f (frameRows chunks.flatten (before d chunks t))
  reference : t.partition_ended = false →
    pos chunks t.prev_frame_start < pos chunks t.partition_end ∨
      pos chunks t.partition_start = pos chunks t.partition_end
  -- the searches
  peer : d.frame.begin_type = .Current →
    pos chunks t.peer_group_start = (before d chunks t).peer_group_start ∨
      pos chunks t.current_row < pos chunks t.partition_end ∧
        pos chunks t.peer_group_start = (after d chunks t).peer_group_start
  frame_ended : t.frame_ended = false
  started : t.frame_started = true →
    pos chunks t.current_row < pos chunks t.partition_end ∧
      pos chunks t.frame_start = (after d chunks t).frame_start ∧
      (t.partition_ended = false → pos chunks t.frame_start < pos chunks t.partition_end)
  start_unbounded : d.frame.begin_type = .Unbounded →
    pos chunks t.frame_start = pos chunks t.partition_start
  start_range : d.frame.type = .RANGE → d.frame.begin_type = .Offset →
    (before d chunks t).frame_start ≤ pos chunks t.frame_start ∧
      pos chunks t.frame_start ≤ pos chunks t.partition_end ∧
      ∀ j, (before d chunks t).frame_start ≤ j → j < pos chunks t.frame_start →
        bothAt chunks.flatten (WindowTransform.startsFrame d) (pos chunks t.current_row) j = false
  search_end : SearchesEnd d →
    (before d chunks t).frame_end ≤ pos chunks t.frame_end ∧
      pos chunks t.frame_end ≤ pos chunks t.partition_end ∧
      ∀ j, (before d chunks t).frame_end ≤ j → (after d chunks t).frame_start ≤ j →
        j < pos chunks t.frame_end →
          endStop d chunks.flatten (pos chunks t.current_row) j = false
  end_last_block : d.frame.end_type = .Current →
    blockStart chunks (k - 1) ≤ pos chunks t.frame_end
  -- the queue and the output
  first_le_prev : t.first_block_number ≤ t.prev_frame_start.block
  first_le_current : t.first_block_number ≤ t.current_row.block
  first_le_output : t.first_block_number ≤ t.next_output_block_number
  output_le : t.next_output_block_number ≤ t.current_row.block
  ready : t.first_not_ready_row = t.current_row
  output : t.output =
    (List.range t.next_output_block_number).map (blockOf d f chunks chunks.flatten.length)

/-- Where `appendChunk` leaves the transform: it waits for the rest of the partition at the
end of the data, or it has finished. -/
structure Rest (k : ℕ) (t : WindowTransform p q V A S R) : Prop where
  inv : Inv d f chunks k t
  waits : t.input_is_finished = false → t.partition_ended = false ∧
    pos chunks t.partition_end = blockStart chunks k ∧
    (d.frame.end_type = .Current → pos chunks t.frame_end = blockStart chunks k)
  done : t.input_is_finished = true → pos chunks t.current_row = blockStart chunks k

/-- What `advanceFrameStart` has to deliver. A start that is not found means that the
partition goes on and that the start lies in what is to come. -/
def StartFound (k : ℕ) (t t' : WindowTransform p q V A S R) : Prop :=
  ∃ x b, t' = { t with frame_start := x, frame_started := b } ∧
    (b = false → t.partition_ended = false ∧
      pos chunks t.partition_end ≤ (after d chunks t).frame_start) ∧ Inv d f chunks k t'

/-- What `advanceFrameEnd` has to deliver. An end that is not found means that the
partition goes on; the search for the end of the peer group then stands at its end. -/
def EndFound (k : ℕ) (t t' : WindowTransform p q V A S R) : Prop :=
  ∃ x b, t' = { t with frame_end := x, frame_ended := b } ∧ Valid chunks x ∧
    pos chunks x ≤ pos chunks t.partition_end ∧
    (b = true → pos chunks x = (after d chunks t).frame_end) ∧
    (b = false → t.partition_ended = false ∧ Inv d f chunks k t' ∧
      (d.frame.end_type = .Current → pos chunks x = pos chunks t.partition_end))

/-- The rows before `e` that a search for the end of the frame has to pass are no end. -/
def Passed (e : ℕ) : Prop :=
  ∀ j, (before d chunks t).frame_end ≤ j → (after d chunks t).frame_start ≤ j → j < e →
    endStop d chunks.flatten (pos chunks t.current_row) j = false

namespace Inv

variable {d f chunks} {k : ℕ} {t : WindowTransform p q V A S R} (h : Inv d f chunks k t)
include h

lemma blockStart_le_length : blockStart chunks k ≤ chunks.flatten.length := by
  rw [← blockStart_length]
  exact blockStart_mono h.queue.le_length

lemma end_le_length : pos chunks t.partition_end ≤ chunks.flatten.length :=
  h.end_le.trans h.blockStart_le_length

lemma past_le_length : pastOf chunks t ≤ chunks.flatten.length :=
  (partitionEnd_spec ((h.start_le_current.trans h.current_le_end).trans h.end_le_length)).2.1

lemma end_le_past : pos chunks t.partition_end ≤ pastOf chunks t :=
  le_partitionEnd (h.start_le_current.trans h.current_le_end) h.end_le_length h.same_partition

variable (hd : Admitted d chunks.flatten)

include hd in
lemma bounded :
    Bounded d (pos chunks t.partition_start) (pastOf chunks t) (pos chunks t.current_row)
      (before d chunks t) := by
  have hk : pos chunks t.partition_start +
      (pos chunks t.current_row - pos chunks t.partition_start) = pos chunks t.current_row :=
    Nat.add_sub_cancel' h.start_le_current
  have hb : Bounded d _ _ _ (before d chunks t) := frame_bounds hd h.past_le_length
    (hk.trans_le (h.current_le_end.trans h.end_le_past))
  rwa [hk] at hb

include hd in
lemma start_mono : (before d chunks t).frame_start ≤ (after d chunks t).frame_start :=
  (h.bounded hd).start_le_nextStart

lemma first_le_end : t.first_block_number ≤ t.partition_end.block :=
  h.first_le_current.trans
    (block_mono h.valid_current_row h.valid_partition_end h.current_le_end)

lemma first_le_prev_pos :
    blockStart chunks t.first_block_number ≤ (before d chunks t).frame_start := by
  rw [← h.prev_frame_start, pos]
  exact (blockStart_mono h.first_le_prev).trans (le_add_right _ _)

variable (hlt : pos chunks t.current_row < pos chunks t.partition_end)

include hlt in
/-- The current row is in the queue. -/
lemma held_current : Held chunks k t t.current_row :=
  ⟨h.valid_current_row, h.first_le_current, hlt.trans_le h.end_le⟩

variable {x : RowNumber}

/-- A cursor that is not before the last frame. -/
lemma held (hx : Valid chunks x) (hle : (before d chunks t).frame_start ≤ pos chunks x)
    (hlt : pos chunks x < pos chunks t.partition_end) : Held chunks k t x :=
  ⟨hx, h.first_le_prev.trans
    (block_mono h.valid_prev_frame_start hx (h.prev_frame_start.trans_le hle)),
    hlt.trans_le h.end_le⟩

/-! ## The peer group -/

omit h in
lemma arePeersAt_after (t : WindowTransform p q V A S R) :
    arePeersAt d chunks.flatten (after d chunks t).peer_group_start (pos chunks t.current_row) =
      true := by
  show arePeersAt d _ (nextPeerGroup d _ _ _) _ = true
  rw [nextPeerGroup]
  split
  · assumption
  · exact arePeersAt_self

include hd hlt in
/-- The peer group of the current row. Only a frame that begins at the current row takes its
start from it, and only there is it shown that the first row of the group is still in the
queue. Elsewhere the comparison decides the numbers of the ranking functions, which are left
out; there it reads a row that is not in the queue as no peer, where the code has an
assertion. -/
lemma updatePeerGroup :
    ∃ x, t.updatePeerGroup d = { t with peer_group_start := x } ∧ Valid chunks x ∧
      (d.frame.begin_type = .Current → pos chunks x = (after d chunks t).peer_group_start) := by
  rw [WindowTransform.updatePeerGroup]
  by_cases hbegin : d.frame.begin_type = .Current
  · have hb := h.bounded hd
    have hmono := h.start_mono hd
    have hstart : (after d chunks t).frame_start = (after d chunks t).peer_group_start :=
      nextStart_current hbegin
    have hle : (after d chunks t).peer_group_start ≤ pos chunks t.current_row := hb.nextPeerGroup_le
    -- the group starts where the frame of a row starts, so that its first row is in the queue
    have hheld : Held chunks k t t.peer_group_start := by
      have := hb.start_current hbegin
      refine h.held h.valid_peer_group_start ?_ ?_ <;>
        rcases h.peer hbegin with hpos | ⟨-, hpos⟩ <;> omega
    rw [h.queue.arePeers_eq hheld (h.held_current hlt)]
    rcases h.peer hbegin with hpos | ⟨-, hpos⟩
    · rw [hpos]
      have hafter : (after d chunks t).peer_group_start = nextPeerGroup d chunks.flatten
        (before d chunks t) (pos chunks t.current_row) := rfl
      rw [hafter, nextPeerGroup]
      split
      · exact ⟨_, rfl, h.valid_peer_group_start, fun _ => hpos⟩
      · exact ⟨_, rfl, h.valid_current_row, fun _ => rfl⟩
    · rw [hpos, arePeersAt_after, if_pos rfl]
      exact ⟨_, rfl, h.valid_peer_group_start, fun _ => hpos⟩
  · -- the frame does not depend on the group
    split
    · exact ⟨_, rfl, h.valid_peer_group_start, fun hc => absurd hc hbegin⟩
    · exact ⟨_, rfl, h.valid_current_row, fun hc => absurd hc hbegin⟩

include hlt in
lemma setPeer (hx : Valid chunks x)
    (hpeer : d.frame.begin_type = .Current → pos chunks x = (after d chunks t).peer_group_start) :
    Inv d f chunks k { t with peer_group_start := x } :=
  { h with
    queue := ⟨h.queue.first_le, h.queue.le_length, h.queue.blocks⟩
    valid_peer_group_start := hx
    peer := fun hbegin => .inr ⟨hlt, hpeer hbegin⟩ }

/-! ## The start of the frame -/

variable {b : Bool}

lemma setStart (hx : Valid chunks x)
    (hstarted : b = true → pos chunks t.current_row < pos chunks t.partition_end ∧
      pos chunks x = (after d chunks t).frame_start ∧
      (t.partition_ended = false → pos chunks x < pos chunks t.partition_end))
    (hunbounded : d.frame.begin_type = .Unbounded → pos chunks x = pos chunks t.partition_start)
    (hrange : d.frame.type = .RANGE → d.frame.begin_type = .Offset →
      (before d chunks t).frame_start ≤ pos chunks x ∧
        pos chunks x ≤ pos chunks t.partition_end ∧
        ∀ j, (before d chunks t).frame_start ≤ j → j < pos chunks x → bothAt chunks.flatten
          (startsFrame d) (pos chunks t.current_row) j = false) :
    Inv d f chunks k { t with frame_start := x, frame_started := b } :=
  { h with
    queue := ⟨h.queue.first_le, h.queue.le_length, h.queue.blocks⟩
    valid_frame_start := hx
    started := hstarted
    start_unbounded := hunbounded
    start_range := hrange }

variable (hne : ∀ chunk ∈ chunks, chunk ≠ [])

include hd hlt hne in
/-- The start at a ROWS offset, which is kept inside the partition. -/
lemma advanceFrameStartRowsOffset (htype : d.frame.type = .ROWS)
    (hbegin : d.frame.begin_type = .Offset) :
    StartFound d f chunks k t (t.advanceFrameStartRowsOffset d) := by
  have hcurrent := h.start_le_current
  have hend := h.end_le
  have hpast := h.end_le_past
  have hfirst := h.first_le_prev_pos
  have hmono := h.start_mono hd
  have hstart : (after d chunks t).frame_start = clamp (pos chunks t.partition_start)
      (pastOf chunks t) (pos chunks t.current_row +
        signedOffset d.frame.begin_offset d.frame.begin_preceding) :=
    nextStart_rows htype hbegin
  have hoffset : rowsOffset d.frame.begin_offset d.frame.begin_preceding 0 =
      signedOffset d.frame.begin_offset d.frame.begin_preceding := by
    rw [rowsOffset_eq (hd.begin_offset hbegin) _ (.inl rfl)]
    exact add_zero _
  obtain ⟨hvalid, hpos, hleft⟩ := h.queue.moveRowNumber_spec hne
    (signedOffset d.frame.begin_offset d.frame.begin_preceding) (h.held_current hlt)
  rw [WindowTransform.advanceFrameStartRowsOffset, hoffset]
  rw [clamp] at hpos hstart
  have hset : ∀ x b, Valid chunks x →
      (b = true → pos chunks x = (after d chunks t).frame_start ∧
        (t.partition_ended = false → pos chunks x < pos chunks t.partition_end)) →
      (b = false → t.partition_ended = false ∧
        pos chunks t.partition_end ≤ (after d chunks t).frame_start) →
      StartFound d f chunks k t { t with frame_start := x, frame_started := b } := by
    intro x b hx hfound hwait
    refine ⟨x, b, rfl, hwait, h.setStart hx (fun hstarted => ⟨hlt, hfound hstarted⟩) ?_ ?_⟩
    · rw [hbegin]
      exact BoundaryType.noConfusion
    · rw [htype]
      exact FrameType.noConfusion
  split
  · rename_i hle
    rw [le_iff_pos_le hvalid h.valid_partition_start] at hle
    exact hset _ _ h.valid_partition_start (fun _ => ⟨by omega, fun _ => by omega⟩) (by simp)
  rename_i hgt
  rw [le_iff_pos_le hvalid h.valid_partition_start] at hgt
  split
  · rename_i hle
    rw [le_iff_pos_le h.valid_partition_end hvalid] at hle
    refine hset _ _ h.valid_partition_end (fun hended => ⟨?_, fun hnot => ?_⟩)
      fun hwait => ⟨hwait, by omega⟩
    · have := h.ended hended
      omega
    · rw [hended] at hnot
      cases hnot
  · rename_i hlt'
    rw [le_iff_pos_le h.valid_partition_end hvalid] at hlt'
    -- the walk back cannot have ended at the first block of the queue
    have hzero : (t.moveRowNumber t.current_row
        (signedOffset d.frame.begin_offset d.frame.begin_preceding)).2 = 0 := by
      omega
    rw [hzero] at hleft ⊢
    refine hset _ _ hvalid (fun _ => ⟨by omega, fun _ => by omega⟩) fun hc => ?_
    simp at hc

include hne in
/-- A search over the rows of the partition, from where it stood. -/
lemma scanRows_found {stop : RowNumber → Bool} {stopAt : ℕ → Bool} {a : ℕ}
    (hstop : ∀ y, Held chunks k t y → stop y = stopAt (pos chunks y)) (hx : Valid chunks x)
    (hprev : (before d chunks t).frame_start ≤ pos chunks x)
    (hend : pos chunks x ≤ pos chunks t.partition_end)
    (hno : ∀ j, a ≤ j → j < pos chunks x → stopAt j = false) :
    Valid chunks (t.scanRows stop (t.rowsInBlocks + 1) x) ∧
      pos chunks x ≤ pos chunks (t.scanRows stop (t.rowsInBlocks + 1) x) ∧
      pos chunks (t.scanRows stop (t.rowsInBlocks + 1) x) ≤ pos chunks t.partition_end ∧
      (∀ j, a ≤ j → j < pos chunks (t.scanRows stop (t.rowsInBlocks + 1) x) → stopAt j = false) ∧
      (pos chunks (t.scanRows stop (t.rowsInBlocks + 1) x) < pos chunks t.partition_end →
        stopAt (pos chunks (t.scanRows stop (t.rowsInBlocks + 1) x)) = true) := by
  -- what is searched is in the queue
  have hfirst : t.first_block_number ≤ x.block := h.first_le_prev.trans
    (block_mono h.valid_prev_frame_start hx (h.prev_frame_start.trans_le hprev))
  have hfuel := h.queue.le_rowsInBlocks hfirst
  have hle := h.end_le
  obtain ⟨hvalid, hpos⟩ := h.queue.scanRows_spec hne h.valid_partition_end hle hstop hx hfirst hend
    (show _ ≤ t.rowsInBlocks + 1 + pos chunks x by omega)
  rw [hpos]
  refine ⟨hvalid, le_scanUntil hend, scanUntil_le hend, fun j hj hlt => ?_, stop_scanUntil hend⟩
  -- the rows that were passed before, and those that this search has passed
  rcases lt_or_ge j (pos chunks x) with hjx | hjx
  · exact hno j hj hjx
  · exact stop_of_lt_scanUntil hend hjx hlt

include hlt hne in
/-- The start at a RANGE offset is searched from the start before, and nothing is passed over. -/
lemma advanceFrameStartRangeOffset (htype : d.frame.type = .RANGE)
    (hbegin : d.frame.begin_type = .Offset) :
    StartFound d f chunks k t (t.advanceFrameStartRangeOffset d) := by
  obtain ⟨hle, hend, hno⟩ := h.start_range htype hbegin
  -- for rows in the queue the comparison is that of the whole input
  have hstop : ∀ y, Held chunks k t y →
      t.both (startsFrame d) t.current_row y = bothAt chunks.flatten
        (startsFrame d) (pos chunks t.current_row) (pos chunks y) :=
    fun y hy => h.queue.both_eq _ (h.held_current hlt) hy
  obtain ⟨hvalid, hge, hend', hpassed, hfound⟩ :=
    h.scanRows_found hne hstop h.valid_frame_start hle hend hno
  have hafter : (after d chunks t).frame_start = scanUntil (bothAt chunks.flatten
      (startsFrame d) (pos chunks t.current_row)) (before d chunks t).frame_start
        (pastOf chunks t) := nextStart_range htype hbegin
  rw [WindowTransform.advanceFrameStartRangeOffset]
  generalize t.scanRows (t.both (startsFrame d) t.current_row)
    (t.rowsInBlocks + 1) t.frame_start = x at *
  have hpast := h.end_le_past
  have hbefore := lt_iff_pos_lt hvalid h.valid_partition_end
  refine ⟨_, _, rfl, fun hwait => ?_, h.setStart hvalid (fun hstarted => ⟨hlt, ?_, fun hnot => ?_⟩)
    (fun hc => absurd (hbegin.symm.trans hc) BoundaryType.noConfusion)
    fun _ _ => ⟨hle.trans hge, hend', hpassed⟩⟩
  · -- the search has come to the end of the rows that are known, and goes on with the next chunk
    rw [or_eq_false_iff, decide_eq_false_iff_not, hbefore] at hwait
    refine ⟨hwait.2, hafter ▸ le_scanUntil_of_forall (by omega) hpast fun j h1 h2 => ?_⟩
    exact hpassed j h1 (by omega)
  · -- the search has stopped, and more rows would not change that
    rw [or_eq_true, decide_eq_true_eq, hbefore] at hstarted
    rw [hafter]
    refine (scanUntil_eq (hle.trans hge) (hend'.trans hpast) hpassed fun hlt' => hfound ?_).symm
    exact hstarted.elim id fun hended => (h.ended hended).symm ▸ hlt'
  · rw [hnot, Bool.or_false, decide_eq_true_eq] at hstarted
    exact hbefore.1 hstarted

include hd hlt hne in
/-- **The start of the frame.** -/
theorem advanceFrameStart (hpeer : d.frame.begin_type = .Current →
      pos chunks t.peer_group_start = (after d chunks t).peer_group_start) :
    StartFound d f chunks k t (t.advanceFrameStart d) := by
  have hstart_lt := h.start_le_current.trans_lt hlt
  rw [WindowTransform.advanceFrameStart]
  split_ifs with hstarted
  · -- the start was found in an earlier call
    exact ⟨t.frame_start, t.frame_started, rfl, fun hc => absurd (hstarted.symm.trans hc)
      Bool.noConfusion, h⟩
  cases hbegin : d.frame.begin_type with
  | Unbounded =>
    have hpos := h.start_unbounded hbegin
    have hafter : (after d chunks t).frame_start = pos chunks t.partition_start :=
      nextStart_unbounded hbegin
    refine ⟨t.frame_start, true, rfl, by simp, h.setStart h.valid_frame_start
      (fun _ => ⟨hlt, hpos.trans hafter.symm, fun _ => hpos.trans_lt hstart_lt⟩)
      (fun _ => hpos) ?_⟩
    rw [hbegin]
    exact nofun
  | Current =>
    have hpos := hpeer hbegin
    have hafter : (after d chunks t).frame_start = (after d chunks t).peer_group_start :=
      nextStart_current hbegin
    have hle : (after d chunks t).peer_group_start ≤ pos chunks t.current_row :=
      (h.bounded hd).nextPeerGroup_le
    refine ⟨t.peer_group_start, true, rfl, by simp, h.setStart h.valid_peer_group_start
      (fun _ => ⟨hlt, hpos.trans hafter.symm, fun _ => ?_⟩) ?_ ?_⟩
    · rw [hpos]
      exact hle.trans_lt hlt
    · rw [hbegin]
      exact nofun
    · rw [hbegin]
      exact nofun
  | Offset =>
    cases htype : d.frame.type with
    | ROWS => exact h.advanceFrameStartRowsOffset hd hlt hne htype hbegin
    | RANGE => exact h.advanceFrameStartRangeOffset hlt hne htype hbegin

/-! ## The end of the frame -/

lemma setEnd (hb : b = false) (hx : Valid chunks x)
    (hsearch : SearchesEnd d → (before d chunks t).frame_end ≤ pos chunks x ∧
      pos chunks x ≤ pos chunks t.partition_end ∧ Passed d chunks t (pos chunks x))
    (hlast : d.frame.end_type = .Current → blockStart chunks (k - 1) ≤ pos chunks x) :
    Inv d f chunks k { t with frame_end := x, frame_ended := b } :=
  { h with
    queue := ⟨h.queue.first_le, h.queue.le_length, h.queue.blocks⟩
    valid_frame_end := hx
    frame_ended := hb
    search_end := hsearch
    end_last_block := hlast }

variable (hstarted : t.frame_started = true)

include hd hstarted in
/-- The start that has been found lies in the partition. -/
lemma start_le_end : pos chunks t.frame_start ≤ pos chunks t.partition_end := by
  obtain ⟨hlt, hstart, hbefore⟩ := h.started hstarted
  cases hended : t.partition_ended with
  | false => exact (hbefore hended).le
  | true =>
    rw [hstart, h.ended hended]
    exact (h.bounded hd).nextStart_le (hlt.trans_le h.end_le_past)

include hd hstarted in
/-- The end never lies before the start once the start is known. -/
lemma raiseFrameEnd :
    ∃ x, t.raiseFrameEnd = { t with frame_end := x } ∧
      pos chunks t.frame_start ≤ pos chunks x ∧
      Inv d f chunks k { t with frame_end := x } := by
  obtain ⟨hlt, hstart, -⟩ := h.started hstarted
  have hend := h.start_le_end hd hstarted
  rw [WindowTransform.raiseFrameEnd]
  split
  · -- the start has passed the old end, which is raised to it
    rename_i hraise
    rw [lt_iff_pos_lt h.valid_frame_end h.valid_frame_start] at hraise
    refine ⟨t.frame_start, rfl, le_rfl, ?_⟩
    refine h.setEnd h.frame_ended h.valid_frame_start (fun hsearch => ?_) fun hcurrent => ?_
    · obtain ⟨hle, -, hno⟩ := h.search_end hsearch
      refine ⟨hle.trans hraise.le, hend, fun j _ hj hlt' => ?_⟩
      omega
    · exact (h.end_last_block hcurrent).trans hraise.le
  · rename_i hge
    rw [lt_iff_pos_lt h.valid_frame_end h.valid_frame_start] at hge
    exact ⟨t.frame_end, rfl, not_lt.1 hge, h⟩

omit h in
lemma after_end (hsearch : SearchesEnd d) : (after d chunks t).frame_end =
    scanUntil (endStop d chunks.flatten (pos chunks t.current_row))
      (max (before d chunks t).frame_end (after d chunks t).frame_start) (pastOf chunks t) :=
  nextEnd_search hsearch

/-- A search that has come to an end of the frame, or to the end of the partition as it is
known. -/
lemma endFound (hsearch : SearchesEnd d) (hx : Valid chunks x)
    (hle : pos chunks x ≤ pos chunks t.partition_end)
    (hbefore : (before d chunks t).frame_end ≤ pos chunks x)
    (hstart : (after d chunks t).frame_start ≤ pos chunks x)
    (hno : Passed d chunks t (pos chunks x))
    (hstop : pos chunks x < pos chunks t.partition_end →
      endStop d chunks.flatten (pos chunks t.current_row) (pos chunks x) = true)
    (hb : b = true ↔ pos chunks x < pos chunks t.partition_end ∨ t.partition_ended = true) :
    EndFound d f chunks k t { t with frame_end := x, frame_ended := b } := by
  have hpast := h.end_le_past
  refine ⟨x, b, rfl, hx, hle, fun hfound => ?_, fun hwait => ?_⟩
  · -- the search was over all rows of the partition that count
    rw [after_end hsearch]
    refine (scanUntil_eq (max_le hbefore hstart) (hle.trans hpast) (fun j hj => ?_)
      fun hlt => hstop ?_).symm
    · exact hno j ((le_max_left _ _).trans hj) ((le_max_right _ _).trans hj)
    · rcases hb.1 hfound with hlt' | hended
      · exact hlt'
      · rwa [h.ended hended]
  · -- the search has come to the end of the rows that are known, and waits
    rw [hwait, Bool.false_eq_true, false_iff, not_or, Bool.not_eq_true] at hb
    have hpos : pos chunks x = pos chunks t.partition_end := by omega
    refine ⟨hb.2, h.setEnd hwait hx (fun _ => ⟨hbefore, hle, hno⟩) fun _ => ?_, fun _ => hpos⟩
    exact hpos ▸ h.last_block

/-- A row from the start of the last block on is in that block. -/
lemma in_last_block (hheld : Held chunks k t x)
    (hlast : blockStart chunks (k - 1) ≤ pos chunks x) :
    x.block + 1 = k ∧
      blockStart chunks k = blockStart chunks x.block + blockSize chunks x.block := by
  have hk : x.block + 1 = k := by
    have := hheld.block_lt
    have := le_block_of_le_pos hheld.valid ((sub_le k 1).trans h.queue.le_length) hlast
    omega
  exact ⟨hk, by rw [← hk, blockStart_succ]⟩

include hne in
/-- The place in the last block that `rows_end` stands for. -/
lemma rows_end_eq (hheld : Held chunks k t x) (hlast : blockStart chunks (k - 1) ≤ pos chunks x)
    (hlt : pos chunks x < pos chunks t.partition_end) :
    x.block + 1 = k ∧ blockStart chunks x.block + (if t.partition_end.row = 0 then
      t.blockRowsNumber x else t.partition_end.row) = pos chunks t.partition_end := by
  obtain ⟨hk, -⟩ := h.in_last_block hheld hlast
  have hend : t.partition_end.block < k ∨ t.partition_end.block = k ∧ t.partition_end.row ≤ 0 :=
    (le_iff_pos_le h.valid_partition_end (valid_start hne h.queue.le_length)).2 h.end_le
  have hge := block_mono hheld.valid h.valid_partition_end hlt.le
  have hpos : pos chunks t.partition_end =
    blockStart chunks t.partition_end.block + t.partition_end.row := rfl
  refine ⟨hk, ?_⟩
  split
  · -- the partition ends with the block
    rename_i hrow
    have hnext : t.partition_end.block = x.block + 1 := by
      by_contra hne'
      have hsame : t.partition_end.block = x.block := by omega
      have hx : pos chunks x = blockStart chunks x.block + x.row := rfl
      rw [hsame] at hpos
      omega
    rw [h.queue.blockRowsNumber_eq hheld.first_le hheld.block_lt, ← blockStart_succ, hpos, hrow,
      hnext]
    rfl
  · -- the partition ends in the block
    rename_i hrow
    have hsame : t.partition_end.block = x.block := by omega
    rw [hpos, hsame]

variable (hraised : pos chunks t.frame_start ≤ pos chunks t.frame_end)

include hstarted hraised in
/-- What holds of `frame_end` when the search for it is called. -/
lemma search_from (hsearch : SearchesEnd d) :
    (before d chunks t).frame_end ≤ pos chunks t.frame_end ∧
      (after d chunks t).frame_start ≤ pos chunks t.frame_end ∧
      pos chunks t.frame_end ≤ pos chunks t.partition_end ∧
      Passed d chunks t (pos chunks t.frame_end) := by
  obtain ⟨hle, hend, hno⟩ := h.search_end hsearch
  exact ⟨hle, (h.started hstarted).2.1 ▸ hraised, hend, hno⟩

section

include hd hne hstarted

include hraised in
/-- The end at the current row is searched block by block; what is not decided waits for input. -/
lemma advanceFrameEndCurrentRow (hcurrent : d.frame.end_type = .Current) :
    EndFound d f chunks k t (t.advanceFrameEndCurrentRow d) := by
  have hsearch : SearchesEnd d := .inl hcurrent
  obtain ⟨hbefore, hstart, hend, hno⟩ := h.search_from hstarted hraised hsearch
  obtain ⟨hlt, -, -⟩ := h.started hstarted
  rw [WindowTransform.advanceFrameEndCurrentRow]
  by_cases heq : t.frame_end = t.partition_end
  · rw [if_pos heq]
    exact h.endFound hsearch h.valid_frame_end hend hbefore hstart hno (by simp [heq])
      (by simp [heq])
  rw [if_neg heq]
  have hlt' : pos chunks t.frame_end < pos chunks t.partition_end := lt_of_le_of_ne hend
    (mt (eq_iff_pos_eq h.valid_frame_end h.valid_partition_end).2 heq)
  have hheld := h.held h.valid_frame_end ((h.start_mono hd).trans hstart) hlt'
  obtain ⟨hk, hrows⟩ := h.rows_end_eq hne hheld (h.end_last_block hcurrent) hlt'
  dsimp only
  rw [h.queue.blockRowsNumber_eq hheld.first_le hheld.block_lt] at hrows ⊢
  generalize hrows_end : (if t.partition_end.row = 0 then blockSize chunks t.frame_end.block
    else t.partition_end.row) = rows_end at hrows ⊢
  obtain ⟨-, hsucc⟩ := h.in_last_block hheld (h.end_last_block hcurrent)
  have hle := h.end_le
  have hfrom : pos chunks t.frame_end = blockStart chunks t.frame_end.block + t.frame_end.row := rfl
  -- the search over the rows of the block is one over the rows of the input
  have hscan : blockStart chunks t.frame_end.block +
      scanUntil (fun row => !t.arePeers d t.current_row ⟨t.frame_end.block, row⟩) t.frame_end.row
        rows_end =
      scanUntil (endStop d chunks.flatten (pos chunks t.current_row)) (pos chunks t.frame_end)
        (pos chunks t.partition_end) := by
    rw [hfrom, ← hrows]
    refine scanUntil_shift (by omega) fun row hrow hrow' => ?_
    have hrow_held : Held chunks k t ⟨t.frame_end.block, row⟩ :=
      ⟨.inl (show row < blockSize chunks t.frame_end.block by omega), hheld.first_le,
        show blockStart chunks t.frame_end.block + row < _ by omega⟩
    rw [h.queue.arePeers_eq (h.held_current hlt) hrow_held, endStop, if_pos hcurrent]
    rfl
  generalize scanUntil (fun row => !t.arePeers d t.current_row ⟨t.frame_end.block, row⟩)
    t.frame_end.row rows_end = row at hscan ⊢
  obtain ⟨hge, hle', hpassed, hstop⟩ :=
    @scanUntil_spec (endStop d chunks.flatten (pos chunks t.current_row)) _ _ hend
  rw [← hscan] at hge hle' hpassed hstop
  have hno' : Passed d chunks t (blockStart chunks t.frame_end.block + row) := by
    intro j h1 h2 h3
    rcases lt_or_ge j (pos chunks t.frame_end) with hj | hj
    · exact hno j h1 h2 hj
    · exact hpassed j hj h3
  -- the cursor is in the block, or at the start of the next one
  have hset : ∀ x b, Valid chunks x → pos chunks x = blockStart chunks t.frame_end.block + row →
      (b = true ↔ pos chunks x < pos chunks t.partition_end ∨ t.partition_ended = true) →
      EndFound d f chunks k t { t with frame_end := x, frame_ended := b } := by
    intro x b hx hpos hb
    rw [← hpos] at hge hle' hno' hstop
    exact h.endFound hsearch hx hle' (hbefore.trans hge) (hstart.trans hge) hno' hstop hb
  by_cases hfound : row < rows_end
  · rw [if_pos hfound]
    refine hset _ _ (.inl (show row < blockSize chunks t.frame_end.block by omega)) rfl ?_
    exact ⟨fun _ => .inl (show blockStart chunks t.frame_end.block + row < _ by omega),
      fun _ => rfl⟩
  have hrow : ¬ blockStart chunks t.frame_end.block + row < pos chunks t.partition_end := by
    omega
  split_ifs with hfull
  · have hnext : pos chunks ⟨t.frame_end.block + 1, 0⟩ =
        blockStart chunks t.frame_end.block + row := by
      rw [pos_start, blockStart_succ, hfull]
    refine hset _ _ (valid_start hne (hk.trans_le h.queue.le_length)) hnext ?_
    rw [hnext, or_iff_right hrow]
  · refine hset _ _ (.inl (show row < blockSize chunks t.frame_end.block by omega)) rfl ?_
    exact (or_iff_right hrow).symm

include hraised in
lemma advanceFrameEndRangeOffset
    (htype : d.frame.type = .RANGE) (hoffset : d.frame.end_type = .Offset) :
    EndFound d f chunks k t (t.advanceFrameEndRangeOffset d) := by
  have hsearch : SearchesEnd d := .inr ⟨htype, hoffset⟩
  obtain ⟨hbefore, hstart, hend, hno⟩ := h.search_from hstarted hraised hsearch
  obtain ⟨hlt, -, -⟩ := h.started hstarted
  have hstop : ∀ y, Held chunks k t y →
      t.both (endsFrame d) t.current_row y =
        endStop d chunks.flatten (pos chunks t.current_row) (pos chunks y) := by
    intro y hy
    rw [h.queue.both_eq _ (h.held_current hlt) hy, endStop, hoffset,
      if_neg BoundaryType.noConfusion]
  obtain ⟨hvalid, hge, hend', hpassed, hfound⟩ := h.scanRows_found hne hstop h.valid_frame_end
    ((h.start_mono hd).trans hstart) hend
    (fun j hj => hno j ((le_max_left _ _).trans hj) ((le_max_right _ _).trans hj))
  refine h.endFound hsearch hvalid hend' (hbefore.trans hge) (hstart.trans hge)
    (fun j h1 h2 h3 => hpassed j (max_le h1 h2) h3) hfound ?_
  rw [or_eq_true, decide_eq_true_eq, lt_iff_pos_lt hvalid h.valid_partition_end]

/-- The end at a ROWS offset, one row past the row at it. -/
lemma advanceFrameEndRowsOffset (htype : d.frame.type = .ROWS)
    (hoffset : d.frame.end_type = .Offset) :
    EndFound d f chunks k t (t.advanceFrameEndRowsOffset d) := by
  obtain ⟨hlt, -, -⟩ := h.started hstarted
  have hb := h.bounded hd
  have hcurrent := h.start_le_current
  have hend := h.end_le
  have hpast := h.end_le_past
  have hfirst := h.first_le_prev_pos
  have hmono := h.start_mono hd
  have hmono' : (after d chunks t).frame_start ≤ (after d chunks t).frame_end :=
    hb.nextStart_le_nextEnd (hlt.trans_le hpast) hd.toAccepted
  have hafter : (after d chunks t).frame_end = clamp (pos chunks t.partition_start)
      (pastOf chunks t) (pos chunks t.current_row +
        signedOffset d.frame.end_offset d.frame.end_preceding + 1) :=
    nextEnd_rows htype hoffset
  have hplus : rowsOffset d.frame.end_offset d.frame.end_preceding 1 =
      signedOffset d.frame.end_offset d.frame.end_preceding + 1 := by
    rw [rowsOffset_eq (hd.end_offset hoffset) _ (.inr rfl)]
    rfl
  obtain ⟨hvalid, hpos, hleft⟩ := h.queue.moveRowNumber_spec hne
    (signedOffset d.frame.end_offset d.frame.end_preceding + 1) (h.held_current hlt)
  rw [WindowTransform.advanceFrameEndRowsOffset, hplus]
  rw [clamp] at hpos hafter
  -- what is to be shown is the same for each place where the end can be
  have hset : ∀ x b, Valid chunks x → pos chunks x ≤ pos chunks t.partition_end →
      (b = true → pos chunks x = (after d chunks t).frame_end) →
      (b = false → t.partition_ended = false) →
      EndFound d f chunks k t { t with frame_end := x, frame_ended := b } := by
    intro x b hx hle hfound hwait
    have hno : d.frame.end_type ≠ .Current := by
      rw [hoffset]
      exact BoundaryType.noConfusion
    refine ⟨x, b, rfl, hx, hle, hfound, fun hb => ⟨hwait hb, h.setEnd hb hx (fun hsearch => ?_)
      (fun hc => absurd hc hno), fun hc => absurd hc hno⟩⟩
    rcases hsearch with hc | ⟨hc, -⟩
    · exact absurd hc hno
    · rw [htype] at hc
      cases hc
  split
  · -- it lies behind the rows that are known: final only if the partition has ended
    rename_i hle
    rw [le_iff_pos_le h.valid_partition_end hvalid] at hle
    refine hset _ _ h.valid_partition_end le_rfl (fun hended => ?_) id
    have := h.ended hended
    omega
  · rename_i hlt'
    rw [le_iff_pos_le h.valid_partition_end hvalid] at hlt'
    split
    · -- it lies before the partition: the frame is empty
      rename_i hle
      rw [le_iff_pos_le hvalid h.valid_partition_start] at hle
      exact hset _ _ h.valid_partition_start (by omega) (fun _ => by omega) (by simp)
    rename_i hgt
    rw [le_iff_pos_le hvalid h.valid_partition_start] at hgt
    -- it lies in the partition, so that the move had no rest
    have hzero : (t.moveRowNumber t.current_row
        (signedOffset d.frame.end_offset d.frame.end_preceding + 1)).2 = 0 := by
      omega
    rw [hzero] at hleft ⊢
    refine hset _ _ hvalid (by omega) (fun _ => by omega) fun hc => ?_
    simp at hc

include hraised in
/-- **The end of the frame.** -/
theorem advanceFrameEnd :
    EndFound d f chunks k t (t.advanceFrameEnd d) := by
  rw [WindowTransform.advanceFrameEnd]
  cases hend : d.frame.end_type with
  | Current => exact h.advanceFrameEndCurrentRow hd hne hstarted hraised hend
  | Unbounded =>
    -- the frame goes up to the end of the partition, known or not
    have hafter : (after d chunks t).frame_end = pastOf chunks t := nextEnd_unbounded hend
    have hno : ¬ SearchesEnd d := by
      rw [SearchesEnd, hend]
      simp
    refine ⟨t.partition_end, t.partition_ended, rfl, h.valid_partition_end, le_rfl,
      fun hended => ?_, fun hwait => ⟨hwait, h.setEnd hwait h.valid_partition_end
        (fun hsearch => absurd hsearch hno) ?_, fun _ => rfl⟩⟩
    · rw [hafter, h.ended hended]
    · exact fun _ => h.last_block
  | Offset =>
    cases htype : d.frame.type with
    | ROWS => exact h.advanceFrameEndRowsOffset hd hne hstarted htype hend
    | RANGE => exact h.advanceFrameEndRangeOffset hd hne hstarted hraised htype hend

end

/-! ## The result of a row -/

omit h in
lemma before_succ {t' : WindowTransform p q V A S R}
    (hle : pos chunks t.partition_start ≤ pos chunks t.current_row)
    (hstart : t'.partition_start = t.partition_start)
    (hcurrent : pos chunks t'.current_row = pos chunks t.current_row + 1) :
    before d chunks t' = after d chunks t := by
  rw [before, after, pastOf, hstart, hcurrent, succ_sub hle, frameBefore, Nat.add_sub_cancel' hle]
  rfl

include hlt in
lemma frameOf_current :
    frameOf d chunks.flatten (pos chunks t.current_row) = after d chunks t := by
  have hstart : partitionStart chunks.flatten (pos chunks t.current_row) =
      pos chunks t.partition_start :=
    partitionStart_eq h.starts h.start_le_current fun j h1 h2 =>
      h.same_partition j h1 (h2.trans_lt hlt)
  rw [frameOf, hstart]
  rw [frameBefore, Nat.add_sub_cancel' h.start_le_current]
  rfl

section

variable (hx : Valid chunks x)
  (hle : pos chunks x ≤ pos chunks t.partition_end)
  (hpos : pos chunks x = (after d chunks t).frame_end)
include hd hne hstarted hx hle hpos

/-- **The aggregate state** is that of the rows of the frame. -/
theorem updateAggregationState :
    (if t.frame_start = t.prev_frame_start then
        t.addRows f t.prev_frame_end x t.aggregate_function_state
      else t.addRows f t.frame_start x f.create) =
      aggregate f (frameRows chunks.flatten (after d chunks t)) := by
  obtain ⟨hlt, hstart, -⟩ := h.started hstarted
  have hb := h.bounded hd
  have hi : pos chunks t.current_row < pastOf chunks t := hlt.trans_le h.end_le_past
  have hends : (before d chunks t).frame_end ≤ (after d chunks t).frame_end := hb.end_le_nextEnd hi
  have hstarts := h.start_mono hd
  have hframe : (after d chunks t).frame_start ≤ (after d chunks t).frame_end :=
    hb.nextStart_le_nextEnd hi hd.toAccepted
  have hprev := h.prev_frame_start
  have hprev' := h.prev_frame_end
  have hbound := hb.start_le_end
  -- the rows that are read are in the queue: it is kept from the old start of the frame on
  have hfirst : ∀ y, Valid chunks y → (before d chunks t).frame_start ≤ pos chunks y →
      t.first_block_number ≤ y.block := fun y hy hge => h.first_le_prev.trans
    (block_mono h.valid_prev_frame_start hy (hprev.trans_le hge))
  split
  · -- the start has not moved: only the new rows are added
    rename_i heq
    have hsame : (after d chunks t).frame_start = (before d chunks t).frame_start := by
      rw [← hstart, ← hprev, heq]
    rw [h.queue.addRows_eq hne h.valid_prev_frame_end
      (hfirst _ h.valid_prev_frame_end (by omega)) hx (by omega) (hle.trans h.end_le), h.state,
      aggregate, aggregate, frameRows, frameRows, hsame, ← foldl_append, hprev', hpos,
      slice_append_slice _ hbound hends]
  · -- the start has moved: the state is made anew
    rw [h.queue.addRows_eq hne h.valid_frame_start
      (hfirst _ h.valid_frame_start (by omega)) hx (by omega) (hle.trans h.end_le), hstart, hpos]
    rfl

/-- The block of the current row gets its result. -/
lemma writeOutCurrentRow :
    Queue d f chunks k (pos chunks t.current_row + 1)
      ((({ t with frame_end := x, frame_ended := b } :
        WindowTransform p q V A S R).updateAggregationState f).writeOutCurrentRow f) := by
  obtain ⟨hlt, -, -⟩ := h.started hstarted
  refine ⟨h.queue.first_le, h.queue.le_length, ?_⟩
  have hresult : f.insertResult (if t.frame_start = t.prev_frame_start then
      t.addRows f t.prev_frame_end x t.aggregate_function_state
        else t.addRows f t.frame_start x f.create) =
      resultOf d chunks.flatten f (pos chunks t.current_row) := by
    rw [h.updateAggregationState hd hne hstarted hx hle hpos, resultOf, h.frameOf_current hlt]
  have hblocks := h.queue.modify_eq (h.held_current hlt) rfl
  rw [← hresult] at hblocks
  exact hblocks

end

include hd hlt in
/-- A search has not gone beyond what it looks for. -/
lemma frame_end_le (hsearch : SearchesEnd d) :
    pos chunks t.frame_end ≤ (after d chunks t).frame_end := by
  obtain ⟨-, hend, hno⟩ := h.search_end hsearch
  have hb := h.bounded hd
  have hi := hlt.trans_le h.end_le_past
  rw [after_end hsearch]
  exact le_scanUntil_of_forall (hb.endFrom_le hi) (hend.trans h.end_le_past) fun j hj hlt' =>
    hno j ((le_max_left _ _).trans hj) ((le_max_right _ _).trans hj) hlt'

include hd hne in
/-- The step to the next row. -/
lemma nextRow (hpeer : d.frame.begin_type = .Current →
      pos chunks t.peer_group_start = (after d chunks t).peer_group_start)
    (hstarted : t.frame_started = true) (hx : Valid chunks x)
    (hle : pos chunks x ≤ pos chunks t.partition_end)
    (hpos : pos chunks x = (after d chunks t).frame_end) :
    let t' := ((({ t with frame_end := x, frame_ended := b } :
      WindowTransform p q V A S R).updateAggregationState f).writeOutCurrentRow f).nextRow
    Inv d f chunks k t' ∧ pos chunks t'.current_row = pos chunks t.current_row + 1 := by
  intro t'
  obtain ⟨hlt, hstart, hreference⟩ := h.started hstarted
  have hqueue := h.writeOutCurrentRow hd hne hstarted (b := b) hx hle hpos
  have hheld : Held chunks k ((({ t with frame_end := x, frame_ended := b } :
      WindowTransform p q V A S R).updateAggregationState f).writeOutCurrentRow f) t.current_row :=
    ⟨h.valid_current_row, h.first_le_current, hlt.trans_le h.end_le⟩
  have hcurrent : pos chunks t'.current_row = pos chunks t.current_row + 1 :=
    hqueue.pos_advance hheld
  have hvalid : Valid chunks t'.current_row := hqueue.valid_advance hne hheld
  -- what was found for this row is what the search for the next one begins with
  have hbefore : before d chunks t' = after d chunks t :=
    before_succ h.start_le_current rfl hcurrent
  have hblock : t.current_row.block ≤ t'.current_row.block :=
    block_mono h.valid_current_row hvalid (by omega)
  have hstarts := h.start_mono hd
  have hend := h.start_le_end hd hstarted
  have hfirst : t.first_block_number ≤ t.frame_start.block :=
    h.first_le_prev.trans (block_mono h.valid_prev_frame_start h.valid_frame_start (by
      rw [h.prev_frame_start, hstart]
      exact hstarts))
  refine ⟨{ h with
    queue := ⟨hqueue.first_le, hqueue.le_length, hcurrent ▸ hqueue.blocks⟩
    valid_current_row := hvalid
    valid_frame_end := hx
    valid_prev_frame_start := h.valid_frame_start
    valid_prev_frame_end := hx
    start_le_current := h.start_le_current.trans (by omega)
    current_le_end := hcurrent.trans_le hlt
    prev_frame_start := by
      rw [hbefore]
      exact hstart
    prev_frame_end := by
      rw [hbefore]
      exact hpos
    state := by
      rw [hbefore]
      exact h.updateAggregationState hd hne hstarted hx hle hpos
    reference := fun hnot => .inl (hreference hnot)
    peer := fun hbegin => .inl (by
      rw [hbefore]
      exact hpeer hbegin)
    frame_ended := rfl
    started := nofun
    start_range := fun _ _ => by
      rw [hbefore]
      exact ⟨hstart.ge, hend, fun j h1 h2 => absurd h2 (by
        show ¬ j < pos chunks t.frame_start
        omega)⟩
    search_end := fun _ => by
      rw [hbefore]
      exact ⟨hpos.ge, hle, fun j h1 _ h2 => absurd h2 (by
        show ¬ j < pos chunks x
        omega)⟩
    end_last_block := fun hcurrent' => (h.end_last_block hcurrent').trans
      ((h.frame_end_le hd hlt (.inl hcurrent')).trans_eq hpos.symm)
    first_le_prev := hfirst
    first_le_current := h.first_le_current.trans hblock
    output_le := h.output_le.trans hblock
    ready := rfl }, hcurrent⟩

omit h in
/-- The three ways through an iteration. -/
lemma processRow_cases {t1 t2 : WindowTransform p q V A S R}
    (h1 : (t.updatePeerGroup d).advanceFrameStart d = t1)
    (h2 : t1.raiseFrameEnd.advanceFrameEnd d = t2) :
    (t1.frame_started = false → t.processRow d f = ⟨t1, true⟩) ∧
      (t1.frame_started = true → t2.frame_ended = false → t.processRow d f = ⟨t2, true⟩) ∧
      (t1.frame_started = true → t2.frame_ended = true → t.processRow d f =
        ⟨((t2.updateAggregationState f).writeOutCurrentRow f).nextRow, false⟩) := by
  refine ⟨fun hs => ?_, fun hs he => ?_, fun hs he => ?_⟩
  · rw [processRow, h1]
    exact if_pos (by rw [hs]; rfl)
  · rw [processRow, h1]
    dsimp only
    rw [h2, hs, he]
    rfl
  · rw [processRow, h1]
    dsimp only
    rw [h2, hs, he]
    rfl

include hd hlt hne in
/-- **One iteration** of the loop over the rows: it finishes the row, or it waits for a
partition that goes on. -/
theorem processRow :
    Inv d f chunks k (t.processRow d f).transform ∧
      (t.processRow d f).transform.partition_end = t.partition_end ∧
      (t.processRow d f).transform.partition_ended = t.partition_ended ∧
      (t.processRow d f).transform.input_is_finished = t.input_is_finished ∧
      ((t.processRow d f).returned = false →
        pos chunks (t.processRow d f).transform.current_row = pos chunks t.current_row + 1) ∧
      ((t.processRow d f).returned = true → t.partition_ended = false ∧
        (d.frame.end_type = .Current →
          pos chunks (t.processRow d f).transform.frame_end = pos chunks t.partition_end)) := by
  obtain ⟨peer, hpeer_eq, hpeer_valid, hpeer⟩ := h.updatePeerGroup hd hlt
  have h1 := h.setPeer hlt hpeer_valid hpeer
  obtain ⟨start, started, hstart_eq, hwait, h2⟩ := h1.advanceFrameStart hd hlt hne hpeer
  rw [hstart_eq] at h2
  have hfirst : (t.updatePeerGroup d).advanceFrameStart d =
      { t with peer_group_start := peer, frame_start := start, frame_started := started } := by
    rw [hpeer_eq, hstart_eq]
  obtain ⟨hunstarted, hunended, hfinished⟩ := processRow_cases (f := f) hfirst rfl
  cases started with
  | false =>
    obtain ⟨hended, hbeyond⟩ := hwait rfl
    rw [hunstarted rfl]
    refine ⟨h2, rfl, rfl, rfl, by simp, fun _ => ⟨hended, fun hend => ?_⟩⟩
    -- a frame up to the current row does not start after it
    have hself : (after d chunks t).frame_start ≤ pos chunks t.current_row := by
      refine (h.bounded hd).nextStart_le_self (hlt.trans_le h.end_le_past) hd h.past_le_length ?_
      by_cases hbegin : d.frame.begin_type = .Offset
      · exact .inr (hd.begin_preceding hbegin hend)
      · exact .inl hbegin
    have hbeyond' : pos chunks t.partition_end ≤ (after d chunks t).frame_start := hbeyond
    omega
  | true =>
    obtain ⟨raised, hraise_eq, hraised, h3⟩ := h2.raiseFrameEnd hd rfl
    obtain ⟨frame_end, ended, hend_eq, hvalid, hle, hfound, hwait'⟩ :=
      h3.advanceFrameEnd hd hne rfl hraised
    have hsecond : WindowTransform.advanceFrameEnd (WindowTransform.raiseFrameEnd
        { t with peer_group_start := peer, frame_start := start, frame_started := true }) d =
        { t with
          peer_group_start := peer
          frame_start := start
          frame_started := true
          frame_end := frame_end
          frame_ended := ended } := by
      rw [hraise_eq, hend_eq]
    rw [hsecond] at hunended hfinished
    cases ended with
    | false =>
      obtain ⟨hended, h4, hcurrent⟩ := hwait' rfl
      rw [hend_eq] at h4
      rw [hunended rfl rfl]
      exact ⟨h4, rfl, rfl, rfl, by simp, fun _ => ⟨hended, hcurrent⟩⟩
    | true =>
      obtain ⟨h4, hcurrent⟩ := h3.nextRow hd hne hpeer rfl (b := true) hvalid hle (hfound rfl)
      rw [hfinished rfl rfl]
      exact ⟨h4, rfl, rfl, rfl, fun _ => hcurrent, by simp⟩

/-! ## The end of the partition -/

/-- While the partition has no row, the frame is where it starts. -/
lemma prev_of_empty (heq : pos chunks t.partition_start = pos chunks t.partition_end) :
    pos chunks t.prev_frame_start = pos chunks t.partition_start := by
  have hcurrent' := h.current_le_end
  rw [h.prev_frame_start, before,
    show pos chunks t.current_row - pos chunks t.partition_start = 0 by omega]
  rfl

/-- The end of the partition moves over rows of the partition only. -/
lemma setPartitionEnd (hnot : t.partition_ended = false) (hx : Valid chunks x)
    (hge : pos chunks t.partition_end ≤ pos chunks x) (hle : pos chunks x ≤ blockStart chunks k)
    (hfinished : t.input_is_finished = true →
      k = chunks.length ∧ pos chunks x = blockStart chunks k)
    (hsame : ∀ j, pos chunks t.partition_start ≤ j → j < pos chunks x →
      samePartitionAt chunks.flatten (pos chunks t.partition_start) j = true)
    (hended : b = true → pos chunks x = pastOf chunks t)
    (hmore : b = true → t.input_is_finished = false → pos chunks x < blockStart chunks k) :
    Inv d f chunks k { t with partition_end := x, partition_ended := b } :=
  { h with
    queue := ⟨h.queue.first_le, h.queue.le_length, h.queue.blocks⟩
    valid_partition_end := hx
    current_le_end := h.current_le_end.trans hge
    end_le := hle
    last_block := h.last_block.trans hge
    finished := hfinished
    same_partition := hsame
    ended := hended
    more := hmore
    reference := fun _ => by
      show pos chunks t.prev_frame_start < pos chunks x ∨
        pos chunks t.partition_start = pos chunks x
      rcases h.reference hnot with hlt | heq
      · exact .inl (hlt.trans_le hge)
      · have hprev := h.prev_of_empty heq
        omega
    peer := fun hbegin => (h.peer hbegin).imp_right fun hp => ⟨hp.1.trans_le hge, hp.2⟩
    started := fun hstarted => by
      obtain ⟨h1, h2, h3⟩ := h.started hstarted
      exact ⟨h1.trans_le hge, h2, fun _ => (h3 hnot).trans_le hge⟩
    start_range := fun htype hbegin => by
      obtain ⟨h1, h2, h3⟩ := h.start_range htype hbegin
      exact ⟨h1, h2.trans hge, h3⟩
    search_end := fun hsearch => by
      obtain ⟨h1, h2, h3⟩ := h.search_end hsearch
      exact ⟨h1, h2.trans hge, h3⟩ }

variable [Std.TransOrd V]

section

variable (hnot : t.partition_ended = false)
    (hrest : pos chunks t.partition_end < blockStart chunks k)
include hd hnot hrest

/-- The row that the next ones are compared with belongs to the partition. -/
lemma samePartitionAt_reference :
    pos chunks t.prev_frame_start < blockStart chunks k ∧
      samePartitionAt chunks.flatten (pos chunks t.partition_start)
        (pos chunks t.prev_frame_start) = true := by
  have hfirst := (h.bounded hd).first_le_start
  rw [← h.prev_frame_start] at hfirst
  rcases h.reference hnot with hprev | heq
  · exact ⟨hprev.trans hrest, h.same_partition _ hfirst hprev⟩
  · have hlength := h.blockStart_le_length
    rw [h.prev_of_empty heq]
    exact ⟨heq.trans_lt hrest, samePartitionAt_self (by omega)⟩

/-- The search in the last block is one over the rows of the input. -/
lemma scan_partition :
    t.partition_end.block + 1 = k ∧
      t.blockRowsNumber t.partition_end = blockSize chunks t.partition_end.block ∧
      blockStart chunks t.partition_end.block +
        scanUntil (fun row => !t.both samePartition t.prev_frame_start
          ⟨t.partition_end.block, row⟩) t.partition_end.row
            (blockSize chunks t.partition_end.block) =
        scanUntil (fun j => !samePartitionAt chunks.flatten (pos chunks t.partition_start) j)
          (pos chunks t.partition_end) (blockStart chunks k) := by
  -- `prev_frame_start` stands in for the start of the partition, which may have left the queue
  obtain ⟨hprev_lt, hprev⟩ := h.samePartitionAt_reference hd hnot hrest
  have hfirst := h.first_le_end
  have hheld : Held chunks k t t.partition_end := ⟨h.valid_partition_end, hfirst, hrest⟩
  have hrow := h.queue.row_lt hheld
  obtain ⟨hk, hsucc⟩ := h.in_last_block hheld h.last_block
  refine ⟨hk, h.queue.blockRowsNumber_eq hfirst hheld.block_lt, ?_⟩
  rw [hsucc]
  refine scanUntil_shift hrow.le fun row hge hlt' => ?_
  -- the rows of the last block are in the queue
  have hheld_row : Held chunks k t ⟨t.partition_end.block, row⟩ :=
    ⟨.inl hlt', hfirst, show blockStart chunks t.partition_end.block + row < _ by omega⟩
  have hheld_prev : Held chunks k t t.prev_frame_start :=
    ⟨h.valid_prev_frame_start, h.first_le_prev, hprev_lt⟩
  rw [h.queue.both_eq _ hheld_prev hheld_row]
  exact congrArg _ (samePartitionAt_congr hprev)

end

include hd hne in
/-- **The end of the partition**: found, or at the end of the data. -/
theorem advancePartitionEnd :
    Inv d f chunks k t.advancePartitionEnd ∧
      (t.advancePartitionEnd.partition_ended = true ∨
        pos chunks t.advancePartitionEnd.partition_end = blockStart chunks k) ∧
      pos chunks t.partition_end ≤ pos chunks t.advancePartitionEnd.partition_end ∧
      t.advancePartitionEnd.input_is_finished = t.input_is_finished ∧
      (t.input_is_finished = true → t.advancePartitionEnd.partition_ended = true) := by
  have hlength := h.blockStart_le_length
  have hstart_le := h.start_le_current.trans h.current_le_end
  rw [WindowTransform.advancePartitionEnd]
  by_cases hended : t.partition_ended = true
  · -- the end was found in an earlier call
    rw [if_pos hended]
    exact ⟨h, .inl hended, le_rfl, rfl, fun _ => hended⟩
  rw [if_neg hended]
  have hnot : t.partition_ended = false := eq_false_iff.2 hended
  by_cases hfinished : t.input_is_finished = true
  · -- no rows follow, so that the partition ends with the data
    rw [if_pos hfinished]
    obtain ⟨hk, hend⟩ := h.finished hfinished
    refine ⟨h.setPartitionEnd hnot h.valid_partition_end le_rfl h.end_le h.finished
      h.same_partition (fun _ => ?_) (fun _ hc => ?_), .inl rfl, le_rfl, rfl, fun _ => rfl⟩
    · refine le_antisymm h.end_le_past ?_
      rw [hend, hk, blockStart_length]
      exact h.past_le_length
    · rw [hfinished] at hc
      cases hc
  rw [if_neg hfinished]
  by_cases hat_end : t.partition_end = t.blocksEnd
  · -- all rows in the queue are looked at already
    rw [if_pos hat_end]
    rw [h.queue.blocksEnd_eq] at hat_end
    exact ⟨h, .inr (by rw [hat_end, pos_start]), le_rfl, rfl, fun hc => absurd hc hfinished⟩
  have hlt : pos chunks t.partition_end < blockStart chunks k := by
    refine lt_of_le_of_ne h.end_le fun heq => hat_end ?_
    rw [h.queue.blocksEnd_eq]
    exact (eq_iff_pos_eq h.valid_partition_end (valid_start hne h.queue.le_length)).2 heq
  split_ifs with hp
  · -- without PARTITION BY all rows are one partition
    rw [h.queue.blocksEnd_eq]
    subst hp
    refine ⟨h.setPartitionEnd hnot (valid_start hne h.queue.le_length) hlt.le le_rfl
      (fun hc => absurd hc hfinished) (fun j h1 h2 => ?_) (fun hc => absurd hc hended)
      (fun hc => absurd hc hended), .inr rfl, hlt.le, rfl, fun hc => absurd hc hfinished⟩
    have hj : j < chunks.flatten.length := lt_of_lt_of_le h2 hlength
    exact samePartitionAt_iff.2 ⟨by omega, hj, by simp [samePartition]⟩
  obtain ⟨hk, hrows, hscan⟩ := h.scan_partition hd hnot hlt
  dsimp only
  rw [hrows]
  generalize scanUntil (fun row => !t.both samePartition t.prev_frame_start
    ⟨t.partition_end.block, row⟩) t.partition_end.row
      (blockSize chunks t.partition_end.block) = row at hscan ⊢
  obtain ⟨hge, hle, hpassed, hstop⟩ := @scanUntil_spec
    (fun j => !samePartitionAt chunks.flatten (pos chunks t.partition_start) j) _ _ h.end_le
  rw [← hscan] at hge hle hpassed hstop
  -- the rows before the place where the search stopped are in the partition
  have hsame : ∀ j, pos chunks t.partition_start ≤ j →
      j < blockStart chunks t.partition_end.block + row →
        samePartitionAt chunks.flatten (pos chunks t.partition_start) j = true := by
    intro j h1 h2
    rcases lt_or_ge j (pos chunks t.partition_end) with hj | hj
    · exact h.same_partition j h1 hj
    · simpa using hpassed j hj h2
  have hsucc : blockStart chunks k = blockStart chunks t.partition_end.block +
      blockSize chunks t.partition_end.block := by
    rw [← hk, blockStart_succ]
  split_ifs with hfound
  · -- the search has stopped at a row of the next partition
    have hlt' : blockStart chunks t.partition_end.block + row < blockStart chunks k := by omega
    refine ⟨h.setPartitionEnd hnot (.inl hfound) hge hle (fun hc => absurd hc hfinished) hsame
      (fun _ => ?_) (fun _ _ => hlt'), .inl rfl, hge, rfl, fun hc => absurd hc hfinished⟩
    exact (scanUntil_eq (hstart_le.trans hge) (hle.trans hlength)
      (fun j h1 h2 => by simp [hsame j h1 h2]) fun _ => hstop hlt').symm
  · -- the block has no such row
    have hend : pos chunks ⟨t.partition_end.block + 1, 0⟩ = blockStart chunks k := by
      rw [hk, pos_start]
    refine ⟨h.setPartitionEnd hnot (valid_start hne (hk.trans_le h.queue.le_length))
      (hlt.le.trans_eq hend.symm) hend.le (fun hc => absurd hc hfinished)
      (fun j h1 h2 => hsame j h1 (by omega)) (fun hc => absurd hc hended)
      (fun hc => absurd hc hended), .inr hend, hlt.le.trans_eq hend.symm, rfl,
      fun hc => absurd hc hfinished⟩

/-! ## The loops -/

omit [Std.TransOrd V] in
include hd hne in
/-- The loop over the rows ends with the partition, or waits for more of it. -/
lemma processRows :
    ∃ s, t.processRows d f = some s ∧ Inv d f chunks k s.transform ∧
      s.transform.partition_end = t.partition_end ∧
      s.transform.partition_ended = t.partition_ended ∧
      s.transform.input_is_finished = t.input_is_finished ∧
      (s.returned = true → t.partition_ended = false ∧ (d.frame.end_type = .Current →
        pos chunks s.transform.frame_end = pos chunks t.partition_end)) ∧
      (s.returned = false →
        pos chunks s.transform.current_row = pos chunks t.partition_end) := by
  have hfuel := h.queue.le_rowsInBlocks h.first_le_current
  have hend := h.end_le
  -- each iteration finishes a row or returns to wait for more
  obtain ⟨s, hloop, ⟨hinv, h1, h2, h3, h4⟩, hcond⟩ := whileLoop_spec
    (fun s : WindowTransform.Loop p q V A S R =>
      !s.returned && decide (s.transform.current_row < s.transform.partition_end))
    (fun s => some (s.transform.processRow d f))
    (fun s => Inv d f chunks k s.transform ∧ s.transform.partition_end = t.partition_end ∧
      s.transform.partition_ended = t.partition_ended ∧
      s.transform.input_is_finished = t.input_is_finished ∧
      (s.returned = true → t.partition_ended = false ∧ (d.frame.end_type = .Current →
        pos chunks s.transform.frame_end = pos chunks t.partition_end)))
    (fun s => if s.returned then 0
      else pos chunks t.partition_end - pos chunks s.transform.current_row)
    (fun s hs hcond => by
      obtain ⟨hinv, h1, h2, h3, -⟩ := hs
      rw [and_eq_true, not_eq_true', decide_eq_true_eq,
        lt_iff_pos_lt hinv.valid_current_row hinv.valid_partition_end] at hcond
      obtain ⟨hinv', h1', h2', h3', hnext, hwait⟩ := hinv.processRow hd hcond.2 hne
      refine ⟨_, rfl, ⟨hinv', h1'.trans h1, h2'.trans h2, h3'.trans h3, fun hret => ?_⟩, ?_⟩
      · rw [← h1, ← h2]
        exact hwait hret
      rw [hcond.1, if_neg Bool.false_ne_true, ← h1]
      cases hret : (s.transform.processRow d f).returned with
      | true =>
        rw [if_pos rfl]
        omega
      | false =>
        rw [if_neg Bool.false_ne_true, hnext hret]
        omega)
    t.rowsInBlocks ⟨t, false⟩ ⟨h, rfl, rfl, rfl, nofun⟩ (by
      show pos chunks t.partition_end - pos chunks t.current_row ≤ _
      omega)
  refine ⟨s, hloop, hinv, h1, h2, h3, h4, fun hret => ?_⟩
  rw [hret, Bool.not_false, Bool.true_and, decide_eq_false_iff_not,
    lt_iff_pos_lt hinv.valid_current_row hinv.valid_partition_end] at hcond
  have hle := hinv.current_le_end
  rw [h1] at hcond hle
  omega

include hne in
/-- The next partition. -/
lemma startPartition (hended : t.partition_ended = true) (hnot : t.input_is_finished = false)
    (hcurrent : pos chunks t.current_row = pos chunks t.partition_end) :
    Inv d f chunks k (t.startPartition f) ∧
      pos chunks (t.startPartition f).partition_end = pos chunks t.partition_end + 1 := by
  have hlt := h.more hended hnot
  have hpast := h.ended hended
  have hlength := h.blockStart_le_length
  have hstart := h.start_le_current.trans h.current_le_end
  have hfirst := h.first_le_end
  have hheld : Held chunks k t t.partition_end := ⟨h.valid_partition_end, hfirst, hlt⟩
  have hnext := h.queue.pos_advance hheld
  -- the partition is new, and nothing was found for a row of it
  have hbefore : before d chunks (t.startPartition f) = ⟨pos chunks t.partition_end,
      pos chunks t.partition_end, pos chunks t.partition_end⟩ := by
    show frameBefore d _ _ _ (pos chunks t.current_row - pos chunks t.partition_end) = _
    rw [hcurrent, Nat.sub_self]
    rfl
  have hle : pos chunks t.partition_end ≤ pos chunks (t.advanceRowNumber t.partition_end) := by
    omega
  refine ⟨{ h with
    queue := ⟨h.queue.first_le, h.queue.le_length, h.queue.blocks⟩
    valid_partition_start := h.valid_partition_end
    valid_partition_end := h.queue.valid_advance hne hheld
    valid_peer_group_start := h.valid_partition_end
    valid_frame_start := h.valid_partition_end
    valid_frame_end := h.valid_partition_end
    valid_prev_frame_start := h.valid_partition_end
    valid_prev_frame_end := h.valid_partition_end
    start_le_current := hcurrent.ge
    current_le_end := hcurrent.trans_le hle
    end_le := hnext.trans_le hlt
    last_block := h.last_block.trans hle
    finished := fun hc => absurd (hnot.symm.trans hc) false_ne_true
    starts := by
      have hpos : pos chunks t.partition_start <
        partitionEnd chunks.flatten (pos chunks t.partition_start) := lt_partitionEnd (by omega)
      rw [pastOf] at hpast
      have hend := partitionStart_partitionEnd h.starts hpos (by omega)
      rw [← hpast] at hend
      exact hend
    same_partition := fun j h1 h2 => by
      have hj : j = pos chunks t.partition_end := by
        change j < pos chunks (t.advanceRowNumber t.partition_end) at h2
        change pos chunks t.partition_end ≤ j at h1
        omega
      rw [hj]
      exact samePartitionAt_self (by omega)
    ended := nofun
    more := nofun
    prev_frame_start := by rw [hbefore]; rfl
    prev_frame_end := by rw [hbefore]; rfl
    state := by
      rw [hbefore, frameRows, slice_self]
      rfl
    reference := fun _ => .inl (by
      show pos chunks t.partition_end < pos chunks (t.advanceRowNumber t.partition_end)
      omega)
    peer := fun _ => .inl (by rw [hbefore]; rfl)
    started := fun hstarted => absurd (h.started hstarted).1 (by omega)
    start_unbounded := fun _ => rfl
    start_range := fun _ _ => by
      rw [hbefore]
      exact ⟨le_rfl, hle, fun j h1 h2 => absurd h2 (not_lt.2 h1)⟩
    search_end := fun _ => by
      rw [hbefore]
      exact ⟨le_rfl, hle, fun j h1 _ h2 => absurd h2 (not_lt.2 h1)⟩
    end_last_block := fun _ => h.last_block
    first_le_prev := hfirst }, hnext⟩

include hd hne in
/-- One iteration of the outer loop. -/
lemma processPartition :
    ∃ s, t.processPartition d f = some s ∧ Inv d f chunks k s.transform ∧
      s.transform.input_is_finished = t.input_is_finished ∧
      (s.returned = true → Rest d f chunks k s.transform) ∧
      (s.returned = false → pos chunks t.partition_end < pos chunks s.transform.partition_end) := by
  obtain ⟨h1, hend1, hge, hfin1, hended1⟩ := h.advancePartitionEnd hd hne
  obtain ⟨s, hrows, h2, hend2, hended2, hfin2, hwait, hdone⟩ := h1.processRows hd hne
  rw [WindowTransform.processPartition, hrows, Option.map_some]
  have hfin := hfin2.trans hfin1
  split_ifs with hreturn
  · refine ⟨_, rfl, h2, hfin, fun _ => ⟨h2, fun hnot => ?_, fun hyes => ?_⟩, by simp⟩
    · have hnotended : s.transform.partition_ended = false := by
        cases hret : s.returned with
        | true => exact hended2.trans (hwait hret).1
        | false =>
          rw [hret, hnot] at hreturn
          simpa using hreturn
      have hpos := hend1.resolve_left (by
        rw [← hended2, hnotended]
        exact false_ne_true)
      rw [← hend2] at hpos
      refine ⟨hnotended, hpos, fun hc => ?_⟩
      show pos chunks s.transform.frame_end = _
      rw [← hpos]
      cases hret : s.returned with
      | true => rw [(hwait hret).2 hc, hend2]
      | false =>
        -- all rows are finished, and the last frame ends with the last row
        have hcurrent := hdone hret
        have hbound := (h2.bounded hd).end_current hc
        obtain ⟨hle, hle', -⟩ := h2.search_end (.inl hc)
        rw [← hend2] at hcurrent
        omega
    · have hended : t.advancePartitionEnd.partition_ended = true := hended1 (hfin ▸ hyes)
      have hret : s.returned = false := by
        by_contra hc
        rw [(hwait (by simpa using hc)).1] at hended
        cases hended
      have hlast := (h2.finished hyes).2
      rw [hend2] at hlast
      exact (hdone hret).trans hlast
  · rw [not_eq_true, or_eq_false_iff, or_eq_false_iff, not_eq_false'] at hreturn
    obtain ⟨⟨hret, hnot⟩, hended⟩ := hreturn
    have hcurrent : pos chunks s.transform.current_row = pos chunks s.transform.partition_end := by
      rw [hdone hret, hend2]
    obtain ⟨h3, hnext⟩ := h2.startPartition hne hended hnot hcurrent
    refine ⟨_, rfl, h3, hfin, by simp, fun _ => ?_⟩
    rw [hnext, hend2]
    omega

include hd hne in
/-- **`appendChunk`** after the new block is in the queue. -/
theorem processPartitions :
    ∃ t', t.processPartitions d f = some t' ∧ Rest d f chunks k t' ∧
      t'.input_is_finished = t.input_is_finished := by
  have hfuel := h.queue.le_rowsInBlocks h.first_le_end
  -- each iteration finishes a partition or returns to wait for more
  obtain ⟨s, hloop, ⟨-, hfin, hrest⟩, hcond⟩ := whileLoop_spec
    (fun s : WindowTransform.Loop p q V A S R => !s.returned)
    (fun s => s.transform.processPartition d f)
    (fun s => Inv d f chunks k s.transform ∧
      s.transform.input_is_finished = t.input_is_finished ∧
      (s.returned = true → Rest d f chunks k s.transform))
    (fun s => if s.returned then 0
      else blockStart chunks k - pos chunks s.transform.partition_end + 1)
    (fun s hs hcond => by
      obtain ⟨hinv, hfin, -⟩ := hs
      rw [not_eq_true'] at hcond
      obtain ⟨s', hstep, hinv', hfin', hrest, hmore⟩ := hinv.processPartition hd hne
      refine ⟨s', hstep, ⟨hinv', hfin'.trans hfin, hrest⟩, ?_⟩
      rw [hcond, if_neg Bool.false_ne_true]
      cases hret : s'.returned with
      | true =>
        rw [if_pos rfl]
        omega
      | false =>
        have := hmore hret
        have := hinv'.end_le
        rw [if_neg Bool.false_ne_true]
        omega)
    (t.rowsInBlocks + 1) ⟨t, false⟩ ⟨h, rfl, nofun⟩ (by
      show blockStart chunks k - pos chunks t.partition_end + 1 ≤ _
      omega)
  refine ⟨s.transform, ?_, hrest (by simpa using hcond), hfin⟩
  rw [WindowTransform.processPartitions, hloop, Option.map_some]

/-! ## The processor -/

omit [Std.TransOrd V] in
include hne in
lemma current_block_le : t.current_row.block ≤ k :=
  block_mono h.valid_current_row (valid_start hne h.queue.le_length)
    (h.current_le_end.trans h.end_le)

omit [Std.TransOrd V] in
include hne in
/-- No block is dropped that is read later. -/
lemma dropBlocks : Inv d f chunks k t.dropBlocks := by
  rw [WindowTransform.dropBlocks]
  split
  · -- the queue is cut at the first block that is still to be read or to be put out
    rename_i hlt
    have hle := h.current_block_le hne
    exact { h with
      queue := {
        first_le := by
          show min _ _ ≤ k
          omega
        le_length := h.queue.le_length
        blocks := by
          generalize min t.next_output_block_number
            (min t.prev_frame_start.block t.current_row.block) = first_used_block at hlt ⊢
          rw [h.queue.blocks, ← map_drop, drop_range', mul_one,
            Nat.add_sub_cancel' hlt.le, Nat.sub_sub, Nat.add_sub_cancel' hlt.le] }
      first_le_prev := by
        show min _ _ ≤ t.prev_frame_start.block
        omega
      first_le_current := by
        show min _ _ ≤ t.current_row.block
        omega
      first_le_output := min_le_left _ _ }
  · exact h

omit h [Std.TransOrd V] in
/-- A block before that of the current row has all its results. -/
lemma blockOf_complete (hlen : pos chunks t.current_row ≤ chunks.flatten.length) {b : ℕ}
    (hb : b < t.current_row.block) :
    blockOf d f chunks (pos chunks t.current_row) b =
      blockOf d f chunks chunks.flatten.length b := by
  have hle : blockStart chunks (b + 1) ≤ pos chunks t.current_row :=
    (blockStart_mono hb).trans (le_add_right _ _)
  rw [blockOf, blockOf, resultsIn, resultsIn, min_eq_right hle, min_eq_right (hle.trans hlen)]

omit [Std.TransOrd V] in
include hne in
lemma pushBlock (hlt : t.next_output_block_number < t.current_row.block) :
    Inv d f chunks k t.pushBlock := by
  have hle := h.current_block_le hne
  exact { h with
    queue := ⟨h.queue.first_le, h.queue.le_length, h.queue.blocks⟩
    first_le_output := h.first_le_output.trans (le_succ _)
    output_le := hlt
    output := by
      show t.output ++ (t.blockAt t.next_output_block_number).toList = _
      rw [h.queue.blockAt_eq h.first_le_output (by omega),
        blockOf_complete (h.current_le_end.trans h.end_le_length) hlt, h.output]
      show _ = (range (t.next_output_block_number + 1)).map _
      rw [range_succ, map_append]
      rfl }

omit [Std.TransOrd V] in
include hne in
/-- All blocks before that of the current row are pushed. -/
lemma pushBlocks :
    ∃ output, t.pushBlocks = { t with
        output := output
        next_output_block_number := t.current_row.block } ∧
      Inv d f chunks k t.pushBlocks := by
  -- one block after the other, up to that of the current row
  have hpush : ∀ n, t.next_output_block_number + n ≤ t.current_row.block →
      ∃ output, (WindowTransform.pushBlock)^[n] t = { t with
          output := output
          next_output_block_number := t.next_output_block_number + n } ∧
        Inv d f chunks k ((WindowTransform.pushBlock)^[n] t) := by
    intro n
    induction n with
    | zero => exact fun _ => ⟨_, rfl, h⟩
    | succ n ih =>
      intro hn
      obtain ⟨output, heq, hinv⟩ := ih (by omega)
      rw [Function.iterate_succ_apply', heq]
      rw [heq] at hinv
      exact ⟨_, rfl, hinv.pushBlock hne hn⟩
  have hle := h.output_le
  obtain ⟨output, heq, hinv⟩ := hpush (t.current_row.block - t.next_output_block_number) (by omega)
  have hpushes : t.pushBlocks = (WindowTransform.pushBlock)^[t.current_row.block -
      t.next_output_block_number] t := by
    rw [WindowTransform.pushBlocks, h.ready]
  rw [Nat.add_sub_cancel' hle] at heq
  rw [hpushes]
  exact ⟨output, heq, hinv⟩

end Inv

namespace Rest

variable {d f chunks} {k : ℕ} {t : WindowTransform p q V A S R}

/-- Before the first chunk the transform is at rest. -/
lemma initial (hne : ∀ chunk ∈ chunks, chunk ≠ []) :
    Rest d f chunks 0 (initial p q V A f) := by
  have hvalid : Valid chunks {} := valid_start hne (zero_le _)
  have hbefore : before d chunks (WindowTransform.initial p q V A f) = ⟨0, 0, 0⟩ := rfl
  refine ⟨{
    queue := ⟨le_rfl, zero_le _, rfl⟩
    valid_partition_start := hvalid
    valid_partition_end := hvalid
    valid_current_row := hvalid
    valid_peer_group_start := hvalid
    valid_frame_start := hvalid
    valid_frame_end := hvalid
    valid_prev_frame_start := hvalid
    valid_prev_frame_end := hvalid
    start_le_current := le_rfl
    current_le_end := le_rfl
    end_le := le_rfl
    last_block := le_rfl
    finished := nofun
    starts := rfl
    same_partition := fun j _ hj => absurd hj (not_lt_zero j)
    ended := nofun
    more := nofun
    prev_frame_start := rfl
    prev_frame_end := rfl
    state := by
      rfl
    reference := fun _ => .inr rfl
    peer := fun _ => .inl rfl
    frame_ended := rfl
    started := nofun
    start_unbounded := fun _ => rfl
    start_range := fun _ _ => ⟨le_rfl, le_rfl, fun j _ hj => absurd hj (not_lt_zero j)⟩
    search_end := fun _ => ⟨le_rfl, le_rfl, fun j _ _ hj => absurd hj (not_lt_zero j)⟩
    end_last_block := fun _ => le_rfl
    first_le_prev := le_rfl
    first_le_current := le_rfl
    first_le_output := le_rfl
    output_le := le_rfl
    ready := rfl
    output := rfl }, fun _ => ⟨rfl, rfl, fun _ => rfl⟩, nofun⟩

variable (h : Rest d f chunks k t)
include h

/-- A new block in the queue. -/
lemma push (hnot : t.input_is_finished = false) (hk : k < chunks.length) :
    Inv d f chunks (k + 1)
      { t with blocks := t.blocks ++ [⟨chunks.get ⟨k, hk⟩, []⟩] } := by
  obtain ⟨hended, hend, hframe⟩ := h.waits hnot
  have hmono : blockStart chunks k ≤ blockStart chunks (k + 1) := blockStart_mono (le_succ k)
  -- the new block has no results, because the current row is not behind its start
  have hempty : blockOf d f chunks (pos chunks t.current_row) k = ⟨chunks.get ⟨k, hk⟩, []⟩ := by
    have := h.inv.current_le_end
    rw [blockOf, resultsIn, getElem?_eq_getElem hk, show min (pos chunks t.current_row)
      (blockStart chunks (k + 1)) - blockStart chunks k = 0 by omega]
    rfl
  exact { h.inv with
    queue := {
      first_le := h.inv.queue.first_le.trans (le_succ k)
      le_length := hk
      blocks := by
        have hfirst := h.inv.queue.first_le
        rw [succ_sub hfirst, range'_concat, map_append, one_mul,
          Nat.add_sub_cancel' hfirst, ← h.inv.queue.blocks, ← hempty]
        rfl }
    end_le := h.inv.end_le.trans hmono
    last_block := hend.ge
    finished := fun hc => absurd (hnot.symm.trans hc) false_ne_true
    more := fun hc => absurd (hended.symm.trans hc) false_ne_true
    end_last_block := fun hc => (hframe hc).ge }

/-- The end of the input. -/
lemma finish (hnot : t.input_is_finished = false) (hk : k = chunks.length) :
    Inv d f chunks k { t with input_is_finished := true } := by
  obtain ⟨hended, hend, -⟩ := h.waits hnot
  exact { h.inv with
    queue := ⟨h.inv.queue.first_le, h.inv.queue.le_length, h.inv.queue.blocks⟩
    finished := fun _ => ⟨hk, hend⟩
    more := fun hc => absurd (hended.symm.trans hc) false_ne_true }

/-- What `work` does after the computation, and the output of ready blocks. -/
lemma output (hne : ∀ chunk ∈ chunks, chunk ≠ []) :
    Rest d f chunks k t.dropBlocks.pushBlocks ∧
      t.dropBlocks.pushBlocks.next_output_block_number = t.current_row.block ∧
      t.dropBlocks.pushBlocks.input_is_finished = t.input_is_finished := by
  have hdrop := h.inv.dropBlocks hne
  obtain ⟨output, heq, hinv⟩ := hdrop.pushBlocks hne
  rw [heq] at hinv ⊢
  have hsame : ∃ blocks first, t.dropBlocks =
      { t with blocks := blocks, first_block_number := first } := by
    rw [dropBlocks]
    split
    · exact ⟨_, _, rfl⟩
    · exact ⟨_, _, rfl⟩
  obtain ⟨blocks, first, hsame⟩ := hsame
  rw [hsame] at hinv ⊢
  exact ⟨⟨hinv, h.waits, h.done⟩, rfl, rfl⟩

variable [Std.TransOrd V]

variable (hd : Admitted d chunks.flatten) (hne : ∀ chunk ∈ chunks, chunk ≠ [])
    (hnot : t.input_is_finished = false)

include hd hne hnot in
/-- One chunk. -/
lemma receive (hk : k < chunks.length) :
    ∃ t', t.receive d f (chunks.get ⟨k, hk⟩) = some t' ∧ Rest d f chunks (k + 1) t' ∧
      t'.input_is_finished = false := by
  obtain ⟨t1, hprocess, hrest, hfin⟩ := (h.push hnot hk).processPartitions hd hne
  obtain ⟨hrest', -, hfin'⟩ := hrest.output hne
  refine ⟨_, ?_, hrest', hfin'.trans (hfin.trans hnot)⟩
  have hopen : ¬ t.input_is_finished = true := by
    rw [hnot]
    exact false_ne_true
  rw [WindowTransform.receive, work, appendChunk, if_neg hopen,
    if_neg (hne _ (get_mem _ _)), hprocess]
  rfl

include hd hne hnot in
/-- The end of the input: all blocks are out. -/
lemma receive_end (hk : k = chunks.length) :
    ∃ t', WindowTransform.receive { t with input_is_finished := true } d f [] = some t' ∧
      t'.output = (range chunks.length).map (blockOf d f chunks chunks.flatten.length) := by
  obtain ⟨t1, hprocess, hrest, hfin⟩ := (h.finish hnot hk).processPartitions hd hne
  obtain ⟨hrest', hnext, hfin'⟩ := hrest.output hne
  have hcurrent : t1.current_row = ⟨k, 0⟩ :=
    (eq_iff_pos_eq hrest.inv.valid_current_row (valid_start hne hk.le)).2 (hrest.done hfin)
  refine ⟨t1.dropBlocks.pushBlocks, ?_, ?_⟩
  · rw [WindowTransform.receive, work, appendChunk, if_pos rfl, hprocess]
    rfl
  · rw [hrest'.inv.output, hnext, hcurrent, hk]

end Rest

variable {d f chunks} [Std.TransOrd V]

/-- The chunks one after another. -/
lemma foldlM_receive (hd : Admitted d chunks.flatten) (hne : ∀ chunk ∈ chunks, chunk ≠ []) {n : ℕ}
    (hn : n ≤ chunks.length) :
    ∃ t, (chunks.take n).foldlM (fun t chunk => receive t d f chunk) (initial p q V A f) = some t ∧
      Rest d f chunks n t ∧ t.input_is_finished = false := by
  induction n with
  | zero => exact ⟨_, rfl, .initial hne, rfl⟩
  | succ n ih =>
    obtain ⟨t, hfold, hrest, hnot⟩ := ih (by omega)
    obtain ⟨t', hreceive, hrest', hnot'⟩ := hrest.receive hd hne hnot hn
    refine ⟨t', ?_, hrest', hnot'⟩
    rw [take_add_one, getElem?_eq_getElem hn, Option.toList_some, foldlM_append, hfold]
    simp only [Option.bind_eq_bind, Option.bind_some, foldlM_cons, foldlM_nil]
    rw [show t.receive d f chunks[n] = some t' from hreceive]
    rfl

/-- **The transform finds the frames of the whole input**, for every cut into chunks: each
block comes out with one result for each of its rows. -/
theorem run_eq (hd : Admitted d chunks.flatten) (hne : ∀ chunk ∈ chunks, chunk ≠ []) :
    run d f chunks =
      some ((range chunks.length).map (blockOf d f chunks chunks.flatten.length)) := by
  obtain ⟨t, hfold, hrest, hnot⟩ := foldlM_receive (f := f) hd hne (le_refl chunks.length)
  obtain ⟨t', hreceive, houtput⟩ := hrest.receive_end hd hne hnot rfl
  rw [take_length] at hfold
  rw [run, hfold]
  show (do
    let t ← receive { t with input_is_finished := true } d f []
    return t.output) = _
  rw [hreceive, ← houtput]
  rfl

end

end ClickHouse.Window
