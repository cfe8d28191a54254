/-
The cursors of `WindowTransform` as places in the input.

A run of the transform is looked at with all its chunks in view, those that have been
dropped and those that are still to come. Then a cursor has a place in the input, and
`Queue` says which part of the input the transform can see: the blocks from
`first_block_number` up to the `k` that it has received.

One lemma for each function of the transform that reads the queue or moves a cursor
through it, which says what it does in terms of places. Each asks that the cursors it
reads are in the queue; that they are is the business of the run.
-/
import ClickHouse.Processors.WindowFrames

set_option autoImplicit false

namespace ClickHouse.Window

open List WindowTransform Lib Nat
open Lib (scanUntil slice pos Valid blockStart blockSize)

section

variable {p q : ℕ} {V A S R : Type} [Ord V]
variable (d : WindowDescription q V) (f : AggregateFunction A S R)
variable (chunks : List (List (Row p q V A)))

/-! ## The queue -/

/-- The results in block `b` when those of the rows before `current` are written. -/
def resultsIn (current b : ℕ) : List R :=
  (List.range' (blockStart chunks b)
    (min current (blockStart chunks (b + 1)) - blockStart chunks b)).map
      (resultOf d chunks.flatten f)

def blockOf (current b : ℕ) : WindowTransformBlock p q V A R :=
  ⟨chunks[b]?.getD [], resultsIn d f chunks current b⟩

/-- `k` chunks have been received and the rows before `current` have their results. -/
structure Queue (k current : ℕ) (t : WindowTransform p q V A S R) : Prop where
  first_le : t.first_block_number ≤ k
  le_length : k ≤ chunks.length
  blocks : t.blocks = (List.range' t.first_block_number (k - t.first_block_number)).map
    (blockOf d f chunks current)

namespace Queue

variable {d f chunks} {k current : ℕ} {t : WindowTransform p q V A S R}
variable (h : Queue d f chunks k current t)
include h

lemma blockAt_eq {b : ℕ} (hfirst : t.first_block_number ≤ b) (hk : b < k) :
    t.blockAt b = some (blockOf d f chunks current b) := by
  rw [blockAt, if_pos hfirst, h.blocks, getElem?_map, getElem?_range' (by omega), Option.map_some]
  congr 2
  omega

lemma blockRows_eq {b : ℕ} (hfirst : t.first_block_number ≤ b) (hk : b < k) :
    t.blockRows b = chunks[b]?.getD [] := by
  rw [blockRows, h.blockAt_eq hfirst hk]
  rfl

variable {x : RowNumber}

variable (hfirst : t.first_block_number ≤ x.block) (hk : x.block < k)

include hfirst hk in
lemma blockRowsNumber_eq
    : t.blockRowsNumber x = blockSize chunks x.block := by
  rw [blockRowsNumber, h.blockRows_eq hfirst hk, blockSize]

include hfirst hk in
lemma inputAt_eq
    (hx : Valid chunks x) : t.inputAt x = chunks.flatten[pos chunks x]? := by
  rw [inputAt, h.blockRows_eq hfirst hk, getElem?_pos (hx.row_lt (hk.trans_le h.le_length))]

lemma blocksEnd_eq : t.blocksEnd = ⟨k, 0⟩ := by
  have := h.first_le
  rw [blocksEnd, h.blocks, length_map, length_range']
  congr
  omega

include hfirst hk in
lemma advanceRowNumber_eq
    : t.advanceRowNumber x = next chunks x := by
  rw [advanceRowNumber, h.blockRowsNumber_eq hfirst hk, Lib.next]

lemma rowsInBlocks_eq :
    t.rowsInBlocks + blockStart chunks t.first_block_number = blockStart chunks k := by
  have hsum : ∀ n, ((range' t.first_block_number n).map (blockSize chunks)).sum +
      blockStart chunks t.first_block_number = blockStart chunks (t.first_block_number + n) := by
    intro n
    induction n with
    | zero => simp
    | succ n ih =>
      rw [range'_concat, map_append, List.sum_append, ← add_assoc, blockStart_succ, ← ih]
      simp
      omega
  have hk := hsum (k - t.first_block_number)
  rw [Nat.add_sub_cancel' h.first_le] at hk
  rw [rowsInBlocks, h.blocks, map_map, ← hk]
  rfl

end Queue

/-- The cursor is at a row of the queue. -/
structure Held (k : ℕ) (t : WindowTransform p q V A S R) (x : RowNumber) : Prop where
  valid : Valid chunks x
  first_le : t.first_block_number ≤ x.block
  lt : pos chunks x < blockStart chunks k

variable {d f chunks} {k current : ℕ} {t : WindowTransform p q V A S R} {x y : RowNumber}

omit [Ord V] in
lemma Held.block_lt (hx : Held chunks k t x) : x.block < k := block_lt_of_pos_lt hx.lt

namespace Queue

variable (h : Queue d f chunks k current t)
include h

lemma inputAt_held (hx : Held chunks k t x) : t.inputAt x = chunks.flatten[pos chunks x]? :=
  h.inputAt_eq hx.first_le hx.block_lt hx.valid

lemma row_lt (hx : Held chunks k t x) : x.row < blockSize chunks x.block :=
  hx.valid.row_lt (hx.block_lt.trans_le h.le_length)

lemma pos_advance (hx : Held chunks k t x) :
    pos chunks (t.advanceRowNumber x) = pos chunks x + 1 := by
  rw [h.advanceRowNumber_eq hx.first_le hx.block_lt, pos_next (h.row_lt hx)]

lemma valid_advance (hne : ∀ chunk ∈ chunks, chunk ≠ []) (hx : Held chunks k t x) :
    Valid chunks (t.advanceRowNumber x) := by
  rw [h.advanceRowNumber_eq hx.first_le hx.block_lt]
  exact valid_next hne (h.row_lt hx)

lemma le_rowsInBlocks (hx : t.first_block_number ≤ x.block) :
    blockStart chunks k ≤ t.rowsInBlocks + pos chunks x := by
  have hmono : blockStart chunks t.first_block_number ≤ blockStart chunks x.block :=
    blockStart_mono hx
  have := h.rowsInBlocks_eq
  rw [pos]
  omega

lemma both_eq (test : Row p q V A → Row p q V A → Bool) (hx : Held chunks k t x)
    (hy : Held chunks k t y) :
    t.both test x y = bothAt chunks.flatten test (pos chunks x) (pos chunks y) := by
  rw [both, bothAt, h.inputAt_held hx, h.inputAt_held hy]

lemma arePeers_eq (hx : Held chunks k t x) (hy : Held chunks k t y) :
    t.arePeers d x y = arePeersAt d chunks.flatten (pos chunks x) (pos chunks y) := by
  rw [arePeers, arePeersAt, h.both_eq _ hx hy]
  rw [decide_eq_decide.2 (eq_iff_pos_eq hx.valid hy.valid)]

/-! ## Searching -/

section

variable (hne : ∀ chunk ∈ chunks, chunk ≠ [])
include hne

/-- The search over the rows up to `partition_end`, by induction on its steps. -/
lemma scanRows_spec {stop : RowNumber → Bool} {stopAt : ℕ → Bool}
    (hend : Valid chunks t.partition_end) (hle : pos chunks t.partition_end ≤ blockStart chunks k)
    (hstop : ∀ y, Held chunks k t y → stop y = stopAt (pos chunks y)) {fuel : ℕ}
    (hx : Valid chunks x) (hfirst : t.first_block_number ≤ x.block)
    (hxend : pos chunks x ≤ pos chunks t.partition_end)
    (hfuel : pos chunks t.partition_end ≤ fuel + pos chunks x) :
    Valid chunks (t.scanRows stop fuel x) ∧
      pos chunks (t.scanRows stop fuel x) =
        scanUntil stopAt (pos chunks x) (pos chunks t.partition_end) := by
  induction fuel generalizing x with
  | zero =>
    rw [scanRows, scanUntil_of_le (by omega)]
    exact ⟨hx, rfl⟩
  | succ fuel ih =>
    rw [scanRows]
    by_cases hlt : x < t.partition_end
    · have hpos := (lt_iff_pos_lt hx hend).1 hlt
      have hheld : Held chunks k t x := ⟨hx, hfirst, by omega⟩
      rw [if_pos hlt, hstop x hheld, scanUntil_of_lt hpos]
      split_ifs with hs
      · exact ⟨hx, rfl⟩
      · -- the next row, which is in the queue or is its end
        rw [← h.pos_advance hheld]
        have hnext := h.valid_advance hne hheld
        have hadvance := h.pos_advance hheld
        exact ih hnext (hfirst.trans (block_mono hx hnext (by omega))) (by omega) (by omega)
    · have hpos := mt (lt_iff_pos_lt hx hend).2 hlt
      rw [if_neg hlt, scanUntil_of_le (by omega)]
      exact ⟨hx, rfl⟩

/-! ## Moving -/

/-- A move forward goes to the place at the offset, or stops at the end of the queue. -/
lemma moveForward_spec {fuel : ℕ} (offset : ℕ) (hx : Held chunks k t x)
    (hfuel : k ≤ fuel + x.block) :
    Valid chunks (t.moveForward fuel x offset).1 ∧
      pos chunks (t.moveForward fuel x offset).1 =
        min (blockStart chunks k) (pos chunks x + offset) ∧
      (t.moveForward fuel x offset).2 =
        pos chunks x + offset - pos chunks (t.moveForward fuel x offset).1 := by
  induction fuel generalizing x offset with
  | zero =>
    have := hx.block_lt
    omega
  | succ fuel ih =>
    have hblock := hx.block_lt
    have hsucc : blockStart chunks (x.block + 1) =
      blockStart chunks x.block + blockSize chunks x.block := blockStart_succ _
    have hmono : blockStart chunks (x.block + 1) ≤ blockStart chunks k := blockStart_mono hblock
    have hpos : pos chunks x = blockStart chunks x.block + x.row := rfl
    rw [moveForward, h.blockRowsNumber_eq hx.first_le hblock, h.blocksEnd_eq]
    split_ifs with hover
    · by_cases hend : (⟨x.block + 1, 0⟩ : RowNumber) = ⟨k, 0⟩
      · -- the block was the last one: the end of the queue
        rw [if_pos hend]
        have hk : x.block + 1 = k := congrArg Lib.Cursor.block hend
        refine ⟨valid_start hne (hk ▸ h.le_length), ?_, ?_⟩
        · simp only [pos_start, hk]
          rw [hk] at hsucc
          omega
        · simp only [pos_start]
          omega
      · -- the move goes on from the start of the next block
        rw [if_neg hend]
        have hk : x.block + 1 < k := by
          refine lt_of_le_of_ne hblock fun heq => hend ?_
          rw [← heq]
        have hlt : blockStart chunks (x.block + 1) < blockStart chunks k :=
          blockStart_strictMono hne hk h.le_length
        have hheld : Held chunks k t ⟨x.block + 1, 0⟩ :=
          ⟨valid_start hne (hk.le.trans h.le_length), hx.first_le.trans (le_succ _), hlt⟩
        obtain ⟨hvalid, hmoved, hleft⟩ :=
          ih (x.row + offset - blockSize chunks x.block) hheld (by
            show k ≤ fuel + (x.block + 1)
            omega)
        refine ⟨hvalid, ?_, ?_⟩
        · rw [hmoved, pos_start]
          omega
        · rw [hleft, pos_start]
          omega
    · -- the row is in the same block
      refine ⟨.inl (by simpa using hover), ?_, ?_⟩
      · show blockStart chunks x.block + (x.row + offset) = _
        omega
      · show (0 : ℤ) = _ - ((blockStart chunks x.block + (x.row + offset) : ℕ) : ℤ)
        omega

/-- A move backward goes to the place at the offset, or stops at the first block of the queue. -/
lemma moveBackward_spec {fuel : ℕ} (n : ℕ) (hx : Held chunks k t x)
    (hfuel : x.block < fuel + t.first_block_number) :
    Valid chunks (t.moveBackward fuel x n).1 ∧
      (pos chunks (t.moveBackward fuel x n).1 : ℤ) =
        max (blockStart chunks t.first_block_number : ℤ) (pos chunks x - n) ∧
      (t.moveBackward fuel x n).2 =
        pos chunks x - n - pos chunks (t.moveBackward fuel x n).1 := by
  induction fuel generalizing x n with
  | zero =>
    have := hx.first_le
    omega
  | succ fuel ih =>
    have hblock := hx.block_lt
    have hmono : blockStart chunks t.first_block_number ≤ blockStart chunks x.block :=
      blockStart_mono hx.first_le
    have hpos : pos chunks x = blockStart chunks x.block + x.row := rfl
    rw [moveBackward]
    by_cases hrow : n ≤ x.row
    · -- the row is in the same block
      rw [if_pos hrow]
      refine ⟨.inl ?_, ?_, ?_⟩
      · exact (sub_le _ _).trans_lt (h.row_lt hx)
      · show ((blockStart chunks x.block + (x.row - n) : ℕ) : ℤ) = _
        omega
      · show (0 : ℤ) = _ - ((blockStart chunks x.block + (x.row - n) : ℕ) : ℤ)
        omega
    · rw [if_neg hrow]
      split_ifs with hfirst
      · -- there is no block before it: the first row of the queue
        refine ⟨valid_start hne (hblock.le.trans h.le_length), ?_, ?_⟩
        · rw [pos_start]
          rw [hfirst] at hpos ⊢
          omega
        · rw [pos_start]
          omega
      · -- the move goes on from the last row of the block before it
        have hprev : x.block = x.block - 1 + 1 := by
          have := hx.first_le
          omega
        have hle : t.first_block_number ≤ x.block - 1 := by
          have := hx.first_le
          omega
        have hlen : x.block - 1 < chunks.length := by
          have := h.le_length
          omega
        have hsize := blockSize_pos hne hlen
        have hsucc : blockStart chunks x.block =
            blockStart chunks (x.block - 1) + blockSize chunks (x.block - 1) := by
          rw [← blockStart_succ, ← hprev]
        rw [h.blockRows_eq hle (by omega), ← blockSize]
        have hlast : pos chunks ⟨x.block - 1, blockSize chunks (x.block - 1) - 1⟩ + 1 =
            blockStart chunks x.block := by
          show blockStart chunks (x.block - 1) + (blockSize chunks (x.block - 1) - 1) + 1 = _
          omega
        have hheld : Held chunks k t ⟨x.block - 1, blockSize chunks (x.block - 1) - 1⟩ := by
          have := hx.lt
          exact ⟨.inl (sub_lt hsize one_pos), hle, by omega⟩
        obtain ⟨hvalid, hmoved, hleft⟩ := ih (n - x.row - 1) hheld (by
          show x.block - 1 < fuel + t.first_block_number
          omega)
        refine ⟨hvalid, ?_, ?_⟩
        · rw [hmoved]
          omega
        · rw [hleft]
          omega

/-- **`moveRowNumber`** goes as far as the queue allows, and returns the rest. -/
theorem moveRowNumber_spec (offset : ℤ) (hx : Held chunks k t x) :
    Valid chunks (t.moveRowNumber x offset).1 ∧
      pos chunks (t.moveRowNumber x offset).1 =
        clamp (blockStart chunks t.first_block_number) (blockStart chunks k)
          (pos chunks x + offset) ∧
      (t.moveRowNumber x offset).2 =
        pos chunks x + offset - pos chunks (t.moveRowNumber x offset).1 := by
  have hlen : t.blocks.length = k - t.first_block_number := by
    rw [h.blocks, length_map, length_range']
  have hlt := hx.lt
  have hblock := hx.block_lt
  have hfirst := hx.first_le
  have hmono : blockStart chunks t.first_block_number ≤ blockStart chunks x.block :=
    blockStart_mono hx.first_le
  have hpos : pos chunks x = blockStart chunks x.block + x.row := rfl
  -- a row in the queue is not its end
  have hend : x ≠ t.blocksEnd := by
    rw [h.blocksEnd_eq]
    rintro rfl
    exact absurd hlt (by simp)
  rw [moveRowNumber, clamp]
  rcases lt_trichotomy 0 offset with hoffset | rfl | hoffset
  · rw [if_pos ⟨hoffset, hend⟩]
    obtain ⟨hvalid, hmoved, hleft⟩ :=
      h.moveForward_spec hne offset.toNat hx
        (show k ≤ t.blocks.length + 1 + x.block by omega)
    exact ⟨hvalid, by omega, by omega⟩
  · rw [if_neg (by omega), if_neg (by omega)]
    refine ⟨hx.valid, ?_, ?_⟩
    · show pos chunks x = _
      omega
    · show (0 : ℤ) = _ - (pos chunks x : ℤ)
      omega
  · rw [if_neg (by omega), if_pos hoffset]
    obtain ⟨hvalid, hmoved, hleft⟩ :=
      h.moveBackward_spec hne (-offset).toNat hx
        (show x.block < t.blocks.length + 1 + t.first_block_number by omega)
    exact ⟨hvalid, by omega, by omega⟩

end

/-! ## Adding rows -/

/-- The rows that the loop adds for one block. -/
lemma slice_blockRows {b : ℕ} (hfirst : t.first_block_number ≤ b) (hk : b < k)
    (hx : x.block ≤ b) (hvalid : Valid chunks x) (hy : b ≤ y.block) (hy' : Valid chunks y)
    (hle : pos chunks x ≤ pos chunks y) :
    slice (t.blockRows b) (if b = x.block then x.row else 0)
        (if b = y.block then y.row else (t.blockRows b).length) =
      slice chunks.flatten (max (pos chunks x) (blockStart chunks b))
        (max (pos chunks x) (min (pos chunks y) (blockStart chunks (b + 1)))) := by
  have hlen := hk.trans_le h.le_length
  have hsucc : blockStart chunks (b + 1) = blockStart chunks b + blockSize chunks b :=
    blockStart_succ _
  rw [h.blockRows_eq hfirst hk, ← blockSize]
  -- a block adds its rows from `x` on if it is the first, and up to `y` if it is the last
  have hstart : max (pos chunks x) (blockStart chunks b) =
      blockStart chunks b + if b = x.block then x.row else 0 := by
    split
    · rename_i heq
      rw [heq, pos]
      omega
    · have := pos_lt_blockStart hvalid (show x.block < b by omega) hlen.le
      omega
  have hend : max (pos chunks x) (min (pos chunks y) (blockStart chunks (b + 1))) =
      blockStart chunks b + if b = y.block then y.row else blockSize chunks b := by
    have hxlt := pos_lt_blockStart hvalid (show x.block < b + 1 by omega) hlen
    split
    · rename_i heq
      have := pos_lt_blockStart hy' (show y.block < b + 1 by omega) hlen
      have : pos chunks y = blockStart chunks b + y.row := by rw [heq, pos]
      omega
    · have : blockStart chunks (b + 1) ≤ blockStart chunks y.block :=
        blockStart_mono (by omega)
      have : blockStart chunks y.block ≤ pos chunks y := le_add_right _ _
      omega
  rw [hstart, hend]
  refine (slice_block hlen ?_).symm
  split
  · rename_i heq
    rw [heq]
    exact (hy'.row_lt (heq ▸ hlen)).le
  · exact le_rfl

section

variable (hne : ∀ chunk ∈ chunks, chunk ≠ []) (hx : Valid chunks x)
  (hfirst : t.first_block_number ≤ x.block) (hy : Valid chunks y)
  (hle : pos chunks x ≤ pos chunks y) (hk : pos chunks y ≤ blockStart chunks k)
include hne hx hfirst hy hle hk

/-- What the loop over the blocks has added before the block `x.block + n`. -/
lemma addRows_blocks (state : S) (n : ℕ) (hn : x.block + n ≤ y.block + 1)
    (hrow : y.row = 0 → x.block + n ≤ y.block) :
    (range' x.block n).foldl (fun state block =>
        addBatchSinglePlace f (t.blockRows block) (if block = x.block then x.row else 0)
          (if block = y.block then y.row else (t.blockRows block).length) state) state =
      (slice chunks.flatten (pos chunks x)
        (max (pos chunks x) (min (pos chunks y) (blockStart chunks (x.block + n))))).foldl
          (fun state row => f.add state row.arguments) state := by
  have hyk : y.block < k ∨ y.block = k ∧ y.row ≤ 0 :=
    (le_iff_pos_le hy (valid_start hne h.le_length)).2 hk
  induction n with
  | zero =>
    have hbase : max (pos chunks x) (min (pos chunks y) (blockStart chunks (x.block + 0))) =
        pos chunks x := by
      rw [add_zero, pos]
      omega
    rw [hbase, slice_self]
    rfl
  | succ n ih =>
    have hy' : blockStart chunks (x.block + n) ≤ pos chunks y :=
      (blockStart_mono (by omega)).trans (le_add_right _ y.row)
    have hstart : max (pos chunks x) (min (pos chunks y) (blockStart chunks (x.block + n))) =
        max (pos chunks x) (blockStart chunks (x.block + n)) := by
      omega
    have hmono : blockStart chunks (x.block + n) ≤ blockStart chunks (x.block + n + 1) :=
      blockStart_mono (le_succ _)
    rw [range'_concat, foldl_append, ih (by omega) (fun hzero => by
      omega), foldl_cons, foldl_nil, one_mul,
      addBatchSinglePlace, h.slice_blockRows (by omega) (by omega) (by omega) hx
        (by omega) hy hle, ← foldl_append, hstart,
      slice_append_slice _ (le_max_left _ _) (by omega)]
    rfl

/-- **`addRows`** adds the rows from one cursor to the other. -/
theorem addRows_eq (state : S) :
    t.addRows f x y state =
      (slice chunks.flatten (pos chunks x) (pos chunks y)).foldl
        (fun state row => f.add state row.arguments) state := by
  have hblock := block_mono hx hy hle
  have hpos : pos chunks y = blockStart chunks y.block + y.row := rfl
  -- the induction is along the order, from any state in which only its vertices are unassigned
  have hsize : y.row ≠ 0 → pos chunks y < blockStart chunks (y.block + 1) := by
    intro hrow
    have hlt : y.row < blockSize chunks y.block := hy.resolve_right fun hend => hrow hend.2
    rw [blockStart_succ, hpos]
    omega
  rw [addRows]
  split
  · -- the cursor is at the start of a block, which then has no rows to add
    rename_i hrow
    rw [h.addRows_blocks hne hx hfirst hy hle hk state _ (by omega) (fun _ => by omega),
      Nat.add_sub_cancel' hblock, show max (pos chunks x) (min (pos chunks y)
        (blockStart chunks y.block)) = pos chunks y by omega]
  · -- the rows of the last block up to the cursor
    rename_i hrow
    rw [h.addRows_blocks hne hx hfirst hy hle hk state _ (by omega)
      (fun hzero => absurd hzero hrow),
      Nat.add_sub_cancel' (by omega), show max (pos chunks x) (min (pos chunks y)
        (blockStart chunks (y.block + 1))) = pos chunks y by omega]

end

/-! ## Writing results -/

omit h in
lemma resultsIn_succ {b : ℕ} (hb : blockStart chunks b ≤ current)
    (hlt : current < blockStart chunks (b + 1)) :
    resultsIn d f chunks (current + 1) b =
      resultsIn d f chunks current b ++ [resultOf d chunks.flatten f current] := by
  rw [resultsIn, resultsIn, show min (current + 1) (blockStart chunks (b + 1)) -
    blockStart chunks b =
      min current (blockStart chunks (b + 1)) - blockStart chunks b + 1 by omega,
    range'_concat, map_append, one_mul,
    show blockStart chunks b + (min current (blockStart chunks (b + 1)) - blockStart chunks b) =
      current by omega]
  rfl

omit h in
lemma resultsIn_succ_of_other {b : ℕ}
    (hb : current < blockStart chunks b ∨ blockStart chunks (b + 1) ≤ current) :
    resultsIn d f chunks (current + 1) b = resultsIn d f chunks current b := by
  rw [resultsIn, resultsIn, show min (current + 1) (blockStart chunks (b + 1)) -
    blockStart chunks b = min current (blockStart chunks (b + 1)) - blockStart chunks b by omega]

/-- The result of the current row is appended to its block. -/
lemma modify_eq (hx : Held chunks k t x) (hcurrent : pos chunks x = current) :
    (t.blocks.modify (x.block - t.first_block_number) fun block =>
      { block with
        output_columns := block.output_columns ++ [resultOf d chunks.flatten f current] }) =
      (range' t.first_block_number (k - t.first_block_number)).map
        (blockOf d f chunks (current + 1)) := by
  subst hcurrent
  have hfirst := hx.first_le
  have hstart : blockStart chunks x.block ≤ pos chunks x := le_add_right _ _
  have hend : pos chunks x < blockStart chunks (x.block + 1) := by
    have := h.row_lt hx
    rw [blockStart_succ, pos]
    omega
  refine ext_getElem? fun j => ?_
  rw [getElem?_modify, h.blocks, getElem?_map, getElem?_map]
  by_cases hj : j < k - t.first_block_number
  · rw [getElem?_range' hj, one_mul]
    by_cases heq : x.block - t.first_block_number = j
    · -- the block of the current row gets its result
      have hblock : t.first_block_number + j = x.block := by omega
      simp only [Option.map_some, heq, if_true, hblock, blockOf, resultsIn_succ hstart hend]
      rfl
    -- the current row is in no other block
    have hother : pos chunks x < blockStart chunks (t.first_block_number + j) ∨
        blockStart chunks (t.first_block_number + j + 1) ≤ pos chunks x := by
      rcases lt_or_ge x.block (t.first_block_number + j) with hlt | hge
      · exact .inl (hend.trans_le (blockStart_mono hlt))
      · refine .inr ((blockStart_mono ?_).trans hstart)
        omega
    simp only [Option.map_some, heq, if_false, blockOf, resultsIn_succ_of_other hother]
    rfl
  · rw [getElem?_eq_none (by simpa using hj)]
    rfl

end Queue

end

end ClickHouse.Window
