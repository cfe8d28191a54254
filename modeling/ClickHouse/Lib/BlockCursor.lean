/-
Cursors into a sequence of blocks.

A sequence of rows arrives cut into blocks, and a place in it is a block number with a
row number inside the block. `pos` is the place in the sequence itself. On valid
cursors it is a strictly monotone bijection, so that every comparison and every move of
a cursor is one of a number (`lt_iff_pos_lt`, `pos_next`).

A program with cursors looks for the next row that meets a condition, and may have to
stop at the end of the blocks it has and go on when it has more. `scanUntil` is such a search
on numbers. `scan_resume` is the reason why the cut into blocks does not matter: a
search that found nothing so far may be restarted from where it is.
-/
import Mathlib

set_option autoImplicit false

namespace ClickHouse.Lib

open List Nat

/-! ## Searching forward -/

/-- At most `n` steps up from `a`, to the first place with `stop`. -/
def scanSteps (stop : ℕ → Bool) : ℕ → ℕ → ℕ
  | 0, a => a
  | n + 1, a => if stop a then a else scanSteps stop n (a + 1)

/-- `for (; a < b; ++a) if (stop(a)) break;` -/
def scanUntil (stop : ℕ → Bool) (a b : ℕ) : ℕ := scanSteps stop (b - a) a

section Scan

variable {stop stop' : ℕ → Bool} {a b c r : ℕ}

lemma scanUntil_of_le (h : b ≤ a) : scanUntil stop a b = a := by
  rw [scanUntil, Nat.sub_eq_zero_of_le h, scanSteps]

lemma scanUntil_of_lt (h : a < b) :
    scanUntil stop a b = if stop a then a else scanUntil stop (a + 1) b := by
  rw [scanUntil, scanUntil, show b - a = (b - (a + 1)) + 1 by omega, scanSteps]

variable (h : a ≤ b)

section

include h

/-- What the search ends with, by induction on the rows that are left. -/
lemma scanUntil_spec : a ≤ scanUntil stop a b ∧ scanUntil stop a b ≤ b ∧
    (∀ j, a ≤ j → j < scanUntil stop a b → stop j = false) ∧
    (scanUntil stop a b < b → stop (scanUntil stop a b) = true) := by
  induction h using decreasingInduction with
  | self =>
    rw [scanUntil_of_le le_rfl]
    exact ⟨le_rfl, le_rfl, fun j h1 h2 => by omega, fun h => by omega⟩
  | of_succ k hk ih =>
    rw [scanUntil_of_lt hk]
    obtain ⟨h1, h2, h3, h4⟩ := ih
    split_ifs with hstop
    · exact ⟨le_rfl, hk.le, fun j h1 h2 => by omega, fun _ => hstop⟩
    · refine ⟨by omega, h2, fun j hj hlt => ?_, h4⟩
      rcases hj.eq_or_lt with rfl | hj
      · simpa using hstop
      · exact h3 j hj hlt

lemma le_scanUntil : a ≤ scanUntil stop a b := (scanUntil_spec h).1

lemma scanUntil_le : scanUntil stop a b ≤ b := (scanUntil_spec h).2.1

lemma stop_of_lt_scanUntil {j : ℕ} (hj : a ≤ j) (hlt : j < scanUntil stop a b) :
    stop j = false := (scanUntil_spec h).2.2.1 j hj hlt

lemma stop_scanUntil (hlt : scanUntil stop a b < b) :
    stop (scanUntil stop a b) = true :=
  (scanUntil_spec h).2.2.2 hlt

lemma le_scanUntil_of_forall (hr : r ≤ b)
    (hno : ∀ j, a ≤ j → j < r → stop j = false) : r ≤ scanUntil stop a b := by
  by_contra hlt
  have hyes := stop_scanUntil h ((not_le.1 hlt).trans_le hr)
  rw [hno _ (le_scanUntil h) (not_le.1 hlt)] at hyes
  cases hyes

end

lemma scanUntil_eq (ha : a ≤ r) (hb : r ≤ b) (hno : ∀ j, a ≤ j → j < r → stop j = false)
    (hstop : r < b → stop r = true) : scanUntil stop a b = r := by
  have h := ha.trans hb
  rcases (le_scanUntil_of_forall h hb hno).eq_or_lt with heq | hlt
  · exact heq.symm
  · have := stop_of_lt_scanUntil h ha hlt
    rw [hstop (hlt.trans_le (scanUntil_le h))] at this
    cases this

include h in
/-- A search inside a block that starts at `s`. -/
lemma scanUntil_shift {s : ℕ} (heq : ∀ j, a ≤ j → j < b → stop' j = stop (s + j)) :
    s + scanUntil stop' a b = scanUntil stop (s + a) (s + b) := by
  refine (scanUntil_eq (Nat.add_le_add_left (le_scanUntil h) s)
    (Nat.add_le_add_left (scanUntil_le h) s)
    (fun j hj hlt => ?_) fun hlt => ?_).symm
  · obtain ⟨j, rfl⟩ := Nat.exists_eq_add_of_le ((le_add_right s a).trans hj)
    rw [add_le_add_iff_left] at hj
    rw [add_lt_add_iff_left] at hlt
    rw [← heq j hj (hlt.trans_le (scanUntil_le h)), stop_of_lt_scanUntil h hj hlt]
  · rw [add_lt_add_iff_left] at hlt
    rw [← heq _ (le_scanUntil h) hlt, stop_scanUntil h hlt]

end Scan

/-! ## Cursors -/

/-- A block and a row in it. -/
structure Cursor where
  block : ℕ := 0
  row : ℕ := 0
deriving DecidableEq, Repr

namespace Cursor

instance : LT Cursor := ⟨fun x y => x.block < y.block ∨ x.block = y.block ∧ x.row < y.row⟩

instance : LE Cursor := ⟨fun x y => x.block < y.block ∨ x.block = y.block ∧ x.row ≤ y.row⟩

instance (x y : Cursor) : Decidable (x < y) :=
  inferInstanceAs (Decidable (x.block < y.block ∨ x.block = y.block ∧ x.row < y.row))

instance (x y : Cursor) : Decidable (x ≤ y) :=
  inferInstanceAs (Decidable (x.block < y.block ∨ x.block = y.block ∧ x.row ≤ y.row))

lemma lt_def {x y : Cursor} :
    x < y ↔ x.block < y.block ∨ x.block = y.block ∧ x.row < y.row := Iff.rfl

lemma le_def {x y : Cursor} :
    x ≤ y ↔ x.block < y.block ∨ x.block = y.block ∧ x.row ≤ y.row := Iff.rfl

end Cursor

section Blocks

variable {α : Type*} (blocks : List (List α))

/-- The rows of a block; a block that is not there has none. -/
def blockSize (b : ℕ) : ℕ := (blocks[b]?.getD []).length

/-- Where a block starts in the sequence. -/
def blockStart (b : ℕ) : ℕ := (blocks.take b).flatten.length

/-- The place of a cursor in the sequence. -/
def pos (x : Cursor) : ℕ := blockStart blocks x.block + x.row

/-- The cursor is at a row, or behind the last block. -/
def Valid (x : Cursor) : Prop :=
  x.row < blockSize blocks x.block ∨ x.block = blocks.length ∧ x.row = 0

/-- The next row, in the next block if this was the last one of its block. -/
def next (x : Cursor) : Cursor :=
  if x.row + 1 < blockSize blocks x.block then ⟨x.block, x.row + 1⟩ else ⟨x.block + 1, 0⟩

variable {blocks} {x y : Cursor} {b c : ℕ}

lemma blockStart_succ (b : ℕ) :
    blockStart blocks (b + 1) = blockStart blocks b + blockSize blocks b := by
  rw [blockStart, blockStart, blockSize, take_add_one, flatten_append, length_append]
  cases blocks[b]? <;> simp

lemma blockStart_mono (h : b ≤ c) : blockStart blocks b ≤ blockStart blocks c := by
  induction h with
  | refl => exact le_rfl
  | step _ ih =>
    rw [blockStart_succ]
    exact ih.trans (le_add_right _ _)

lemma blockStart_length : blockStart blocks blocks.length = blocks.flatten.length := by
  rw [blockStart, take_length]

lemma block_lt_of_row_lt {r : ℕ} (h : r < blockSize blocks b) : b < blocks.length := by
  by_contra hb
  rw [blockSize, getElem?_eq_none (by omega)] at h
  simp at h

variable (hne : ∀ block ∈ blocks, block ≠ [])

include hne in
lemma blockSize_pos (h : b < blocks.length) :
    0 < blockSize blocks b := by
  rw [blockSize, getElem?_eq_getElem h]
  exact length_pos_iff.2 (hne _ (getElem_mem h))

include hne in
lemma blockStart_strictMono (h : b < c)
    (hc : c ≤ blocks.length) : blockStart blocks b < blockStart blocks c := by
  have hb := blockSize_pos hne (h.trans_le hc)
  have hmono : blockStart blocks (b + 1) ≤ blockStart blocks c := blockStart_mono h
  rw [blockStart_succ] at hmono
  omega

lemma Valid.block_le (h : Valid blocks x) : x.block ≤ blocks.length := by
  rcases h with h | ⟨h, -⟩
  · exact (block_lt_of_row_lt h).le
  · exact h.le

lemma Valid.row_lt (h : Valid blocks x) (hb : x.block < blocks.length) :
    x.row < blockSize blocks x.block := by
  rcases h with h | ⟨h, -⟩
  · exact h
  · omega

include hne in
lemma valid_start (h : b ≤ blocks.length) :
    Valid blocks ⟨b, 0⟩ := by
  rcases h.eq_or_lt with rfl | h
  · exact .inr ⟨rfl, rfl⟩
  · exact .inl (blockSize_pos hne h)

@[simp] lemma pos_start (b : ℕ) : pos blocks ⟨b, 0⟩ = blockStart blocks b := rfl

/-- A cursor that is in an earlier block is at an earlier place. -/
lemma pos_lt_blockStart (h : Valid blocks x) (hlt : x.block < c) (hc : c ≤ blocks.length) :
    pos blocks x < blockStart blocks c := by
  have hrow := h.row_lt (hlt.trans_le hc)
  have hmono : blockStart blocks (x.block + 1) ≤ blockStart blocks c := blockStart_mono hlt
  rw [blockStart_succ] at hmono
  rw [pos]
  omega

section

variable (hx : Valid blocks x) (hy : Valid blocks y)
include hx hy

lemma pos_lt_of_block_lt (h : x.block < y.block) : pos blocks x < pos blocks y :=
  (pos_lt_blockStart hx h hy.block_le).trans_le (le_add_right _ _)

/-- **Cursors are ordered** as their places are. -/
theorem lt_iff_pos_lt : x < y ↔ pos blocks x < pos blocks y := by
  rw [Cursor.lt_def]
  rcases lt_trichotomy x.block y.block with h | h | h
  · exact ⟨fun _ => pos_lt_of_block_lt hx hy h, fun _ => .inl h⟩
  · rw [pos, pos, h]
    omega
  · have := pos_lt_of_block_lt hy hx h
    omega

lemma le_iff_pos_le : x ≤ y ↔ pos blocks x ≤ pos blocks y := by
  rw [Cursor.le_def]
  rcases lt_trichotomy x.block y.block with h | h | h
  · exact ⟨fun _ => (pos_lt_of_block_lt hx hy h).le, fun _ => .inl h⟩
  · rw [pos, pos, h]
    omega
  · have := pos_lt_of_block_lt hy hx h
    omega

lemma eq_iff_pos_eq : x = y ↔ pos blocks x = pos blocks y := by
  constructor
  · rintro rfl
    rfl
  intro h
  rcases lt_trichotomy x.block y.block with hlt | heq | hlt
  · exact absurd h (pos_lt_of_block_lt hx hy hlt).ne
  · rw [pos, pos, heq] at h
    cases x
    cases y
    simp only [Cursor.mk.injEq]
    exact ⟨heq, by simpa using h⟩
  · exact absurd h (pos_lt_of_block_lt hy hx hlt).ne'

end

lemma block_lt_of_pos_lt (h : pos blocks x < blockStart blocks c) : x.block < c := by
  by_contra hge
  have hmono : blockStart blocks c ≤ blockStart blocks x.block := blockStart_mono (not_lt.1 hge)
  rw [pos] at h
  omega

lemma le_block_of_le_pos (hx : Valid blocks x) (hc : c ≤ blocks.length)
    (h : blockStart blocks c ≤ pos blocks x) : c ≤ x.block := by
  by_contra hlt
  exact absurd (pos_lt_blockStart hx (not_le.1 hlt) hc) (by omega)

lemma pos_next (h : x.row < blockSize blocks x.block) :
    pos blocks (next blocks x) = pos blocks x + 1 := by
  rw [next]
  split
  · rfl
  · rw [pos_start, blockStart_succ, pos]
    omega

include hne in
lemma valid_next (h : x.row < blockSize blocks x.block) :
    Valid blocks (next blocks x) := by
  rw [next]
  split
  · exact .inl ‹_›
  · exact valid_start hne (succ_le_of_lt (block_lt_of_row_lt h))

lemma block_mono (hx : Valid blocks x) (hy : Valid blocks y) (h : pos blocks x ≤ pos blocks y) :
    x.block ≤ y.block := by
  rw [← le_iff_pos_le hx hy, Cursor.le_def] at h
  omega

/-- The sequence around one block. -/
lemma flatten_split (h : b < blocks.length) : blocks.flatten =
    (blocks.take b).flatten ++ ((blocks[b]?.getD []) ++ (blocks.drop (b + 1)).flatten) := by
  rw [getElem?_eq_getElem h, Option.getD_some, ← flatten_cons,
    getElem_cons_drop, ← flatten_append, take_append_drop]

/-- The row at a cursor is the row of the sequence at its place. -/
lemma getElem?_pos (h : x.row < blockSize blocks x.block) :
    blocks.flatten[pos blocks x]? = (blocks[x.block]?.getD [])[x.row]? := by
  rw [flatten_split (block_lt_of_row_lt h), pos, blockStart,
    getElem?_append_right (le_add_right _ _), Nat.add_sub_cancel_left, getElem?_append_left h]

/-- The places of all blocks, one block after another. -/
lemma flatten_range_blocks : ((range blocks.length).map fun b =>
    range' (blockStart blocks b) (blockStart blocks (b + 1) - blockStart blocks b)).flatten =
      range blocks.flatten.length := by
  have hstep : ∀ n, ((range n).map fun b =>
      range' (blockStart blocks b) (blockStart blocks (b + 1) - blockStart blocks b)).flatten =
        range (blockStart blocks n) := by
    intro n
    induction n with
    | zero => rfl
    | succ n ih =>
      have hjoin := @range'_append 0 (blockStart blocks n) (blockSize blocks n) 1
      rw [one_mul, zero_add, ← range_eq_range'] at hjoin
      rw [range_succ, map_append, flatten_append, ih, map_singleton,
        flatten_singleton, blockStart_succ, Nat.add_sub_cancel_left, hjoin, range_eq_range']
  rw [hstep, blockStart_length]

/-! ## Slices -/

/-- The elements from place `a` up to place `b`. -/
def slice {β : Type*} (l : List β) (a b : ℕ) : List β := (l.take b).drop a

variable {β : Type*} (l : List β)

lemma slice_self (a : ℕ) : slice l a a = [] := by
  rw [slice, drop_take, Nat.sub_self, take_zero]

lemma slice_append_slice {a b c : ℕ} (hab : a ≤ b) (hbc : b ≤ c) :
    slice l a b ++ slice l b c = slice l a c := by
  rw [slice, slice, slice, drop_take, drop_take, drop_take,
    show c - a = b - a + (c - b) by omega, take_add, drop_drop, Nat.add_sub_cancel' hab]

lemma filterMap_range' (a m : ℕ) :
    (range' a m).filterMap (l[·]?) = (l.drop a).take m := by
  induction m generalizing a with
  | zero => rfl
  | succ m ih =>
    rw [range'_succ]
    rcases lt_or_ge a l.length with h | h
    · rw [filterMap_cons, getElem?_eq_getElem h, ih, drop_eq_getElem_cons h, take_succ_cons]
    · rw [filterMap_cons, getElem?_eq_none h, ih, drop_eq_nil_of_le h,
        drop_eq_nil_of_le (by omega), take_nil, take_nil]

/-- The rows of a slice are those whose numbers lie in it. -/
lemma slice_eq_filterMap {a b : ℕ} (hab : a ≤ b) (hb : b ≤ l.length)
    (mem : ℕ → Bool) (hmem : ∀ j < l.length, mem j = true ↔ a ≤ j ∧ j < b) :
    slice l a b = ((range l.length).filter mem).filterMap (l[·]?) := by
  -- the numbers before the slice, in it and behind it
  have hsplit : range l.length =
      range' 0 a ++ (range' a (b - a) ++ range' b (l.length - b)) := by
    have hright := @range'_append a (b - a) (l.length - b) 1
    have hleft := @range'_append 0 a (b - a + (l.length - b)) 1
    rw [one_mul, Nat.add_sub_cancel' hab] at hright
    rw [one_mul, zero_add] at hleft
    rw [hright, hleft, range_eq_range']
    congr 1
    omega
  have hbefore : (range' 0 a).filter mem = [] := filter_eq_nil_iff.2 fun j hj => by
    rw [mem_range'_1] at hj
    rw [hmem j (by omega)]
    omega
  have hwithin : (range' a (b - a)).filter mem = range' a (b - a) :=
    filter_eq_self.2 fun j hj => by
      rw [mem_range'_1] at hj
      rw [hmem j (by omega)]
      omega
  have hafter : (range' b (l.length - b)).filter mem = [] :=
    filter_eq_nil_iff.2 fun j hj => by
      rw [mem_range'_1] at hj
      rw [hmem j (by omega)]
      omega
  rw [hsplit, filter_append, filter_append, hbefore, hwithin, hafter, nil_append,
    append_nil, filterMap_range', slice, drop_take]

/-- A slice that lies in one block. -/
lemma slice_block {r r' : ℕ} (h : b < blocks.length) (hr : r' ≤ blockSize blocks b) :
    slice blocks.flatten (blockStart blocks b + r) (blockStart blocks b + r') =
      slice (blocks[b]?.getD []) r r' := by
  rw [slice, slice, flatten_split h, blockStart, take_length_add_append,
    drop_length_add_append, take_append_of_le_length hr]

end Blocks

end ClickHouse.Lib
