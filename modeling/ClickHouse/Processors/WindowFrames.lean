/-
The frames of a window over the whole input.

This is the search of `WindowTransform` without the queue of blocks: the cursors are
places in the input, the end of the partition is known, and no search ever has to wait.
The frame of a row starts from the frame of the row before, as in the transform.

The transform compares its cursors with each other and drops blocks that lie before all
of them. What makes this right is that no cursor ever goes back and that a frame does
not end before it starts: `frame_bounds`, by induction on the rows of a partition. The
proof has no use for the order of the rows. It needs that a row is not before the start of
a frame that starts at or before it, which is why a RANGE frame with offsets must not meet
a NaN: no row is at any distance from it, not even itself.
-/
import ClickHouse.Processors.WindowTransform

set_option autoImplicit false

namespace ClickHouse.Window

open List WindowTransform
open Lib (scanUntil le_scanUntil scanUntil_le)
open Column (Value compareAt isComparison_compareAt sign_nonneg sign_nonpos)

/-! ## What the constructor and the parser promise -/

/-- What rounding to the nearest value has: a result is on its side of the value, and the
order is kept. -/
structure FloatArithmetic.Lawful {V : Type} [Ord V] (arithmetic : FloatArithmetic V) : Prop where
  ge_sub : ∀ v n, (compare v (arithmetic.sub v n)).isGE = true
  le_add : ∀ v n, (compare v (arithmetic.add v n)).isLE = true
  sub_mono : ∀ {v w} n, (compare v w).isLE = true →
    (compare (arithmetic.sub v n) (arithmetic.sub w n)).isLE = true
  add_mono : ∀ {v w} n, (compare v w).isLE = true →
    (compare (arithmetic.add v n) (arithmetic.add w n)).isLE = true

namespace OrderType

variable {V : Type} [Ord V]

def Lawful : OrderType V → Prop
  | .integer _ => True
  | .float _ arithmetic => arithmetic.Lawful

/-- The values of a type that have an order: an integer of its range, or any
floating-point number but a NaN. -/
def Has : OrderType V → Value V → Prop
  | .integer type, .int z => type.min ≤ z ∧ z ≤ type.max
  | .float _ _, .other _ => True
  | _, _ => False

section Has

variable {x : Value V}

omit [Ord V]

lemma Has.eq_int {type : IntType} (h : (integer type : OrderType V).Has x) :
    ∃ z, x = .int z ∧ type.min ≤ z ∧ z ≤ type.max := by
  cases x with
  | int z => exact ⟨z, rfl, h⟩
  | null | nan | other v => exact h.elim

lemma Has.eq_other {digits : ℕ} {arithmetic : FloatArithmetic V}
    (h : (float digits arithmetic).Has x) : ∃ v, x = .other v := by
  cases x with
  | other v => exact ⟨v, rfl⟩
  | null | nan | int z => exact h.elim

end Has

end OrderType

/-- The windows that a transform is made for. -/
structure WindowDescription.Accepted {q : ℕ} {V : Type} [Ord V] (d : WindowDescription q V) :
    Prop where
  order : d.frame.checkOrder = .ok ()
  begin_offset : d.frame.begin_type = .Offset → d.frame.begin_offset < 2 ^ 63 - 1
  end_offset : d.frame.end_type = .Offset → d.frame.end_offset < 2 ^ 63 - 1
  one_column : d.frame.rangeOffset = true → q = 1
  converts : d.convertOffsets = true
  arithmetic : d.order_type.Lawful

section

variable {p q : ℕ} {V A S R : Type} [Ord V]
variable (d : WindowDescription q V) (input : List (Row p q V A))

/-- The ORDER BY column holds a NULL. -/
def IsNull (row : Row p q V A) : Prop := orderKey row = .null

/-- The ORDER BY column holds a value of its type that is not a NaN. -/
def HasValue (row : Row p q V A) : Prop := d.order_type.Has (orderKey row)

/-- A window and an input that its search can handle. -/
structure Admitted : Prop extends d.Accepted where
  keys : d.frame.rangeOffset = true → ∀ row ∈ input, IsNull row ∨ HasValue d row

/-! ## Places -/

/-- A test of two rows by their places in the whole input. -/
def bothAt (test : Row p q V A → Row p q V A → Bool) (i j : ℕ) : Bool :=
  WindowTransform.compareRows test input[i]? input[j]?

/-- The test of `advancePartitionEnd`, by places. -/
def samePartitionAt (i j : ℕ) : Bool := bothAt input WindowTransform.samePartition i j

/-- `arePeers`, by places. -/
def arePeersAt (i j : ℕ) : Bool :=
  WindowTransform.peers d (decide (i = j)) (bothAt input WindowTransform.sameOrder i j)

/-- The first row of the partition of row `i`. -/
def partitionStart : ℕ → ℕ
  | 0 => 0
  | i + 1 => if samePartitionAt input (partitionStart i) (i + 1) then partitionStart i else i + 1

/-- The end of the partition that starts at a row. -/
def partitionEnd (first : ℕ) : ℕ :=
  scanUntil (fun j => !samePartitionAt input first j) first input.length

/-! ## Frames -/

/-- The cursors after a row. -/
structure Frame where
  peer_group_start : ℕ
  frame_start : ℕ
  frame_end : ℕ
deriving DecidableEq, Repr

/-- A boundary that is an offset from the current row. -/
def signedOffset (offset : ℕ) (preceding : Bool) : ℤ := if preceding then -offset else offset

/-- A place kept inside the partition. -/
def clamp (first past : ℕ) (z : ℤ) : ℕ := (max (first : ℤ) (min (past : ℤ) z)).toNat

variable (first past : ℕ) (prev : Frame) (i : ℕ)

/-- The peer group of row `i`, from that of the row before. -/
def nextPeerGroup : ℕ :=
  if arePeersAt d input prev.peer_group_start i then prev.peer_group_start else i

/-- The start of the frame of row `i`. Only a RANGE offset is searched from the start before. -/
def nextStart : ℕ :=
  match d.frame.begin_type with
  | .Unbounded => first
  | .Current => nextPeerGroup d input prev i
  | .Offset =>
    match d.frame.type with
    | .ROWS => clamp first past (i + signedOffset d.frame.begin_offset d.frame.begin_preceding)
    | .RANGE => scanUntil (bothAt input (WindowTransform.startsFrame d) i) prev.frame_start past

/-- Where the end of the frame is looked for. -/
def endFrom : ℕ := max prev.frame_end (nextStart d input first past prev i)

/-- The end of the frame of row `i`. -/
def nextEnd : ℕ :=
  match d.frame.end_type with
  | .Current =>
    scanUntil (fun j => !arePeersAt d input i j) (endFrom d input first past prev i) past
  | .Unbounded => past
  | .Offset =>
    match d.frame.type with
    | .ROWS => clamp first past (i + signedOffset d.frame.end_offset d.frame.end_preceding + 1)
    | .RANGE =>
      scanUntil (bothAt input (WindowTransform.endsFrame d) i)
        (endFrom d input first past prev i) past

def nextFrame : Frame :=
  ⟨nextPeerGroup d input prev i, nextStart d input first past prev i,
    nextEnd d input first past prev i⟩

/-- The cursors before row `first + k`. -/
def frameBefore (first past : ℕ) : ℕ → Frame
  | 0 => ⟨first, first, first⟩
  | k + 1 => nextFrame d input first past (frameBefore first past k) (first + k)

/-- The frame of row `i`. -/
def frameOf (i : ℕ) : Frame :=
  let first := partitionStart input i
  frameBefore d input first (partitionEnd input first) (i - first + 1)

/-- The rows of the frame, in their order. -/
def frameRows (frame : Frame) : List (Row p q V A) :=
  Lib.slice input frame.frame_start frame.frame_end

/-- The state of the function after the rows, one after another. -/
def aggregate (f : AggregateFunction A S R) (rows : List (Row p q V A)) : S :=
  rows.foldl (fun state row => f.add state row.arguments) f.create

/-- The result for row `i`. -/
def resultOf (f : AggregateFunction A S R) (i : ℕ) : R :=
  f.insertResult (aggregate f (frameRows input (frameOf d input i)))

variable {d input first past prev i} {test : Row p q V A → Row p q V A → Bool} {i j : ℕ}

omit [Ord V] in
lemma bothAt_eq (hi : i < input.length) (hj : j < input.length) :
    bothAt input test i j = test (input.get ⟨i, hi⟩) (input.get ⟨j, hj⟩) := by
  rw [bothAt, getElem?_eq_getElem hi, getElem?_eq_getElem hj]
  rfl

omit [Ord V] in
lemma bothAt_eq_true_iff :
    bothAt input test i j = true ↔ ∃ (hi : i < input.length) (hj : j < input.length),
      test (input.get ⟨i, hi⟩) (input.get ⟨j, hj⟩) = true := by
  constructor
  · intro h
    by_cases hi : i < input.length
    · by_cases hj : j < input.length
      · refine ⟨hi, hj, ?_⟩
        rwa [bothAt_eq hi hj] at h
      · rw [bothAt, getElem?_eq_none (not_lt.1 hj)] at h
        cases hrow : input[i]? <;> rw [hrow] at h <;> cases h
    · rw [bothAt, getElem?_eq_none (not_lt.1 hi)] at h
      cases h
  · rintro ⟨hi, hj, h⟩
    rwa [bothAt_eq hi hj]

lemma arePeersAt_self : arePeersAt d input i i = true := by
  rw [arePeersAt, peers, decide_eq_true rfl, if_pos rfl]

lemma arePeersAt_rows (hrows : d.frame.type = .ROWS) (hne : i ≠ j) :
    arePeersAt d input i j = false := by
  rw [arePeersAt, peers, decide_eq_false hne, hrows]
  rfl

lemma nextStart_unbounded (hbegin : d.frame.begin_type = .Unbounded) :
    nextStart d input first past prev i = first := by
  rw [nextStart, hbegin]

lemma nextStart_current (hbegin : d.frame.begin_type = .Current) :
    nextStart d input first past prev i = nextPeerGroup d input prev i := by
  rw [nextStart, hbegin]

lemma nextStart_rows (htype : d.frame.type = .ROWS) (hbegin : d.frame.begin_type = .Offset) :
    nextStart d input first past prev i =
      clamp first past (i + signedOffset d.frame.begin_offset d.frame.begin_preceding) := by
  rw [nextStart, hbegin, htype]

lemma nextStart_range (htype : d.frame.type = .RANGE) (hbegin : d.frame.begin_type = .Offset) :
    nextStart d input first past prev i =
      scanUntil (bothAt input (startsFrame d) i) prev.frame_start past := by
  rw [nextStart, hbegin, htype]

lemma nextEnd_current (hend : d.frame.end_type = .Current) :
    nextEnd d input first past prev i =
      scanUntil (fun j => !arePeersAt d input i j) (endFrom d input first past prev i) past := by
  rw [nextEnd, hend]

lemma nextEnd_unbounded (hend : d.frame.end_type = .Unbounded) :
    nextEnd d input first past prev i = past := by
  rw [nextEnd, hend]

lemma nextEnd_rows (htype : d.frame.type = .ROWS) (hend : d.frame.end_type = .Offset) :
    nextEnd d input first past prev i =
      clamp first past (i + signedOffset d.frame.end_offset d.frame.end_preceding + 1) := by
  rw [nextEnd, hend, htype]

lemma nextEnd_range (htype : d.frame.type = .RANGE) (hend : d.frame.end_type = .Offset) :
    nextEnd d input first past prev i =
      scanUntil (bothAt input (endsFrame d) i) (endFrom d input first past prev i)
        past := by
  rw [nextEnd, hend, htype]

variable (d) in
/-- The end of the frame is looked for row by row. -/
def SearchesEnd : Prop :=
  d.frame.end_type = .Current ∨ d.frame.type = .RANGE ∧ d.frame.end_type = .Offset

variable (d input) in
def endStop (i j : ℕ) : Bool :=
  if d.frame.end_type = .Current then !arePeersAt d input i j
  else bothAt input (WindowTransform.endsFrame d) i j

lemma nextEnd_search (hsearch : SearchesEnd d) :
    nextEnd d input first past prev i =
      scanUntil (endStop d input i) (endFrom d input first past prev i) past := by
  rcases hsearch with hend | ⟨htype, hend⟩
  · have hstop : endStop d input i = fun j => !arePeersAt d input i j :=
      funext fun j => if_pos hend
    rw [nextEnd_current hend, hstop]
  · have hstop : endStop d input i = bothAt input (endsFrame d) i :=
      funext fun j => if_neg (by rw [hend]; exact BoundaryType.noConfusion)
    rw [nextEnd_range htype hend, hstop]

/-! ## No cursor goes back -/

lemma clamp_mono {z z' : ℤ} (h : z ≤ z') : clamp first past z ≤ clamp first past z' := by
  rw [clamp, clamp]
  omega

lemma first_le_clamp {z : ℤ} : first ≤ clamp first past z := by
  rw [clamp]
  omega

lemma clamp_le {z : ℤ} (h : first ≤ past) : clamp first past z ≤ past := by
  rw [clamp]
  omega

/-- The arithmetic of the offsets does not overflow. -/
lemma rowsOffset_eq {offset : ℕ} (h : offset < 2 ^ 63 - 1) (preceding : Bool) {plus : UInt64}
    (hplus : plus = 0 ∨ plus = 1) :
    rowsOffset offset preceding plus =
      signedOffset offset preceding + plus.toNat := by
  have hoffset : (UInt64.ofNat offset).toInt64.toInt = offset := by
    rw [UInt64.toInt64_ofNat', Int64.toInt_ofNat_of_lt (by omega)]
  have hint : plus.toInt64.toInt = plus.toNat := by
    rcases hplus with rfl | rfl <;> rfl
  have hle : plus.toNat ≤ 1 := by
    rcases hplus with rfl | rfl <;> decide
  rw [rowsOffset, signedOffset, UInt64.toInt64_add, UInt64.toInt64_mul,
    Int64.toInt_add, Int64.toInt_mul, hoffset, hint]
  cases preceding with
  | true =>
    -- the product with -1 is that of `Int64`, and stays in its range
    have hmul : ((offset : ℤ) * -1).bmod (2 ^ 64) = -offset := by
      rw [Int.bmod_eq_of_le (by omega) (by omega), mul_neg_one]
    rw [if_pos rfl, if_pos rfl, show (-1 : UInt64).toInt64.toInt = -1 from rfl, hmul,
      Int.bmod_eq_of_le (by omega) (by omega)]
  | false =>
    have hmul : ((offset : ℤ) * 1).bmod (2 ^ 64) = offset := by
      rw [Int.bmod_eq_of_le (by omega) (by omega), mul_one]
    rw [if_neg Bool.false_ne_true, if_neg Bool.false_ne_true,
      show (1 : UInt64).toInt64.toInt = 1 from rfl, hmul, Int.bmod_eq_of_le (by omega) (by omega)]

omit [Ord V] in
lemma direction_sign (d : WindowDescription q V) :
    direction d = 1 ∨ direction d = -1 := by
  rw [direction, front]
  split
  · exact (d.order_by _).direction_sign
  · exact .inl rfl

section Self

omit [Ord V] in
lemma HasValue.ne_null {x : Row p q V A} (hx : HasValue d x) : orderKey x ≠ .null := by
  intro hnull
  rw [HasValue, hnull] at hx
  cases htype : d.order_type <;> rw [htype] at hx <;> exact hx

variable {type : OrderType V} {x : Value V} {offset : ℕ}

/-- A value is not before itself moved back. -/
lemma OrderType.compareWithOffset_self_nonneg (htype : type.Lawful) (hx : type.Has x) :
    0 ≤ type.compareWithOffset x x offset true := by
  cases type with
  | integer type =>
    obtain ⟨z, rfl, hx⟩ := hx.eq_int
    rw [OrderType.compareWithOffset, compareValuesWithOffset]
    simp only [if_true]
    split_ifs <;> omega
  | float digits arithmetic =>
    obtain ⟨v, rfl⟩ := hx.eq_other
    rw [OrderType.compareWithOffset, compareValuesWithOffsetFloat, if_pos rfl]
    exact sign_nonneg.2 (htype.ge_sub v offset)

/-- A value is not after itself moved on. -/
lemma OrderType.compareWithOffset_self_nonpos (htype : type.Lawful) (hx : type.Has x) :
    type.compareWithOffset x x offset false ≤ 0 := by
  cases type with
  | integer type =>
    obtain ⟨z, rfl, hx⟩ := hx.eq_int
    rw [OrderType.compareWithOffset, compareValuesWithOffset]
    simp only [Bool.false_eq_true, if_false]
    split_ifs <;> omega
  | float digits arithmetic =>
    obtain ⟨v, rfl⟩ := hx.eq_other
    rw [OrderType.compareWithOffset, compareValuesWithOffsetFloat, if_neg Bool.false_ne_true]
    exact sign_nonpos.2 (htype.le_add v offset)

variable {x : Row p q V A}

lemma compareWithOffset_null_null {c : Row p q V A} {preceding : Bool} (hx : IsNull x)
    (hc : IsNull c) : compareWithOffset d offset preceding c x = 0 := by
  rw [IsNull] at hx hc
  rw [compareWithOffset, hx, hc, compareValuesWithOffsetNullable, zero_mul]

/-- Without NULLs it is the comparison of the type. -/
lemma compareWithOffset_eq {c : Row p q V A} {preceding : Bool} (hx : HasValue d x)
    (hc : HasValue d c) : compareWithOffset d offset preceding c x =
      d.order_type.compareWithOffset (orderKey x) (orderKey c) offset
        (preceding == decide (0 < direction d)) * direction d := by
  rw [compareWithOffset, compareValuesWithOffsetNullable]
  · exact hx.ne_null
  · exact hc.ne_null
  · exact fun h _ => hx.ne_null h

/-- A row lies in every frame that starts at or before it. -/
lemma compareWithOffset_self_nonneg (htype : d.order_type.Lawful)
    (hx : IsNull x ∨ HasValue d x) : 0 ≤ compareWithOffset d offset true x x := by
  rcases hx with hnull | hvalue
  · exact (compareWithOffset_null_null hnull hnull).ge
  rw [compareWithOffset_eq hvalue hvalue]
  rcases direction_sign d with h | h <;> rw [h]
  · simpa using OrderType.compareWithOffset_self_nonneg htype hvalue
  · simpa using OrderType.compareWithOffset_self_nonpos htype hvalue

/-- A row lies in every frame that ends at or after it. -/
lemma compareWithOffset_self_nonpos (htype : d.order_type.Lawful) (hvalue : HasValue d x) :
    compareWithOffset d offset false x x ≤ 0 := by
  rw [compareWithOffset_eq hvalue hvalue]
  rcases direction_sign d with h | h <;> rw [h]
  · simpa using OrderType.compareWithOffset_self_nonpos htype hvalue
  · simpa using OrderType.compareWithOffset_self_nonneg htype hvalue

end Self

lemma WindowDescription.Accepted.not_end_preceding (hd : d.Accepted)
    (hbegin : d.frame.begin_type = .Current)
    (hend : d.frame.end_type = .Offset) : d.frame.end_preceding = false := by
  have h := hd.order
  rw [WindowFrame.checkOrder, hbegin, hend] at h
  cases hp : d.frame.end_preceding with
  | false => rfl
  | true =>
    rw [hp] at h
    cases h

lemma WindowDescription.Accepted.begin_preceding (hd : d.Accepted)
    (hbegin : d.frame.begin_type = .Offset)
    (hend : d.frame.end_type = .Current) : d.frame.begin_preceding = true := by
  have h := hd.order
  rw [WindowFrame.checkOrder, hbegin, hend] at h
  cases hp : d.frame.begin_preceding with
  | true => rfl
  | false =>
    rw [hp] at h
    cases h

lemma WindowDescription.Accepted.signedOffset_le (hd : d.Accepted)
    (hbegin : d.frame.begin_type = .Offset) (hend : d.frame.end_type = .Offset) :
    signedOffset d.frame.begin_offset d.frame.begin_preceding ≤
      signedOffset d.frame.end_offset d.frame.end_preceding := by
  have h := hd.order
  rw [WindowFrame.checkOrder, hbegin, hend] at h
  cases hb : d.frame.begin_preceding <;> cases he : d.frame.end_preceding <;>
    simp [hb, he, signedOffset] at h ⊢ <;> omega

variable (d first past) in
/-- The cursors before row `i`. -/
structure Bounded (i : ℕ) (frame : Frame) : Prop where
  first_le_start : first ≤ frame.frame_start
  start_le_end : frame.frame_start ≤ frame.frame_end
  end_le : frame.frame_end ≤ past
  first_le_peer : first ≤ frame.peer_group_start
  peer_le : frame.peer_group_start ≤ i
  -- a frame that does not start at an offset FOLLOWING has started when its row comes
  start_le : d.frame.begin_type ≠ .Offset ∨ d.frame.begin_preceding = true → frame.frame_start ≤ i
  start_unbounded : d.frame.begin_type = .Unbounded → frame.frame_start = first
  start_current : d.frame.begin_type = .Current → frame.frame_start = frame.peer_group_start
  -- the start only moves forward, so that it is not past the place for row `i`
  start_rows : d.frame.type = .ROWS → d.frame.begin_type = .Offset → frame.frame_start ≤
    clamp first past (i + signedOffset d.frame.begin_offset d.frame.begin_preceding)
  end_rows : d.frame.type = .ROWS → d.frame.end_type = .Offset → frame.frame_end ≤
    clamp first past (i + signedOffset d.frame.end_offset d.frame.end_preceding + 1)
  end_current : d.frame.end_type = .Current → i ≤ frame.frame_end

namespace Bounded

variable (d input prev i) in
lemma nextPeerGroup_cases : nextPeerGroup d input prev i = prev.peer_group_start ∨
    nextPeerGroup d input prev i = i := by
  rw [nextPeerGroup]
  split
  · exact .inl rfl
  · exact .inr rfl

lemma nextPeerGroup_rows (hrows : d.frame.type = .ROWS) : nextPeerGroup d input prev i = i := by
  rw [nextPeerGroup]
  by_cases heq : prev.peer_group_start = i
  · rw [heq, ite_self]
  · rw [arePeersAt_rows hrows heq, if_neg Bool.false_ne_true]

variable (h : Bounded d first past i prev)
include h

omit [Ord V] in
lemma first_le : first ≤ i := h.first_le_peer.trans h.peer_le

lemma nextPeerGroup_le : nextPeerGroup d input prev i ≤ i := by
  rcases nextPeerGroup_cases d input prev i with h' | h'
  · exact h'.trans_le h.peer_le
  · exact h'.le

lemma first_le_nextPeerGroup : first ≤ nextPeerGroup d input prev i := by
  rcases nextPeerGroup_cases d input prev i with h' | h'
  · exact h.first_le_peer.trans_eq h'.symm
  · exact h.first_le.trans_eq h'.symm

lemma start_le_nextStart : prev.frame_start ≤ nextStart d input first past prev i := by
  cases hbegin : d.frame.begin_type with
  | Unbounded => rw [nextStart_unbounded hbegin, h.start_unbounded hbegin]
  | Current =>
    rw [nextStart_current hbegin, h.start_current hbegin]
    rcases nextPeerGroup_cases d input prev i with h' | h'
    · exact h'.ge
    · exact h.peer_le.trans_eq h'.symm
  | Offset =>
    cases htype : d.frame.type with
    | ROWS =>
      rw [nextStart_rows htype hbegin]
      exact h.start_rows htype hbegin
    | RANGE =>
      rw [nextStart_range htype hbegin]
      exact le_scanUntil (h.start_le_end.trans h.end_le)

variable (hi : i < past)
include hi

lemma nextStart_le : nextStart d input first past prev i ≤ past := by
  cases hbegin : d.frame.begin_type with
  | Unbounded =>
    rw [nextStart_unbounded hbegin]
    exact h.first_le.trans hi.le
  | Current =>
    rw [nextStart_current hbegin]
    exact h.nextPeerGroup_le.trans hi.le
  | Offset =>
    cases htype : d.frame.type with
    | ROWS =>
      rw [nextStart_rows htype hbegin]
      exact clamp_le (h.first_le.trans hi.le)
    | RANGE =>
      rw [nextStart_range htype hbegin]
      exact scanUntil_le (h.start_le_end.trans h.end_le)

lemma endFrom_le : endFrom d input first past prev i ≤ past := max_le h.end_le (h.nextStart_le hi)

/-- A frame that was accepted does not end before it starts. -/
lemma nextStart_le_nextEnd (hd : d.Accepted) :
    nextStart d input first past prev i ≤ nextEnd d input first past prev i := by
  cases hend : d.frame.end_type with
  | Unbounded =>
    rw [nextEnd_unbounded hend]
    exact h.nextStart_le hi
  | Current =>
    rw [nextEnd_current hend]
    exact (le_max_right _ _).trans (le_scanUntil (h.endFrom_le hi))
  | Offset =>
    cases htype : d.frame.type with
    | RANGE =>
      rw [nextEnd_range htype hend]
      exact (le_max_right _ _).trans (le_scanUntil (h.endFrom_le hi))
    | ROWS =>
      rw [nextEnd_rows htype hend]
      cases hbegin : d.frame.begin_type with
      | Unbounded =>
        rw [nextStart_unbounded hbegin]
        exact first_le_clamp
      | Current =>
        -- a frame from the current row does not end before it
        rw [nextStart_current hbegin, nextPeerGroup_rows htype, hd.not_end_preceding hbegin hend,
          clamp, signedOffset]
        simp only [Bool.false_eq_true, if_false]
        omega
      | Offset =>
        rw [nextStart_rows htype hbegin]
        -- the check of the frame lets only offsets through that are in order
        have := hd.signedOffset_le hbegin hend
        exact clamp_mono (by omega)

lemma end_le_nextEnd : prev.frame_end ≤ nextEnd d input first past prev i := by
  cases hend : d.frame.end_type with
  | Unbounded =>
    rw [nextEnd_unbounded hend]
    exact h.end_le
  | Current =>
    rw [nextEnd_current hend]
    exact (le_max_left _ _).trans (le_scanUntil (h.endFrom_le hi))
  | Offset =>
    cases htype : d.frame.type with
    | RANGE =>
      rw [nextEnd_range htype hend]
      exact (le_max_left _ _).trans (le_scanUntil (h.endFrom_le hi))
    | ROWS =>
      rw [nextEnd_rows htype hend]
      exact h.end_rows htype hend

lemma nextEnd_le : nextEnd d input first past prev i ≤ past := by
  cases hend : d.frame.end_type with
  | Unbounded => rw [nextEnd_unbounded hend]
  | Current =>
    rw [nextEnd_current hend]
    exact scanUntil_le (h.endFrom_le hi)
  | Offset =>
    cases htype : d.frame.type with
    | RANGE =>
      rw [nextEnd_range htype hend]
      exact scanUntil_le (h.endFrom_le hi)
    | ROWS =>
      rw [nextEnd_rows htype hend]
      exact clamp_le (h.first_le.trans hi.le)

/-- A frame that may start at its row does not start after it. -/
lemma nextStart_le_self (hd : Admitted d input) (hlen : past ≤ input.length)
    (hbegin : d.frame.begin_type ≠ .Offset ∨ d.frame.begin_preceding = true) :
    nextStart d input first past prev i ≤ i := by
  have hfirst := h.first_le
  cases hoffset : d.frame.begin_type with
  | Unbounded => rwa [nextStart_unbounded hoffset]
  | Current =>
    rw [nextStart_current hoffset]
    exact h.nextPeerGroup_le
  | Offset =>
    have hpreceding : d.frame.begin_preceding = true := hbegin.resolve_left (· hoffset)
    cases htype : d.frame.type with
    | ROWS =>
      rw [nextStart_rows htype hoffset, hpreceding, clamp, signedOffset]
      simp only [if_true]
      omega
    | RANGE =>
      rw [nextStart_range htype hoffset]
      -- the search stops at the row itself at the latest
      by_contra hlt
      have hstop := Lib.stop_of_lt_scanUntil (h.start_le_end.trans h.end_le) (h.start_le hbegin)
        (not_le.1 hlt)
      have hself : 0 ≤ compareWithOffset d d.frame.begin_offset true
        (input.get ⟨i, hi.trans_le hlen⟩) (input.get ⟨i, hi.trans_le hlen⟩) :=
        compareWithOffset_self_nonneg hd.arithmetic
          (hd.keys (decide_eq_true ⟨htype, .inl hoffset⟩) _ (get_mem _ _))
      rw [bothAt_eq (hi.trans_le hlen) (hi.trans_le hlen)] at hstop
      simp only [startsFrame, hpreceding, decide_eq_false_iff_not] at hstop
      exact hstop hself

/-- The frame up to the current row ends after it. -/
lemma lt_nextEnd (hend : d.frame.end_type = .Current) :
    i < nextEnd d input first past prev i := by
  have hfrom : i ≤ endFrom d input first past prev i := (h.end_current hend).trans (le_max_left _ _)
  rw [nextEnd_current hend]
  refine lt_of_le_of_ne (hfrom.trans (le_scanUntil (h.endFrom_le hi))) fun heq => ?_
  have hstop := Lib.stop_scanUntil (h.endFrom_le hi) (heq ▸ hi)
  rw [← heq, arePeersAt_self] at hstop
  cases hstop

/-- **One row.** -/
theorem next (hd : Admitted d input) (hlen : past ≤ input.length) :
    Bounded d first past (i + 1) (nextFrame d input first past prev i) where
  first_le_start := h.first_le_start.trans h.start_le_nextStart
  start_le_end := h.nextStart_le_nextEnd hi hd.toAccepted
  end_le := h.nextEnd_le hi
  first_le_peer := h.first_le_nextPeerGroup
  peer_le := h.nextPeerGroup_le.trans (Nat.le_succ i)
  start_le hbegin := (h.nextStart_le_self hi hd hlen hbegin).trans (Nat.le_succ i)
  start_unbounded hbegin := nextStart_unbounded hbegin
  start_current hbegin := nextStart_current hbegin
  start_rows htype hbegin := (nextStart_rows htype hbegin).trans_le (clamp_mono (by omega))
  end_rows htype hend := (nextEnd_rows htype hend).trans_le (clamp_mono (by omega))
  end_current hend := h.lt_nextEnd hi hend

omit h hi

omit [Ord V] in
/-- Before the first row. -/
lemma initial (hfirst : first ≤ past) : Bounded d first past first ⟨first, first, first⟩ where
  first_le_start := le_rfl
  start_le_end := le_rfl
  end_le := hfirst
  first_le_peer := le_rfl
  peer_le := le_rfl
  start_le _ := le_rfl
  start_unbounded _ := rfl
  start_current _ := rfl
  start_rows _ _ := first_le_clamp
  end_rows _ _ := first_le_clamp
  end_current _ := le_rfl

end Bounded

/-- **No cursor goes back**, and no frame ends before it starts. -/
theorem frame_bounds (hd : Admitted d input) (hlen : past ≤ input.length) {k : ℕ}
    (hk : first + k ≤ past) :
    Bounded d first past (first + k) (frameBefore d input first past k) := by
  induction k with
  | zero => exact .initial hk
  | succ k ih => exact (ih (by omega)).next (by omega) hd hlen

/-! ## Partitions -/

section Partitions

variable [Std.TransOrd V] {j : ℕ}

lemma samePartition_trans {x y z : Row p q V A} (hxy : samePartition x y = true)
    (hyz : samePartition y z = true) :
    samePartition x z = true := by
  rw [samePartition, decide_eq_true_eq] at hxy hyz ⊢
  exact fun i => (isComparison_compareAt (.inl rfl)).eq_trans (hyz i) (hxy i)

lemma samePartition_symm {x y : Row p q V A} (hxy : samePartition x y = true) :
    samePartition y x = true := by
  rw [samePartition, decide_eq_true_eq] at hxy ⊢
  exact fun i => (isComparison_compareAt (.inl rfl)).eq_symm (hxy i)

omit [Std.TransOrd V] in
lemma samePartitionAt_iff : samePartitionAt input i j = true ↔
    ∃ (hi : i < input.length) (hj : j < input.length),
      samePartition (input.get ⟨i, hi⟩) (input.get ⟨j, hj⟩) = true :=
  bothAt_eq_true_iff

lemma samePartitionAt_self (hi : i < input.length) : samePartitionAt input i i = true :=
  samePartitionAt_iff.2 ⟨hi, hi, decide_eq_true fun _ =>
    (isComparison_compareAt (.inl rfl)).self _⟩

lemma samePartitionAt_symm (h : samePartitionAt input i j = true) :
    samePartitionAt input j i = true := by
  obtain ⟨hi, hj, h⟩ := samePartitionAt_iff.1 h
  exact samePartitionAt_iff.2 ⟨hj, hi, samePartition_symm h⟩

lemma samePartitionAt_trans {k : ℕ} (hij : samePartitionAt input i j = true)
    (hjk : samePartitionAt input j k = true) : samePartitionAt input i k = true := by
  obtain ⟨hi, hj, h⟩ := samePartitionAt_iff.1 hij
  obtain ⟨hj, hk, h'⟩ := samePartitionAt_iff.1 hjk
  exact samePartitionAt_iff.2 ⟨hi, hk, samePartition_trans h h'⟩

/-- Any row of the partition serves as the one to compare with. -/
lemma samePartitionAt_congr {k : ℕ} (hij : samePartitionAt input i j = true) :
    samePartitionAt input j k = samePartitionAt input i k := by
  rw [Bool.eq_iff_iff]
  exact ⟨samePartitionAt_trans hij, samePartitionAt_trans (samePartitionAt_symm hij)⟩

omit [Std.TransOrd V] in
lemma partitionEnd_spec (hfirst : first ≤ input.length) :
    first ≤ partitionEnd input first ∧ partitionEnd input first ≤ input.length ∧
      (∀ j, first ≤ j → j < partitionEnd input first → samePartitionAt input first j = true) ∧
      (partitionEnd input first < input.length →
        samePartitionAt input first (partitionEnd input first) = false) := by
  obtain ⟨h1, h2, h3, h4⟩ := Lib.scanUntil_spec hfirst
  refine ⟨h1, h2, fun j hj hlt => ?_, fun hlt => ?_⟩
  · simpa using h3 j hj hlt
  · have hstop := h4 hlt
    simp only [Bool.not_eq_true'] at hstop
    exact hstop

lemma lt_partitionEnd (hfirst : first < input.length) : first < partitionEnd input first := by
  obtain ⟨hle, -, -, hend⟩ := partitionEnd_spec hfirst.le
  refine lt_of_le_of_ne hle fun heq => ?_
  rw [← heq, samePartitionAt_self hfirst] at hend
  cases hend hfirst

omit [Std.TransOrd V] in
lemma le_partitionEnd {m : ℕ} (hfirst : first ≤ m) (hm : m ≤ input.length)
    (hsame : ∀ j, first ≤ j → j < m → samePartitionAt input first j = true) :
    m ≤ partitionEnd input first := by
  obtain ⟨hle, -, -, hend⟩ := partitionEnd_spec (hfirst.trans hm)
  by_contra hlt
  have hnot := hend ((not_le.1 hlt).trans_le hm)
  rw [hsame _ hle (not_le.1 hlt)] at hnot
  cases hnot

omit [Std.TransOrd V] in
/-- All rows of a partition have its first row as their start. -/
lemma partitionStart_eq (hstart : partitionStart input first = first) (hj : first ≤ j)
    (hsame : ∀ j', first ≤ j' → j' ≤ j → samePartitionAt input first j' = true) :
    partitionStart input j = first := by
  induction hj with
  | refl => exact hstart
  | @step j hj ih =>
    rw [partitionStart, ih fun j' h1 h2 => hsame j' h1 (Nat.le_succ_of_le h2),
      if_pos (hsame _ (Nat.le_succ_of_le hj) le_rfl)]

omit [Std.TransOrd V] in
/-- The next partition starts where one ends. -/
lemma partitionStart_partitionEnd (hstart : partitionStart input first = first)
    (hlt : first < partitionEnd input first) (hend : partitionEnd input first < input.length) :
    partitionStart input (partitionEnd input first) = partitionEnd input first := by
  obtain ⟨-, -, hsame, hnot⟩ := partitionEnd_spec (hlt.trans hend).le
  have hnot := hnot hend
  obtain ⟨j, hj⟩ : ∃ j, partitionEnd input first = j + 1 :=
    Nat.exists_eq_succ_of_ne_zero (Nat.ne_zero_of_lt hlt)
  have hprev : partitionStart input j = first :=
    partitionStart_eq hstart (by omega) fun j' h1 h2 => hsame j' h1 (by omega)
  rw [hj] at hnot ⊢
  rw [partitionStart, hprev, hnot, if_neg Bool.false_ne_true]

end Partitions

end

end ClickHouse.Window
