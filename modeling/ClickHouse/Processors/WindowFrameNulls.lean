/-
NULLs in the ORDER BY column of a RANGE frame with offsets.

A NULL has no distance to a value, so that the frame of a row with a value has no NULL in
it and the frame of a NULL consists of the NULLs. The comparison of the search,
`compareValuesWithOffsetNullable`, takes a NULL for less than every value and is then
multiplied by the direction. It does not know `nulls_direction`: it agrees with the order
of the rows for ASC NULLS FIRST and DESC NULLS LAST, and for the other two only where a
partition has no NULLs or nothing else. This holds for integers and for floating-point
numbers without NaNs.
-/
import ClickHouse.Processors.WindowFrameRows

set_option autoImplicit false

namespace ClickHouse.Window

open List
open Lib (scanUntil le_scanUntil scanUntil_le lex)
open Column (Value compareAt)
open WindowTransform (startsFrame endsFrame compareWithOffset direction)

section

variable {p q : ℕ} {V A S R : Type} [Ord V]
variable (d : WindowDescription q V) (input : List (Row p q V A))

/-- Row `i` is a NULL. -/
def NullAt (i : ℕ) : Prop := ∃ h : i < input.length, IsNull (input.get ⟨i, h⟩)

/-- The cursors of row `i` include row `j`. -/
def InFrameOf (i j : ℕ) : Prop :=
  (frameOf d input i).frame_start ≤ j ∧ j < (frameOf d input i).frame_end

/-- **NULLs and values are apart**: no frame of a value has a NULL, and the frame of a NULL
is the NULLs of its partition. -/
structure NullsApart : Prop where
  value : ∀ i j, i < input.length → ¬ NullAt input i → InFrameOf d input i j → ¬ NullAt input j
  null : ∀ i j, NullAt input i →
    (InFrameOf d input i j ↔ samePartitionAt input i j = true ∧ NullAt input j)

/-- No partition has both NULLs and values. -/
def Unmixed : Prop :=
  ∀ i j, samePartitionAt input i j = true → (NullAt input i ↔ NullAt input j)

variable {d input} {x c : Row p q V A} {offset : ℕ} {preceding : Bool} {i j : ℕ}

/-! ## Comparing with a NULL -/

lemma compareWithOffset_null_value (hx : IsNull x) (hc : HasValue d c) :
    compareWithOffset d offset preceding c x = -direction d := by
  rw [IsNull] at hx
  rw [compareWithOffset, hx, compareValuesWithOffsetNullable, neg_one_mul]
  exact hc.ne_null

lemma compareWithOffset_value_null (hx : HasValue d x) (hc : IsNull c) :
    compareWithOffset d offset preceding c x = direction d := by
  rw [IsNull] at hc
  rw [compareWithOffset, hc, compareValuesWithOffsetNullable, one_mul]
  exact hx.ne_null

omit [Ord V] in
lemma nullsDirection_sign (d : WindowDescription q V) :
    nullsDirection d = 1 ∨ nullsDirection d = -1 := by
  rw [nullsDirection, front]
  split
  · exact (d.order_by _).nulls_direction_sign
  · exact .inl rfl

/-- The order of two rows is that of their keys. -/
lemma order_eq (hq : q = 1) : lex (orderColumns d p V A) c x =
    direction d * compareAt (orderKey c) (orderKey x) (nullsDirection d) :=
  lex_order_of_one hq

/-- A NULL before a value. -/
lemma direction_of_null_le (hq : q = 1) (hc : IsNull c) (hx : HasValue d x)
    (hle : lex (orderColumns d p V A) c x ≤ 0) : direction d = -nullsDirection d := by
  rw [IsNull] at hc
  rw [order_eq hq, hc, compareAt] at hle
  · rcases direction_sign d with h | h <;> rcases nullsDirection_sign d with h' | h' <;>
      rw [h, h'] at hle ⊢ <;> omega
  · exact hx.ne_null

/-- A value before a NULL. -/
lemma direction_of_le_null (hq : q = 1) (hc : HasValue d c) (hx : IsNull x)
    (hle : lex (orderColumns d p V A) c x ≤ 0) : direction d = nullsDirection d := by
  rw [IsNull] at hx
  rw [order_eq hq, hx, compareAt] at hle
  · rcases direction_sign d with h | h <;> rcases nullsDirection_sign d with h' | h' <;>
      rw [h, h'] at hle ⊢ <;> omega
  · exact hc.ne_null

/-! ## Monotone search -/

variable (d) in
/-- A step in the order of the rows that takes NULLs for less than values. -/
inductive KeyStep (c c' : Row p q V A) : Prop where
  | nulls (h : IsNull c) (h' : IsNull c')
  | values (h : HasValue d c) (h' : HasValue d c')
      (hle : lex (orderColumns d p V A) c c' ≤ 0)
  | nullFirst (h : IsNull c) (h' : HasValue d c') (hdirection : direction d = 1)
  | nullLast (h : HasValue d c) (h' : IsNull c') (hdirection : direction d = -1)

section Steps

variable {x' c' : Row p q V A} [Std.TransOrd V]

/-- The search starts and ends later for a later row. -/
lemma KeyStep.compare_anti (hd : d.Accepted) (hq : q = 1) (hstep : KeyStep d c c')
    (hx : IsNull x ∨ HasValue d x) (offset : ℕ) (preceding : Bool) :
    (0 ≤ compareWithOffset d offset preceding c' x → 0 ≤ compareWithOffset d offset preceding c x) ∧
    (0 < compareWithOffset d offset preceding c' x →
      0 < compareWithOffset d offset preceding c x) := by
  rcases hx with hx | hx
  · cases hstep with
    | nulls h h' => simp [compareWithOffset_null_null, *]
    | values h h' hle => simp [compareWithOffset_null_value, *]
    | nullFirst h h' hdirection =>
      -- a NULL is before all values or behind them, whatever the offset
      rw [compareWithOffset_null_value hx h', hdirection]
      omega
    | nullLast h h' hdirection =>
      rw [compareWithOffset_null_value hx h, hdirection]
      omega
  · cases hstep with
    | nulls h h' => simp [compareWithOffset_value_null, *]
    | values h h' hle =>
      -- between values the comparison is monotone
      have hcompare : compareWithOffset d offset preceding c' x ≤
          compareWithOffset d offset preceding c x := compareWithOffset_anti hd hq hx h h' hle
      exact ⟨fun h => h.trans hcompare, fun h => h.trans_le hcompare⟩
    | nullFirst h h' hdirection =>
      rw [compareWithOffset_value_null hx h, hdirection]
      omega
    | nullLast h h' hdirection =>
      rw [compareWithOffset_value_null hx h', hdirection]
      omega

/-- A later row is further on. -/
lemma KeyStep.compare_mono (hq : q = 1) (hstep : KeyStep d x x') (hc : IsNull c ∨ HasValue d c)
    (offset : ℕ) (preceding : Bool) :
    (0 ≤ compareWithOffset d offset preceding c x → 0 ≤ compareWithOffset d offset preceding c x') ∧
    (0 < compareWithOffset d offset preceding c x →
      0 < compareWithOffset d offset preceding c x') := by
  rcases hc with hc | hc
  · cases hstep with
    | nulls h h' => simp [compareWithOffset_null_null, *]
    | values h h' hle => simp [compareWithOffset_value_null, *]
    | nullFirst h h' hdirection =>
      rw [compareWithOffset_value_null h' hc, hdirection]
      omega
    | nullLast h h' hdirection =>
      rw [compareWithOffset_value_null h hc, hdirection]
      omega
  · cases hstep with
    | nulls h h' => simp [compareWithOffset_null_value, *]
    | values h h' hle =>
      have hcompare : compareWithOffset d offset preceding c x ≤
          compareWithOffset d offset preceding c x' := compareWithOffset_mono hq h h' hc hle
      exact ⟨fun h => h.trans hcompare, fun h => h.trans_le hcompare⟩
    | nullFirst h h' hdirection =>
      rw [compareWithOffset_null_value h hc, hdirection]
      omega
    | nullLast h h' hdirection =>
      rw [compareWithOffset_null_value h' hc, hdirection]
      omega

end Steps

section Frames

variable [Std.TransOrd V] (hd : d.Accepted) (hsorted : Sorted d input)
  (hrange : d.frame.rangeOffset = true)
  (hkeys : ∀ row ∈ input, IsNull row ∨ HasValue d row)

omit [Ord V] [Std.TransOrd V] in
include hkeys in
lemma hasValue_of_not_nullAt (hi : i < input.length) (h : ¬ NullAt input i) :
    HasValue d (input.get ⟨i, hi⟩) :=
  (hkeys _ (get_mem _ _)).resolve_left fun hnull => h ⟨hi, hnull⟩

include hsorted hrange hd hkeys

/-- Where a NULL stands before a value. -/
lemma direction_of_nullAt_le (hij : i ≤ j) (hsame : samePartitionAt input i j = true)
    (hi : NullAt input i) (hj : ¬ NullAt input j) : direction d = -nullsDirection d := by
  obtain ⟨_, hjlen, hle⟩ := hsorted.order_le hij hsame
  obtain ⟨_, hnull⟩ := hi
  exact direction_of_null_le (hd.one_column hrange) hnull
    (hasValue_of_not_nullAt hkeys hjlen hj) hle

/-- Where a value stands before a NULL. -/
lemma direction_of_le_nullAt (hij : i ≤ j) (hsame : samePartitionAt input i j = true)
    (hi : ¬ NullAt input i) (hj : NullAt input j) : direction d = nullsDirection d := by
  obtain ⟨hilen, _, hle⟩ := hsorted.order_le hij hsame
  obtain ⟨_, hnull⟩ := hj
  exact direction_of_le_null (hd.one_column hrange) (hasValue_of_not_nullAt hkeys hilen hi)
    hnull hle

/-! ## Where the frames are right -/

/-- The order of the rows takes NULLs for less than values, or a partition does not have
both. -/
lemma keyStep (hnulls : nullsDirection d = -1 ∨ Unmixed input) (hij : i ≤ j)
    (hsame : samePartitionAt input i j = true) :
    ∃ (hi : i < input.length) (hj : j < input.length),
      KeyStep d (input.get ⟨i, hi⟩) (input.get ⟨j, hj⟩) := by
  have hq := hd.one_column hrange
  obtain ⟨hi, hj, hle⟩ := hsorted.order_le hij hsame
  refine ⟨hi, hj, ?_⟩
  by_cases hnull : NullAt input i
  · by_cases hnull' : NullAt input j
    · exact .nulls hnull.2 hnull'.2
    · -- a NULL before a value: the direction puts the NULLs first
      have hfirst : nullsDirection d = -1 :=
        hnulls.resolve_right fun hunmixed => hnull' ((hunmixed i j hsame).1 hnull)
      have hdirection := direction_of_nullAt_le hd hsorted hrange hkeys hij hsame hnull hnull'
      exact .nullFirst hnull.2 (hasValue_of_not_nullAt hkeys hj hnull') (by omega)
  · have hvalue := hasValue_of_not_nullAt hkeys hi hnull
    by_cases hnull' : NullAt input j
    · -- a value before a NULL: the direction puts the NULLs last
      have hlast : nullsDirection d = -1 :=
        hnulls.resolve_right fun hunmixed => hnull ((hunmixed i j hsame).2 hnull')
      have hdirection := direction_of_le_nullAt hd hsorted hrange hkeys hij hsame hnull hnull'
      exact .nullLast hvalue hnull'.2 (by omega)
    · have hvalue' := hasValue_of_not_nullAt hkeys hj hnull'
      exact .values hvalue hvalue' hle

lemma ordered_of_nulls (hnulls : nullsDirection d = -1 ∨ Unmixed input) {first past : ℕ}
    (hlen : past ≤ input.length)
    (hsame : ∀ i j, first ≤ i → i < past → first ≤ j → j < past →
      samePartitionAt input i j = true) : Ordered d input first past := by
  refine hsorted.ordered hlen hsame fun _ offset preceding c c' x x' hc hcc' hc' hx hxx' hx' => ?_
  obtain ⟨_, _, hcstep⟩ := keyStep hd hsorted hrange hkeys hnulls hcc'
    (hsame c c' hc (by omega) (by omega) hc')
  obtain ⟨_, _, hxstep⟩ := keyStep hd hsorted hrange hkeys hnulls hxx'
    (hsame x x' hx (by omega) (by omega) hx')
  have hanti :=
    hcstep.compare_anti hd (hd.one_column hrange) (hkeys _ (get_mem _ x)) offset preceding
  have hmono := hxstep.compare_mono (hd.one_column hrange) (hkeys _ (get_mem _ c)) offset preceding
  exact ⟨fun h => hmono.1 (hanti.1 h), fun h => hmono.2 (hanti.2 h)⟩

omit hd hsorted hkeys [Ord V] [Std.TransOrd V] in
lemma type_eq_range : d.frame.type = .RANGE := by
  rw [WindowFrame.rangeOffset, decide_eq_true_eq] at hrange
  exact hrange.1

omit hsorted [Std.TransOrd V] in
/-- Peers are NULLs or values alike, and NULLs are peers. -/
lemma arePeersAt_null (hi : i < input.length) (hj : j < input.length) :
    (arePeersAt d input i j = true → (NullAt input i ↔ NullAt input j)) ∧
      (NullAt input i → NullAt input j → arePeersAt d input i j = true) := by
  -- there is one column in ORDER BY, and its comparison decides
  have hq := hd.one_column hrange
  have hiff : bothAt input WindowTransform.sameOrder i j = true ↔
      compareAt (orderKey (input.get ⟨i, hi⟩)) (orderKey (input.get ⟨j, hj⟩))
        (nullsDirection d) = 0 := by
    have hdirection : direction d ≠ 0 := by
      rcases direction_sign d with h | h <;> omega
    rw [bothAt_eq hi hj, sameOrder_iff (d := d), lex_order_of_one hq,
      mul_eq_zero_iff_left hdirection]
    rfl
  rw [arePeersAt_range_iff (type_eq_range hrange), hiff]
  constructor
  · rintro (rfl | hzero | hsame)
    · rfl
    · omega
    · have hnulls : nullsDirection d ≠ 0 := by
        rcases nullsDirection_sign d with h | h <;> omega
      -- a NULL and a value never compare as equal
      by_cases hnull : NullAt input i <;> by_cases hnull' : NullAt input j
      · exact iff_of_true hnull hnull'
      · rw [hnull.2, compareAt] at hsame
        · exact absurd hsame hnulls
        · exact (hasValue_of_not_nullAt hkeys hj hnull').ne_null
      · rw [hnull'.2, compareAt] at hsame
        · exact absurd (neg_eq_zero.1 hsame) hnulls
        · exact (hasValue_of_not_nullAt hkeys hi hnull).ne_null
      · exact iff_of_false hnull hnull'
  · intro hnull hnull'
    rw [hnull.2, hnull'.2]
    exact .inr (.inr rfl)

/-- A NULL and a value: the row that comes later compares as greater. -/
lemma compareWithOffset_mixed (hfirst : nullsDirection d = -1) (offset : ℕ) (preceding : Bool)
    (hsame : samePartitionAt input i j = true) (hmixed : ¬ (NullAt input i ↔ NullAt input j)) :
    ∃ (hi : i < input.length) (hj : j < input.length),
      compareWithOffset d offset preceding (input.get ⟨i, hi⟩) (input.get ⟨j, hj⟩) =
        if i ≤ j then 1 else -1 := by
  obtain ⟨hi, hj, -⟩ := samePartitionAt_iff.1 hsame
  refine ⟨hi, hj, ?_⟩
  have hback := samePartitionAt_symm hsame
  -- the direction says which of the two comes first, and cancels out
  by_cases hnull : NullAt input i
  · have hvalue : ¬ NullAt input j := fun h => hmixed (iff_of_true hnull h)
    rw [compareWithOffset_value_null (hasValue_of_not_nullAt hkeys hj hvalue) hnull.2]
    split
    · rw [direction_of_nullAt_le hd hsorted hrange hkeys ‹_› hsame hnull hvalue, hfirst, neg_neg]
    · rw [direction_of_le_nullAt hd hsorted hrange hkeys (by omega) hback hvalue hnull, hfirst]
  · have hnull' : NullAt input j := by tauto
    rw [compareWithOffset_null_value hnull'.2 (hasValue_of_not_nullAt hkeys hi hnull)]
    split
    · rw [direction_of_le_nullAt hd hsorted hrange hkeys ‹_› hsame hnull hnull', hfirst, neg_neg]
    · rw [direction_of_nullAt_le hd hsorted hrange hkeys (by omega) hback hnull' hnull, hfirst,
        neg_neg]

variable (hbegin : d.frame.begin_type ≠ .Unbounded) (hend : d.frame.end_type ≠ .Unbounded)
include hbegin hend

/-- A bounded frame does not mix NULLs and values. -/
lemma not_starts_lasts_of_mixed (hfirst : nullsDirection d = -1)
    (hsame : samePartitionAt input i j = true) (hmixed : ¬ (NullAt input i ↔ NullAt input j)) :
    ¬ (Starts d input i j ∧ Lasts d input i j) := by
  rintro ⟨hstarts, hlasts⟩
  have hcompare := fun offset preceding =>
    compareWithOffset_mixed hd hsorted hrange hkeys hfirst offset preceding hsame hmixed
  obtain ⟨hi, hj, -⟩ := samePartitionAt_iff.1 hsame
  have hpeers : arePeersAt d input i j ≠ true := fun h =>
    hmixed ((arePeersAt_null hd hrange hkeys hi hj).1 h)
  have hne : i ≠ j := by
    rintro rfl
    exact hmixed Iff.rfl
  by_cases hij : i ≤ j
  · -- the later row ends the frame
    cases htype : d.frame.end_type with
    | Unbounded => exact hend htype
    | Current =>
      simp only [Lasts, htype] at hlasts
      exact hlasts.elim (by omega) hpeers
    | Offset =>
      simp only [Lasts, htype, type_eq_range hrange] at hlasts
      obtain ⟨_, _, hone⟩ := hcompare d.frame.end_offset d.frame.end_preceding
      rw [bothAt_eq hi hj, endsFrame, hone, if_pos hij] at hlasts
      cases hlasts
  · -- the earlier row lies before its start
    cases htype : d.frame.begin_type with
    | Unbounded => exact hbegin htype
    | Current =>
      simp only [Starts, htype] at hstarts
      exact hstarts.elim hij hpeers
    | Offset =>
      simp only [Starts, htype, type_eq_range hrange] at hstarts
      obtain ⟨_, _, hone⟩ := hcompare d.frame.begin_offset d.frame.begin_preceding
      rw [bothAt_eq hi hj, startsFrame, hone, if_neg hij] at hstarts
      cases hstarts

omit [Std.TransOrd V] hsorted hbegin hend in
/-- A frame of a NULL has the other NULLs. -/
lemma starts_lasts_of_nulls (hi : NullAt input i) (hj : NullAt input j) :
    Starts d input i j ∧ Lasts d input i j := by
  have hpeers := (arePeersAt_null hd hrange hkeys hi.1 hj.1).2 hi hj
  -- NULLs compare as equal, whatever the offset
  have hzero : ∀ offset preceding, compareWithOffset d offset preceding (input.get ⟨i, hi.1⟩)
      (input.get ⟨j, hj.1⟩) = 0 := fun _ _ => compareWithOffset_null_null hj.2 hi.2
  constructor
  · cases htype : d.frame.begin_type with
    | Unbounded => simp only [Starts, htype]
    | Current =>
      simp only [Starts, htype]
      exact .inr hpeers
    | Offset =>
      simp only [Starts, htype, type_eq_range hrange]
      rw [bothAt_eq hi.1 hj.1, startsFrame, hzero]
      rfl
  · cases htype : d.frame.end_type with
    | Unbounded => simp only [Lasts, htype]
    | Current =>
      simp only [Lasts, htype]
      exact .inr hpeers
    | Offset =>
      simp only [Lasts, htype, type_eq_range hrange]
      rw [bothAt_eq hi.1 hj.1, endsFrame, hzero]
      rfl

lemma nullsApart_of_agree (hnulls : nullsDirection d = -1 ∨ Unmixed input) :
    NullsApart d input := by
  -- the frame is what its boundaries say, as for values
  have hmem : ∀ i j, i < input.length → (InFrameOf d input i j ↔
      samePartitionAt input i j = true ∧ Starts d input i j ∧ Lasts d input i j) := by
    intro i j hi
    obtain ⟨hle, -, -⟩ := partitionStart_spec hi
    obtain ⟨-, hlen, hsame, -⟩ := partitionEnd_spec (hle.trans hi.le)
    exact mem_frameOf_iff ⟨hd, fun _ => hkeys⟩ hsorted.contiguous hi
      (ordered_of_nulls hd hsorted hrange hkeys hnulls hlen fun a b ha ha' hb hb' =>
        samePartitionAt_trans (samePartitionAt_symm (hsame a ha ha')) (hsame b hb hb'))
  -- one frame does not have both, or the partition has not
  have halike : ∀ i j, i < input.length → InFrameOf d input i j →
      (NullAt input i ↔ NullAt input j) := by
    intro i j hi hin
    obtain ⟨hsame, hstarts, hlasts⟩ := (hmem i j hi).1 hin
    rcases hnulls with hfirst | hunmixed
    · by_contra hmixed
      exact not_starts_lasts_of_mixed hd hsorted hrange hkeys hbegin hend hfirst hsame hmixed
        ⟨hstarts, hlasts⟩
    · exact hunmixed i j hsame
  refine ⟨fun i j hi hvalue hin hnull => hvalue ((halike i j hi hin).2 hnull), fun i j hnull => ?_⟩
  constructor
  · intro hin
    exact ⟨((hmem i j hnull.1).1 hin).1, (halike i j hnull.1 hin).1 hnull⟩
  · rintro ⟨hsame, hnull'⟩
    exact (hmem i j hnull.1).2 ⟨hsame, starts_lasts_of_nulls hd hrange hkeys hnull hnull'⟩

/-! ## Where the frames are wrong -/

omit hsorted hrange hkeys hbegin hend hd [Std.TransOrd V]

variable (d input) in
/-- The cursors of two neighbours in a partition. -/
structure Neighbours (first past i : ℕ) (prev : Frame) : Prop where
  first_le : first ≤ i
  lt_past : i + 1 < past
  past_le : past ≤ input.length
  same : ∀ a b, first ≤ a → a < past → first ≤ b → b < past → samePartitionAt input a b = true
  bounded : Bounded d first past i prev
  frame : frameOf d input i = nextFrame d input first past prev i
  bounded_next : Bounded d first past (i + 1) (frameOf d input i)
  frame_next : frameOf d input (i + 1) =
    nextFrame d input first past (frameOf d input i) (i + 1)

variable [Std.TransOrd V] in
lemma exists_neighbours (hd : Admitted d input) (hsame : samePartitionAt input i (i + 1) = true) :
    ∃ first past prev, Neighbours d input first past i prev := by
  obtain ⟨hi, hi', -⟩ := samePartitionAt_iff.1 hsame
  obtain ⟨hle, hbefore, -⟩ := partitionStart_spec hi
  obtain ⟨-, -, hall, -⟩ := partitionEnd_spec (hle.trans hi.le)
  have hstart : partitionStart input (i + 1) = partitionStart input i := by
    rw [partitionStart, if_pos (samePartitionAt_trans (hbefore i hle le_rfl) hsame)]
  obtain ⟨first, past, k, hfirst, hend, hsum, -, -, hb, hframe⟩ := exists_frameBefore hd hi
  obtain ⟨_, _, k', rfl, rfl, hsum', hpast, hlen, hb', hframe'⟩ := exists_frameBefore hd hi'
  rw [hfirst] at hle hall hstart
  rw [hstart] at hsum' hpast hlen hb' hframe'
  rw [hend] at hall hpast hlen hb' hframe'
  obtain rfl : k' = k + 1 := by omega
  rw [frameBefore, hsum, ← hframe] at hb' hframe'
  exact ⟨first, past, _, hle, hpast, hlen, fun a b ha ha' hb hb' =>
    samePartitionAt_trans (samePartitionAt_symm (hall a ha ha')) (hall b hb hb'), hb, hframe,
    hb', hframe'⟩

namespace Neighbours

variable {first past : ℕ} {prev : Frame} (h : Neighbours d input first past i prev)
include h

lemma start_le_start :
    (frameOf d input i).frame_start ≤ (frameOf d input (i + 1)).frame_start := by
  rw [h.frame_next]
  exact h.bounded_next.start_le_nextStart

lemma first_le_end : first ≤ (frameOf d input i).frame_end :=
  h.bounded_next.first_le_start.trans h.bounded_next.start_le_end

lemma start_le_self (hd : Admitted d input)
    (hbegin : d.frame.begin_type ≠ .Offset ∨ d.frame.begin_preceding = true) :
    (frameOf d input i).frame_start ≤ i ∧ (frameOf d input (i + 1)).frame_start ≤ i + 1 := by
  have hpast := h.lt_past
  rw [h.frame_next]
  refine ⟨?_, h.bounded_next.nextStart_le_self hpast hd h.past_le hbegin⟩
  rw [h.frame]
  exact h.bounded.nextStart_le_self (by omega) hd h.past_le hbegin

include hrange

/-- A RANGE frame that ends before the partition ends where the search stops. -/
lemma end_stop (hend : d.frame.end_type = .Offset) (hlt : (frameOf d input i).frame_end < past) :
    bothAt input (endsFrame d) i (frameOf d input i).frame_end = true := by
  have hpast := h.lt_past
  rw [h.frame] at hlt ⊢
  simp only [nextFrame, nextEnd_range (type_eq_range hrange) hend] at hlt ⊢
  exact Lib.stop_scanUntil (h.bounded.endFrom_le (by omega)) hlt

/-- A cursor that moved on did not stop. -/
lemma start_stop (hbegin : d.frame.begin_type = .Offset)
    (hlt : (frameOf d input i).frame_start < (frameOf d input (i + 1)).frame_start) :
    bothAt input (startsFrame d) (i + 1) (frameOf d input i).frame_start = false := by
  have hle := h.bounded_next.start_le_end.trans h.bounded_next.end_le
  rw [h.frame_next] at hlt
  simp only [nextFrame, nextStart_range (type_eq_range hrange) hbegin] at hlt
  exact Lib.stop_of_lt_scanUntil hle le_rfl hlt

end Neighbours

variable [Std.TransOrd V] {first past : ℕ} {prev : Frame}
  (h : Neighbours d input first past i prev)
include h hd hsorted hrange hkeys

/-- Of two neighbours of different kind the first tells the rows before them. -/
lemma Neighbours.before_alike (hlast : nullsDirection d = 1)
    (hmixed : ¬ (NullAt input i ↔ NullAt input (i + 1))) {a : ℕ} (ha : first ≤ a) (hai : a ≤ i) :
    NullAt input a ↔ NullAt input i := by
  have hpast := h.lt_past
  have hfirst := h.first_le
  have hsame := h.same i (i + 1) hfirst (by omega) (by omega) hpast
  have hsame' := h.same a i ha (by omega) hfirst (by omega)
  by_cases hnull : NullAt input i
  · -- only NULLs come before a NULL that is followed by a value
    have hvalue : ¬ NullAt input (i + 1) := fun h => hmixed (iff_of_true hnull h)
    have hdirection := direction_of_nullAt_le hd hsorted hrange hkeys (Nat.le_succ i) hsame hnull
      hvalue
    refine iff_of_true (by_contra fun hvalue' => ?_) hnull
    have := direction_of_le_nullAt hd hsorted hrange hkeys hai hsame' hvalue' hnull
    omega
  · -- only values come before a value that is followed by a NULL
    have hnull' : NullAt input (i + 1) := by tauto
    have hdirection := direction_of_le_nullAt hd hsorted hrange hkeys (Nat.le_succ i) hsame hnull
      hnull'
    refine iff_of_false (fun hnulla => ?_) hnull
    have := direction_of_nullAt_le hd hsorted hrange hkeys hai hsame' hnulla hnull
    omega

variable (hlast : nullsDirection d = 1) (hapart : NullsApart d input)
include hlast hapart

/-- A frame of the second row has no row before it. -/
lemma Neighbours.lt_start (hmixed : ¬ (NullAt input i ↔ NullAt input (i + 1)))
    (hself : InFrameOf d input (i + 1) (i + 1)) : i < (frameOf d input (i + 1)).frame_start := by
  have hpast := h.lt_past
  have hlen := h.past_le
  by_contra hle
  have hin : InFrameOf d input (i + 1) (frameOf d input (i + 1)).frame_start :=
    ⟨le_rfl, hself.1.trans_lt hself.2⟩
  have halike := h.before_alike hd hsorted hrange hkeys hlast hmixed
    (h.bounded_next.first_le_start.trans h.start_le_start) (not_lt.1 hle)
  by_cases hnull : NullAt input (i + 1)
  · have := ((hapart.null _ _ hnull).1 hin).2
    tauto
  · have := hapart.value _ _ (by omega) hnull hin
    tauto

/-- Row `i` is a value and the next one a NULL: the search for the end of the frame of
row `i` does not stop at the NULL. -/
lemma Neighbours.end_le_of_first_null (hvalue : ¬ NullAt input i) (hnull : NullAt input (i + 1))
    (hend : d.frame.end_type = .Offset) (hstart : (frameOf d input i).frame_start ≤ i + 1) :
    (frameOf d input i).frame_end ≤ i ∧
      bothAt input (endsFrame d) i (frameOf d input i).frame_end = true := by
  have hpast := h.lt_past
  have hi : i < input.length := by have := hnull.1; omega
  have hsame := h.same i (i + 1) h.first_le (by omega) (by have := h.first_le; omega) hpast
  have hone := direction_of_le_nullAt hd hsorted hrange hkeys (Nat.le_succ i) hsame hvalue hnull
  have hle : (frameOf d input i).frame_end ≤ i + 1 := by
    by_contra hgt
    exact hapart.value i (i + 1) hi hvalue ⟨hstart, not_le.1 hgt⟩ hnull
  have hstop := h.end_stop hrange hend (hle.trans_lt hpast)
  refine ⟨Nat.le_of_lt_succ (lt_of_le_of_ne hle fun heq => ?_), hstop⟩
  rw [heq, bothAt_eq hi hnull.1, endsFrame, compareWithOffset_null_value hnull.2
    (hasValue_of_not_nullAt hkeys hi hvalue), hone, hlast] at hstop
  cases hstop

include hbegin hend

/-- NULLS LAST, ascending: the frame of the first NULL starts where that of the value before
it does. -/
lemma Neighbours.not_first_null (hvalue : ¬ NullAt input i) (hnull : NullAt input (i + 1)) :
    False := by
  have hpast := h.lt_past
  have hfirst := h.first_le
  have hi : i < input.length := by have := hnull.1; omega
  have hmixed : ¬ (NullAt input i ↔ NullAt input (i + 1)) := by tauto
  have hself : InFrameOf d input (i + 1) (i + 1) :=
    (hapart.null _ _ hnull).2 ⟨samePartitionAt_self hnull.1, hnull⟩
  have hlt := h.lt_start hd hsorted hrange hkeys hlast hapart hmixed hself
  have hone := direction_of_le_nullAt hd hsorted hrange hkeys (Nat.le_succ i)
    (h.same i (i + 1) hfirst (by omega) (by omega) hpast) hvalue hnull
  have hvaluei := hasValue_of_not_nullAt hkeys hi hvalue
  have hbefore : ∀ a, first ≤ a → a ≤ i → ∃ ha : a < input.length,
      HasValue d (input.get ⟨a, ha⟩) := fun a ha hai => ⟨by omega, hasValue_of_not_nullAt hkeys _
    (mt (h.before_alike hd hsorted hrange hkeys hlast hmixed ha hai).1 hvalue)⟩
  cases hbegin_type : d.frame.begin_type with
  | Unbounded => exact hbegin hbegin_type
  | Current =>
    have hend_type : d.frame.end_type = .Offset := by
      rw [WindowFrame.rangeOffset, decide_eq_true_eq, hbegin_type] at hrange
      simpa using hrange.2
    obtain ⟨hstart, -⟩ := h.start_le_self ⟨hd, fun _ => hkeys⟩ (.inl (by rw [hbegin_type]; decide))
    obtain ⟨hle, hstop⟩ := h.end_le_of_first_null hd hsorted hrange hkeys hlast hapart hvalue hnull
      hend_type (hstart.trans (Nat.le_succ i))
    -- no row up to row `i` has a greater value
    obtain ⟨_, hvaluee⟩ := hbefore _ h.first_le_end hle
    obtain ⟨_, _, horder⟩ := hsorted.order_le hle
      (h.same _ i h.first_le_end (by omega) hfirst (by omega))
    rw [bothAt_eq hi (by omega), endsFrame, decide_eq_true_eq,
      hd.not_end_preceding hbegin_type hend_type] at hstop
    have hself := hstop.trans_le
      (compareWithOffset_mono (hd.one_column hrange) hvaluee hvaluei hvaluei horder)
    exact absurd hself (not_lt.2 (compareWithOffset_self_nonpos hd.arithmetic hvaluei))
  | Offset =>
    -- every value is after the start of the frame of a NULL
    have hstart : i + 1 ≤ (frameOf d input i).frame_start := by
      by_contra hle
      obtain ⟨_, hvalues⟩ := hbefore _ h.bounded_next.first_le_start (by omega)
      have hstop := h.start_stop hrange hbegin_type (by omega)
      rw [bothAt_eq hnull.1 (by omega), startsFrame,
        compareWithOffset_value_null hvalues hnull.2, hone, hlast] at hstop
      cases hstop
    have hstart' : (frameOf d input i).frame_start ≤ i + 1 := h.start_le_start.trans hself.1
    cases hend_type : d.frame.end_type with
    | Unbounded => exact hend hend_type
    | Current =>
      obtain ⟨hle, -⟩ := h.start_le_self ⟨hd, fun _ => hkeys⟩
        (.inr (hd.begin_preceding hbegin_type hend_type))
      omega
    | Offset =>
      obtain ⟨hle, -⟩ := h.end_le_of_first_null hd hsorted hrange hkeys hlast hapart hvalue hnull
        hend_type hstart'
      have := h.bounded_next.start_le_end
      omega

omit hbegin in
/-- NULLS FIRST, descending: the frame of the last NULL does not end at the value after it, or
the frame of that value does not start there. -/
lemma Neighbours.not_last_null (hnull : NullAt input i) (hvalue : ¬ NullAt input (i + 1)) :
    False := by
  have hpast := h.lt_past
  have hfirst := h.first_le
  have hlen := h.past_le
  have hmixed : ¬ (NullAt input i ↔ NullAt input (i + 1)) := by tauto
  have hone := direction_of_nullAt_le hd hsorted hrange hkeys (Nat.le_succ i)
    (h.same i (i + 1) hfirst (by omega) (by omega) hpast) hnull hvalue
  have hvalue' := hasValue_of_not_nullAt hkeys (i := i + 1) (by omega) hvalue
  obtain ⟨hstart, hend_lt⟩ : InFrameOf d input i i :=
    (hapart.null _ _ hnull).2 ⟨samePartitionAt_self hnull.1, hnull⟩
  cases hend_type : d.frame.end_type with
  | Unbounded => exact hend hend_type
  | Offset =>
    -- the frame of the NULL ends before the value, yet the search does not stop there
    have heq : (frameOf d input i).frame_end = i + 1 := by
      by_contra hne
      exact hvalue ((hapart.null _ _ hnull).1 ⟨hstart.trans (Nat.le_succ i), by omega⟩).2
    have hstop := h.end_stop hrange hend_type (by omega)
    rw [heq, bothAt_eq hnull.1 (by omega), endsFrame,
      compareWithOffset_value_null hvalue' hnull.2, hone, hlast] at hstop
    cases hstop
  | Current =>
    -- a RANGE frame with an offset that ends at the current row begins at an offset
    have hbegin_type : d.frame.begin_type = .Offset := by
      rw [WindowFrame.rangeOffset, decide_eq_true_eq, hend_type] at hrange
      simpa using hrange.2
    have hself : InFrameOf d input (i + 1) (i + 1) := by
      refine ⟨(h.start_le_self ⟨hd, fun _ => hkeys⟩
        (.inr (hd.begin_preceding hbegin_type hend_type))).2, ?_⟩
      rw [h.frame_next]
      exact h.bounded_next.lt_nextEnd hpast hend_type
    have hlt := h.lt_start hd hsorted hrange hkeys hlast hapart hmixed hself
    have hstop := h.start_stop hrange hbegin_type (hstart.trans_lt hlt)
    obtain ⟨_, hnulls⟩ := (h.before_alike hd hsorted hrange hkeys hlast hmixed
      h.bounded_next.first_le_start hstart).2 hnull
    rw [bothAt_eq (by omega) (by omega), startsFrame,
      compareWithOffset_null_value hnulls hvalue', hone, hlast] at hstop
    cases hstop

end Frames

/-! ## The condition -/

section Condition

variable [Std.TransOrd V]

/-- A partition with both has neighbours of different kind. -/
lemma exists_mixed_neighbours (hcontiguous : Contiguous input) (hmixed : ¬ Unmixed input) :
    ∃ i, samePartitionAt input i (i + 1) = true ∧
      ¬ (NullAt input i ↔ NullAt input (i + 1)) := by
  by_contra hnone
  have halike : ∀ i, samePartitionAt input i (i + 1) = true →
      (NullAt input i ↔ NullAt input (i + 1)) := by
    intro i hsame
    by_contra hmixed
    exact hnone ⟨i, hsame, hmixed⟩
  -- if neighbours are alike, all rows of the partition are
  have hrun : ∀ i n, samePartitionAt input i (i + n) = true →
      (NullAt input i ↔ NullAt input (i + n)) := by
    intro i n
    induction n with
    | zero => exact fun _ => Iff.rfl
    | succ n ih =>
      intro hsame
      have hprev := hcontiguous i (i + n) _ (by omega) (by omega) hsame
      exact (ih hprev).trans
        (halike (i + n) (samePartitionAt_trans (samePartitionAt_symm hprev) hsame))
  refine hmixed fun i j hsame => ?_
  rcases le_total i j with hij | hji
  · obtain ⟨n, rfl⟩ := Nat.exists_eq_add_of_le hij
    exact hrun i n hsame
  · obtain ⟨n, rfl⟩ := Nat.exists_eq_add_of_le hji
    exact (hrun j n (samePartitionAt_symm hsame)).symm

variable {chunks : List (List (Row p q V A))} {f : AggregateFunction A S R}

/-- **The frames keep NULLs and values apart** exactly where NULLs are sorted as less than
values, ASC NULLS FIRST or DESC NULLS LAST, or no partition has both. -/
theorem run_nullsApart_iff (hd : d.Accepted) (hne : ∀ chunk ∈ chunks, chunk ≠ [])
    (hsorted : Sorted d chunks.flatten) (hrange : d.frame.rangeOffset = true)
    (hbegin : d.frame.begin_type ≠ .Unbounded) (hend : d.frame.end_type ≠ .Unbounded)
    (hkeys : ∀ row ∈ chunks.flatten, IsNull row ∨ HasValue d row) :
    (∃ blocks, run d f chunks = some blocks ∧ (blocks.map (·.output_columns)).flatten =
      (List.range chunks.flatten.length).map fun i =>
        f.insertResult (aggregate f (frameRows chunks.flatten (frameOf d chunks.flatten i)))) ∧
    (NullsApart d chunks.flatten ↔ nullsDirection d = -1 ∨ Unmixed chunks.flatten) := by
  have hadmitted : Admitted d chunks.flatten := ⟨hd, fun _ => hkeys⟩
  refine ⟨⟨_, run_eq hadmitted hne, flatten_results⟩, fun hapart => ?_,
    nullsApart_of_agree hd hsorted hrange hkeys hbegin hend⟩
  by_contra hnot
  obtain ⟨hfirst, hmixed⟩ := not_or.1 hnot
  have hlast := (nullsDirection_sign d).resolve_right hfirst
  -- the last row of one kind and the first of the other have a frame that is wrong
  obtain ⟨i, hsame, hdiffer⟩ := exists_mixed_neighbours hsorted.contiguous hmixed
  obtain ⟨first, past, prev, h⟩ := exists_neighbours hadmitted hsame
  by_cases hnull : NullAt chunks.flatten i
  · exact h.not_last_null hd hsorted hrange hkeys hend hlast hapart hnull (by tauto)
  · exact h.not_first_null hd hsorted hrange hkeys hbegin hend hlast hapart hnull (by tauto)

end Condition

/-- A value and a NULL, ascending with NULLS LAST. -/
def valueThenNull : List (List (Row 0 1 ℤ ℕ)) :=
  [[⟨fun c => c.elim0, fun _ => .int 1, 10⟩, ⟨fun c => c.elim0, fun _ => .null, 20⟩]]

theorem run_nullsApart_iff_at_value_then_null :
    nullsDirection (oneAround (.integer .UInt8)) = 1 ∧ ¬ Unmixed valueThenNull.flatten ∧
      ¬ NullsApart (oneAround (.integer .UInt8)) valueThenNull.flatten := by
  have hnull : NullAt valueThenNull.flatten 1 := ⟨by decide, rfl⟩
  have hvalue : ¬ NullAt valueThenNull.flatten 0 := by
    rintro ⟨_, h⟩
    cases h
  have hmixed : ¬ Unmixed valueThenNull.flatten := fun h =>
    hvalue ((h 0 1 (by decide)).2 hnull)
  have hkeys : ∀ row ∈ valueThenNull.flatten,
      IsNull row ∨ HasValue (oneAround (.integer .UInt8)) row := by
    simp [valueThenNull, IsNull, orderKey, HasValue, OrderType.Has, front, oneAround, IntType.min,
      IntType.max]
  have hiff := (run_nullsApart_iff (f := ⟨0, (· + ·), id⟩) (S := ℕ) (R := ℕ)
    (⟨by decide, by decide, by decide, by decide, by decide, trivial⟩ :
      (oneAround (.integer .UInt8)).Accepted)
    (by decide) (by rw [Sorted]; decide) (by decide) (by decide) (by decide) hkeys).2
  exact ⟨rfl, hmixed, fun h => (hiff.1 h).elim (by decide) hmixed⟩

/-- The frame of the value 1 has the NULL in it: the sums are 30 and 30, where the definition
gives 10 and 20. -/
theorem run_mixes_nulls :
    (run (oneAround (.integer .UInt8)) ⟨0, (· + ·), id⟩ valueThenNull).map
      (fun blocks => (blocks.map (·.output_columns)).flatten) = some [30, 30] := by
  decide

end

end ClickHouse.Window
