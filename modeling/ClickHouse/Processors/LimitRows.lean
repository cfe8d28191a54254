/-
The rows that LIMIT, OFFSET and WITH TIES let through.

`limitRows` says it for a whole list of rows. The transform sees the list in chunks, and
what it keeps between two chunks, the number of rows and the row for WITH TIES, is a
function of the rows it has read.

All arithmetic of the transform is unsigned and relative to the counter. `Describes`
relates the counters to the rows read, and `processChunk_spec` is the step: one chunk adds
to the output what it adds to `limitRows`. The step needs that `offset + num_rows` does
not wrap around in the chunk that holds the first row after the offset: `splitChunk`
does not guard this sum, and where it wraps the rows before the offset go out too.
-/
import ClickHouse.Processors.LimitTransform

set_option autoImplicit false

namespace ClickHouse.Limit

open LimitTransform List Nat
open Bool (and_eq_true not_eq_true)
open Column (Value)
open Option (filter_some map_none map_some)
open UInt64 (le_iff_toNat_le lt_iff_toNat_lt ofNat toNat_add toNat_inj toNat_ofNat' toNat_one
  toNat_zero)

variable {q : ℕ} {V A : Type} [Ord V] (t : LimitTransform)

/-! ## The definition -/

/-- The place after the last row in the limit. -/
def LimitTransform.past : ℕ := t.offset.toNat + t.limit.toNat

lemma past_eq : t.past = t.offset.toNat + t.limit.toNat := rfl

/-- The rows after the limit that equal its last row. -/
def tiesAfter (rows : List (Row q V A)) : List (Row q V A) :=
  match rows[t.past - 1]? with
  | none => []
  | some last => (rows.drop t.past).takeWhile (sortColumnsEqualAt last.sort_columns)

/-- `LIMIT limit OFFSET offset`, with or without ties. -/
def limitRows (rows : List (Row q V A)) : List (Row q V A) :=
  (rows.drop t.offset.toNat).take t.limit.toNat ++
    if t.with_ties = true ∧ 0 < t.limit.toNat then tiesAfter t rows else []

/-- The row that WITH TIES keeps while all rows after the limit equal it. -/
def savedRow (rows : List (Row q V A)) : Option (Row q V A) :=
  if t.with_ties = true ∧ 0 < t.limit.toNat then
    rows[t.past - 1]?.filter fun last =>
      (rows.drop t.past).all (sortColumnsEqualAt last.sort_columns)
  else none

/-- The counters after some rows. -/
structure Describes (rows : List (Row q V A)) (s : Counters q V) : Prop where
  rows_read : s.rows_read.toNat = rows.length
  previous : t.limit_is_unreachable = false →
    s.previous_row_chunk = (savedRow t rows).map (·.sort_columns)

/-- `offset + num_rows` fits if the chunk holds rows on both sides of the offset. -/
def FitsAt (rows chunk : List (Row q V A)) : Prop :=
  rows.length < t.offset.toNat → t.offset.toNat < rows.length + chunk.length →
    t.offset.toNat + chunk.length < 2 ^ 64

/-! ## Unsigned arithmetic -/

variable {t} {rows chunk : List (Row q V A)} {s : Counters q V}

lemma toNat_max : (UInt64.ofNat (2 ^ 64 - 1)).toNat = 2 ^ 64 - 1 := by
  exact mod_eq_of_lt (by omega)

lemma toNat_sub_of_le {a b : UInt64} (h : b.toNat ≤ a.toNat) :
    (a - b).toNat = a.toNat - b.toNat :=
  UInt64.toNat_sub_of_le a b (le_iff_toNat_le.2 h)

lemma unreachable_iff : t.limit_is_unreachable = true ↔ 2 ^ 64 ≤ t.past := by
  have hoffset := t.offset.toNat_lt
  rw [limit_is_unreachable, decide_eq_true_eq, gt_iff_lt, lt_iff_toNat_lt,
    toNat_sub_of_le (by rw [toNat_max]; omega), toNat_max, past]
  omega

lemma reachable_iff : t.limit_is_unreachable = false ↔ t.past < 2 ^ 64 := by
  rw [← not_le, ← unreachable_iff, not_eq_true]

lemma toNat_past (h : t.limit_is_unreachable = false) : (t.offset + t.limit).toNat = t.past := by
  have hlt := reachable_iff.1 h
  exact mod_eq_of_lt hlt

omit [Ord V] in
lemma toNat_getNumRows {chunk : Chunk q V A} (h : chunk.length < 2 ^ 64) :
    (getNumRows chunk).toNat = chunk.length := by
  exact mod_eq_of_lt h

lemma toNat_add_of_lt {a b : UInt64} (h : a.toNat + b.toNat < 2 ^ 64) :
    (a + b).toNat = a.toNat + b.toNat := by
  exact mod_eq_of_lt h

/-! ## Lists -/

omit [Ord V] in
lemma take_takeWhile_length (p : Row q V A → Bool) (l : List (Row q V A)) :
    l.take (l.takeWhile p).length = l.takeWhile p := by
  have h : l.takeWhile p <+: l := takeWhile_prefix p
  exact (prefix_iff_eq_take.1 h).symm

omit [Ord V] in
lemma takeWhile_length_lt_iff (p : Row q V A → Bool) (l : List (Row q V A)) :
    (l.takeWhile p).length < l.length ↔ l.all p = false := by
  rw [← not_iff_not, not_lt, Bool.not_eq_false, all_eq_true]
  constructor
  · intro hle
    have h : l.takeWhile p <+: l := takeWhile_prefix p
    exact takeWhile_eq_self_iff.1 (h.eq_of_length (le_antisymm h.length_le hle))
  · intro hall
    rw [takeWhile_eq_self_iff.2 hall]

omit [Ord V] in
/-- What a chunk adds to the rows within the limit. -/
lemma take_drop_append (o l : ℕ) :
    ((rows ++ chunk).drop o).take l = (rows.drop o).take l ++
      (chunk.drop (o - rows.length)).take (l - (rows.length - o)) := by
  rw [drop_append, take_append, length_drop]

lemma tiesAfter_of_le (h : rows.length ≤ t.past) : tiesAfter t rows = [] := by
  rw [tiesAfter]
  split
  · rfl
  · rw [drop_eq_nil_of_le h, takeWhile_nil]

lemma savedRow_of_lt (h : rows.length < t.past) : savedRow t rows = none := by
  rw [savedRow]
  split
  · rw [getElem?_eq_none (by omega), Option.filter_none]
  · rfl

omit [Ord V] in
/-- The limit ends in the chunk. -/
lemma getElem?_last (hlimit : rows.length < t.past) :
    (rows ++ chunk)[t.past - 1]? = chunk[t.past - rows.length - 1]? := by
  rw [getElem?_append_right (by omega)]
  congr 1
  omega

omit [Ord V] in
lemma drop_past_append (hlimit : rows.length < t.past) :
    (rows ++ chunk).drop t.past = chunk.drop (t.past - rows.length) := by
  rw [drop_append, drop_eq_nil_of_le hlimit.le, nil_append]

/-! ## Pieces of a chunk -/

section Pieces

lemma toNat_skipEqual {previous : Fin q → Value V} {k : UInt64}
    (hchunk : chunk.length < 2 ^ 64) (hk : k.toNat ≤ chunk.length) :
    (skipEqual (some previous) chunk k).toNat = k.toNat +
      ((chunk.drop k.toNat).takeWhile (sortColumnsEqualAt previous)).length := by
  have hpre : (chunk.drop k.toNat).takeWhile (sortColumnsEqualAt previous) <+: chunk.drop k.toNat :=
    takeWhile_prefix _
  have hle := hpre.length_le
  rw [length_drop] at hle
  have hcount : (ofNat ((chunk.drop k.toNat).takeWhile
      (sortColumnsEqualAt previous)).length).toNat =
        ((chunk.drop k.toNat).takeWhile (sortColumnsEqualAt previous)).length := by
    exact Nat.mod_eq_of_lt (by omega)
  rw [skipEqual, toNat_add_of_lt (by omega), hcount]

variable {previous : Option (Fin q → Value V)}

lemma skipEqual_end {k : UInt64}
    (hk : chunk.length ≤ k.toNat) : skipEqual previous chunk k = k := by
  cases previous with
  | none => rfl
  | some previous =>
    rw [skipEqual, drop_eq_nil_of_le hk, takeWhile_nil, length_nil]
    exact UInt64.add_zero k

/-- The row to keep after the rows `rest`. -/
def keepEqual (last : Row q V A) (rest : List (Row q V A)) : Option (Fin q → Value V) :=
  if rest.all (sortColumnsEqualAt last.sort_columns) then some last.sort_columns else none

/-- The loop over equal rows ends before the end of the chunk unless all rows are equal. -/
lemma keepEqual_eq {last : Row q V A} {k : UInt64} (hchunk : chunk.length < 2 ^ 64)
    (hk : k.toNat ≤ chunk.length) :
    (if skipEqual (some last.sort_columns) chunk k < getNumRows chunk then none
      else some last.sort_columns) = keepEqual last (chunk.drop k.toNat) := by
  have hall := takeWhile_length_lt_iff (sortColumnsEqualAt last.sort_columns) (chunk.drop k.toNat)
  rw [length_drop] at hall
  have hlt : skipEqual (some last.sort_columns) chunk k < getNumRows chunk ↔
      ¬ (chunk.drop k.toNat).all (sortColumnsEqualAt last.sort_columns) = true := by
    rw [lt_iff_toNat_lt, toNat_skipEqual hchunk hk, toNat_getNumRows hchunk, not_eq_true, ← hall]
    omega
  by_cases hequal : (chunk.drop k.toNat).all (sortColumnsEqualAt last.sort_columns) = true
  · rw [keepEqual, if_pos hequal, if_neg fun h => hlt.1 h hequal]
  · rw [keepEqual, if_neg hequal, if_pos (hlt.2 hequal)]

variable {start length : UInt64}

omit [Ord V] in
lemma cut_eq {a b : ℕ} (hstart : start.toNat = a) (hlength : length.toNat = b - a) :
    cut chunk start length = (chunk.take b).drop a := by
  rw [cut, hstart, hlength, drop_take]

variable (t rows chunk) in
/-- The row of the chunk that `splitChunk` starts with. -/
def pieceStart : ℕ :=
  if rows.length < t.offset.toNat ∧ 2 ^ 64 ≤ t.offset.toNat + chunk.length then 0
  else t.offset.toNat - rows.length

variable (t rows chunk) in
/-- The row of the chunk that the limit ends with. -/
def pieceEnd : ℕ := min (t.past - rows.length) chunk.length

omit [Ord V] in
lemma pieceStart_of_fits (hfits : FitsAt t rows chunk)
    (hoffset : t.offset.toNat < rows.length + chunk.length) :
    pieceStart t rows chunk = t.offset.toNat - rows.length := by
  rw [pieceStart, if_neg]
  rintro ⟨hbefore, hwraps⟩
  exact absurd (hfits hbefore hoffset) (not_lt.2 hwraps)

omit [Ord V] in
lemma pieceStart_le (hlimit : rows.length < t.past)
    (hoffset : t.offset.toNat < rows.length + chunk.length) :
    pieceStart t rows chunk ≤ pieceEnd t rows chunk := by
  have hpast := past_eq t
  rw [pieceStart, pieceEnd]
  split <;> omega

variable (hread : s.rows_read.toNat = rows.length + chunk.length) (hlimit : rows.length < t.past)
  (hoffset : t.offset.toNat < rows.length + chunk.length)

omit [Ord V] in
include hread hoffset in
/-- The start of the piece, where `UInt64` does not wrap around. -/
lemma toNat_start : (if t.offset + getNumRows chunk > s.rows_read then
    t.offset + getNumRows chunk - s.rows_read else 0).toNat = pieceStart t rows chunk := by
  have hlt := s.rows_read.toNat_lt
  have hrows : (getNumRows chunk).toNat = chunk.length := toNat_getNumRows (by omega)
  rw [pieceStart]
  by_cases hwraps : 2 ^ 64 ≤ t.offset.toNat + chunk.length
  · -- the sum that `splitChunk` does not guard
    have hsum : (t.offset + getNumRows chunk).toNat = t.offset.toNat + chunk.length - 2 ^ 64 := by
      rw [toNat_add, hrows, mod_eq_sub_mod hwraps]
      exact mod_eq_of_lt (by omega)
    rw [if_neg (by rw [gt_iff_lt, lt_iff_toNat_lt, hsum]; omega), toNat_zero]
    split <;> omega
  · have hsum : (t.offset + getNumRows chunk).toNat = t.offset.toNat + chunk.length := by
      rw [toNat_add_of_lt (by omega), hrows]
    rw [if_neg (show ¬ (rows.length < t.offset.toNat ∧ 2 ^ 64 ≤ t.offset.toNat + chunk.length) by
      omega)]
    split
    · rename_i hgt
      rw [gt_iff_lt, lt_iff_toNat_lt, hsum] at hgt
      rw [toNat_sub_of_le (by omega), hsum]
      omega
    · rename_i hle
      rw [gt_iff_lt, lt_iff_toNat_lt, hsum] at hle
      rw [toNat_zero]
      omega

omit [Ord V] in
include hread hlimit hoffset in
/-- The piece of a chunk that goes out. `s` has counted the chunk already. -/
lemma piece_spec : ∃ start length, t.piece s (getNumRows chunk) = (start, length) ∧
    start.toNat = pieceStart t rows chunk ∧
      length.toNat = pieceEnd t rows chunk - pieceStart t rows chunk := by
  refine ⟨_, _, (Prod.mk.eta (p := t.piece s (getNumRows chunk))).symm, ?_⟩
  have hlt := s.rows_read.toNat_lt
  have hrows : (getNumRows chunk).toNat = chunk.length := toNat_getNumRows (by omega)
  -- the counter includes this chunk already
  have hbefore : (s.rows_read - getNumRows chunk).toNat = rows.length := by
    rw [toNat_sub_of_le (by omega), hrows]
    omega
  have hstart := toNat_start hread hoffset
  have hle := pieceStart_le hlimit hoffset
  rw [piece]
  generalize (if t.offset + getNumRows chunk > s.rows_read then
      t.offset + getNumRows chunk - s.rows_read else 0) = start at hstart ⊢
  rw [pieceEnd] at *
  have hlength (h : rows.length + chunk.length ≤ t.past) :
      (getNumRows chunk - start).toNat =
        min (t.past - rows.length) chunk.length - pieceStart t rows chunk := by
    rw [toNat_sub_of_le (by omega), hrows, hstart]
    omega
  cases hunreachable : t.limit_is_unreachable with
  | true =>
    -- no chunk gets as far as the limit
    have hfar := unreachable_iff.1 hunreachable
    exact ⟨hstart, hlength (by omega)⟩
  | false =>
    have hsum := toNat_past hunreachable
    simp only [Bool.not_false, Bool.true_and, decide_eq_true_eq]
    split
    · -- the limit ends in this chunk
      rename_i hin
      rw [lt_iff_toNat_lt, hsum] at hin
      rw [if_neg (by rw [lt_iff_toNat_lt, hsum, hbefore]; omega)]
      refine ⟨hstart, ?_⟩
      have hrest : (t.offset + t.limit - (s.rows_read - getNumRows chunk)).toNat =
          t.past - rows.length := by
        rw [toNat_sub_of_le (by omega), hsum, hbefore]
      rw [toNat_sub_of_le (by omega), hrest, hstart]
      omega
    · -- the limit ends with this chunk, or later
      rename_i hin
      rw [lt_iff_toNat_lt, hsum] at hin
      exact ⟨hstart, hlength (by omega)⟩

variable {a b : ℕ} (hchunk : chunk.length < 2 ^ 64) (hb : b ≤ chunk.length) (hab : a ≤ b)
  (hstart : start.toNat = a) (hlength : length.toNat = b - a)

omit [Ord V] in
include hchunk hb hab hstart hlength in
/-- The place where a piece ends, as the loop over equal rows starts from it. -/
lemma toNat_pieceEnd : (start + length).toNat = b := by
  rw [toNat_add_of_lt (by omega)]
  omega

omit [Ord V] in
include hchunk hb hab hstart hlength in
/-- The last step of `splitChunk`. -/
lemma cut_or_whole :
    (if length = getNumRows chunk then (s, chunk) else (s, cut chunk start length)) =
    (s, (chunk.take b).drop a) := by
  split
  · rename_i heq
    rw [heq, toNat_getNumRows hchunk] at hlength
    rw [show a = 0 by omega, drop_zero, take_of_length_le (by omega)]
  · rw [cut_eq hstart hlength]

variable (hprevious : t.limit_is_unreachable = false → s.previous_row_chunk = none)

include hprevious in
lemma splitChunk_eq {s' : Counters q V} {start length length' : UInt64}
    (hpiece : t.piece s (getNumRows chunk) = (start, length))
    (hextend : t.extendPiece s chunk start length = (s', length')) :
    t.splitChunk s chunk = if length' = getNumRows chunk then (s', chunk)
      else (s', cut chunk start length') := by
  have hfirst : (s.previous_row_chunk.isSome && !t.limit_is_unreachable &&
      decide (s.rows_read ≥ t.offset + t.limit)) = false := by
    cases hreach : t.limit_is_unreachable with
    | true => simp
    | false => simp [hprevious hreach]
  rw [splitChunk, hfirst, if_neg Bool.false_ne_true, hpiece]
  dsimp only
  rw [hextend]

lemma extendPiece_ties (hcond : (t.with_ties && decide (t.offset + t.limit ≤ s.rows_read) &&
      decide (length ≠ 0)) = true)
    (hprevious : makeChunkWithPreviousRow chunk (start + length - 1) = previous) :
    t.extendPiece s chunk start length =
      (⟨s.rows_read, if skipEqual previous chunk (start + length) < getNumRows chunk then none
          else previous⟩, skipEqual previous chunk (start + length) - start) := by
  rw [extendPiece, if_pos hcond, hprevious]

section

include hread hlimit hoffset

include hprevious in
/-- The chunk that the limit ends in, with ties: the equal rows go out too. -/
lemma splitChunk_ties {last : Row q V A}
    (hties : t.with_ties = true) (hreach : t.limit_is_unreachable = false)
    (hpast : t.past ≤ rows.length + chunk.length)
    (hlt : pieceStart t rows chunk < pieceEnd t rows chunk)
    (hlast : chunk[pieceEnd t rows chunk - 1]? = some last) :
    t.splitChunk s chunk =
      ({ s with previous_row_chunk := keepEqual last (chunk.drop (pieceEnd t rows chunk)) },
        (chunk.take (pieceEnd t rows chunk)).drop (pieceStart t rows chunk) ++
          (chunk.drop (pieceEnd t rows chunk)).takeWhile
            (sortColumnsEqualAt last.sort_columns)) := by
  have hread_lt := s.rows_read.toNat_lt
  have hchunk : chunk.length < 2 ^ 64 := by omega
  have hend : pieceEnd t rows chunk ≤ chunk.length := min_le_right _ _
  obtain ⟨start, length, hpiece, hstart, hlength⟩ := piece_spec hread hlimit hoffset
  have hsum := toNat_pieceEnd hchunk hend hlt.le hstart hlength
  -- the limit is reached with a row of this chunk, so that equal rows are looked for
  have hextend : (t.with_ties && decide (t.offset + t.limit ≤ s.rows_read) &&
      decide (length ≠ 0)) = true := by
    simp only [and_eq_true, decide_eq_true_eq]
    refine ⟨⟨hties, le_iff_toNat_le.2 (by rw [toNat_past hreach]; omega)⟩, fun hzero => ?_⟩
    rw [hzero, toNat_zero] at hlength
    omega
  -- they are compared with the last row that goes out
  have hprev : makeChunkWithPreviousRow chunk (start + length - 1) = some last.sort_columns := by
    have hone : (start + length - 1).toNat = pieceEnd t rows chunk - 1 := by
      rw [toNat_sub_of_le (by rw [hsum, toNat_one]; omega), hsum, toNat_one]
    rw [makeChunkWithPreviousRow, hone, hlast, map_some]
  have hskip := @toNat_skipEqual _ _ _ _ chunk last.sort_columns (start + length) hchunk (by omega)
  rw [hsum] at hskip
  have hpre : (chunk.drop (pieceEnd t rows chunk)).takeWhile
      (sortColumnsEqualAt last.sort_columns) <+: chunk.drop (pieceEnd t rows chunk) :=
    takeWhile_prefix _
  have hple := hpre.length_le
  rw [length_drop] at hple
  have hcurrent : (skipEqual (some last.sort_columns) chunk (start + length) - start).toNat =
      pieceEnd t rows chunk + ((chunk.drop (pieceEnd t rows chunk)).takeWhile
        (sortColumnsEqualAt last.sort_columns)).length - pieceStart t rows chunk := by
    rw [toNat_sub_of_le (by omega), hskip, hstart]
  have hextended := extendPiece_ties hextend hprev
  rw [keepEqual_eq hchunk (by omega), hsum] at hextended
  rw [splitChunk_eq hprevious hpiece hextended, cut_or_whole hchunk (by omega) (by omega) hstart
    hcurrent, take_add, take_takeWhile_length,
    drop_append_of_le_length (by rw [length_take]; omega)]

include hprevious in
/-- Any other chunk. -/
lemma splitChunk_plain (hplain : ¬ (t.with_ties = true ∧ t.limit_is_unreachable = false ∧
      t.past ≤ rows.length + chunk.length ∧ pieceStart t rows chunk < pieceEnd t rows chunk)) :
    (t.splitChunk s chunk).1.rows_read = s.rows_read ∧
      (t.limit_is_unreachable = false → (t.splitChunk s chunk).1.previous_row_chunk = none) ∧
      (t.splitChunk s chunk).2 =
        (chunk.take (pieceEnd t rows chunk)).drop (pieceStart t rows chunk) := by
  have hread_lt := s.rows_read.toNat_lt
  have hchunk : chunk.length < 2 ^ 64 := by omega
  have hle := pieceStart_le hlimit hoffset
  have hend : pieceEnd t rows chunk ≤ chunk.length := min_le_right _ _
  obtain ⟨start, length, hpiece, hstart, hlength⟩ := piece_spec hread hlimit hoffset
  -- without ties the piece stays as it is; an unreachable limit ends no chunk
  have hextend : (t.extendPiece s chunk start length).1.rows_read = s.rows_read ∧
      (t.limit_is_unreachable = false →
        (t.extendPiece s chunk start length).1.previous_row_chunk = none) ∧
      (t.extendPiece s chunk start length).2.toNat =
        pieceEnd t rows chunk - pieceStart t rows chunk := by
    by_cases hcond : (t.with_ties && decide (t.offset + t.limit ≤ s.rows_read) &&
      decide (length ≠ 0)) = true
    · rw [extendPiece_ties hcond rfl]
      simp only [and_eq_true, decide_eq_true_eq] at hcond
      obtain ⟨⟨hties, hreached⟩, hpositive⟩ := hcond
      have hunreachable : t.limit_is_unreachable = true := by
        by_contra hreach
        rw [not_eq_true] at hreach
        rw [le_iff_toNat_le, toNat_past hreach] at hreached
        refine hplain ⟨hties, hreach, by omega, ?_⟩
        have hne : length.toNat ≠ 0 := fun h => hpositive (toNat_inj.1 h)
        omega
      have hfar := unreachable_iff.1 hunreachable
      refine ⟨rfl, fun hreach => absurd (hunreachable.symm.trans hreach) (by decide), ?_⟩
      have hsum := toNat_pieceEnd hchunk hend hle hstart hlength
      have hwhole : pieceEnd t rows chunk = chunk.length := min_eq_right (by omega)
      rw [skipEqual_end (by omega), toNat_sub_of_le (by omega), hsum, hstart]
    · rw [extendPiece, if_neg hcond]
      exact ⟨rfl, hprevious, hlength⟩
  rcases hextended : t.extendPiece s chunk start length with ⟨s', length'⟩
  rw [hextended] at hextend
  obtain ⟨hsame, hnone, hlength'⟩ := hextend
  rw [splitChunk_eq hprevious hpiece hextended, cut_or_whole hchunk hend hle hstart hlength']
  exact ⟨hsame, hnone, rfl⟩

end

end Pieces

/-! ## What a chunk adds -/

section Step

omit [Ord V] in
lemma take_drop_piece (hlimit : rows.length < t.past) :
    (chunk.drop (t.offset.toNat - rows.length)).take
      (t.limit.toNat - (rows.length - t.offset.toNat)) =
        (chunk.take (pieceEnd t rows chunk)).drop (t.offset.toNat - rows.length) := by
  have hpast := past_eq t
  rw [drop_take, pieceEnd]
  by_cases hin : t.past - rows.length ≤ chunk.length
  · rw [min_eq_left hin]
    congr 1
    omega
  · rw [min_eq_right (by omega), take_of_length_le (by rw [length_drop]; omega),
      take_of_length_le (by rw [length_drop])]

lemma limitRows_append (hlimit : rows.length < t.past) :
    limitRows t (rows ++ chunk) = limitRows t rows ++
      ((chunk.take (pieceEnd t rows chunk)).drop (t.offset.toNat - rows.length) ++
        if t.with_ties = true ∧ 0 < t.limit.toNat then tiesAfter t (rows ++ chunk) else []) := by
  rw [limitRows, limitRows, take_drop_append, take_drop_piece hlimit, tiesAfter_of_le hlimit.le,
    ite_self, append_nil, append_assoc]

variable {last : Row q V A}

lemma tiesAfter_of_last (hlast : rows[t.past - 1]? = some last) :
    tiesAfter t rows =
      (rows.drop t.past).takeWhile (sortColumnsEqualAt last.sort_columns) := by
  rw [tiesAfter, hlast]

lemma tiesAfter_append (hlimit : rows.length < t.past)
    (hlast : chunk[t.past - rows.length - 1]? = some last) :
    tiesAfter t (rows ++ chunk) =
      (chunk.drop (t.past - rows.length)).takeWhile (sortColumnsEqualAt last.sort_columns) := by
  rw [tiesAfter_of_last ((getElem?_last hlimit).trans hlast), drop_past_append hlimit]

lemma map_filter_keepEqual (last : Row q V A) (rest : List (Row q V A)) :
    ((some last).filter fun last => rest.all (sortColumnsEqualAt last.sort_columns)).map
      (·.sort_columns) = keepEqual last rest := by
  rw [filter_some, keepEqual]
  split <;> rfl

lemma savedRow_append (hties : t.with_ties = true ∧ 0 < t.limit.toNat)
    (hlimit : rows.length < t.past) (hlast : chunk[t.past - rows.length - 1]? = some last) :
    (savedRow t (rows ++ chunk)).map (·.sort_columns) =
      keepEqual last (chunk.drop (t.past - rows.length)) := by
  rw [savedRow, if_pos hties, getElem?_last hlimit, hlast, drop_past_append hlimit,
    map_filter_keepEqual]

/-- The row that is kept, and that all rows after the limit equal it. -/
lemma savedRow_eq_some (hsaved : savedRow t rows = some last) :
    (t.with_ties = true ∧ 0 < t.limit.toNat) ∧ rows[t.past - 1]? = some last ∧
      (rows.drop t.past).all (sortColumnsEqualAt last.sort_columns) = true := by
  rw [savedRow] at hsaved
  split at hsaved
  · rename_i hties
    obtain ⟨hrow, hall⟩ := Option.filter_eq_some_iff.1 hsaved
    exact ⟨hties, hrow, hall⟩
  · cases hsaved

/-- A chunk after the limit. -/
lemma append_of_saved (hsaved : savedRow t rows = some last) (hpast : t.past ≤ rows.length) :
    limitRows t (rows ++ chunk) =
        limitRows t rows ++ chunk.takeWhile (sortColumnsEqualAt last.sort_columns) ∧
      (savedRow t (rows ++ chunk)).map (·.sort_columns) = keepEqual last chunk := by
  have hdef := past_eq t
  -- the row for ties is the last one within the limit, and all rows behind it are equal
  obtain ⟨hties, hrow, hall⟩ := savedRow_eq_some hsaved
  have hrow' : (rows ++ chunk)[t.past - 1]? = some last := by
    rw [getElem?_append_left (by omega), hrow]
  have hdrop : (rows ++ chunk).drop t.past = rows.drop t.past ++ chunk :=
    drop_append_of_le_length hpast
  constructor
  · rw [limitRows, limitRows, if_pos hties, if_pos hties, tiesAfter_of_last hrow,
      tiesAfter_of_last hrow', hdrop, takeWhile_append_of_pos (all_eq_true.1 hall),
      takeWhile_eq_self_iff.2 (all_eq_true.1 hall), take_drop_append,
      show t.limit.toNat - (rows.length - t.offset.toNat) = 0 by omega, take_zero,
      append_nil, append_assoc]
  · rw [savedRow, if_pos hties, hrow', hdrop, filter_some, keepEqual, all_append, hall,
      Bool.true_and]
    split <;> rfl

/-- A chunk after the limit, in the transform. -/
lemma splitChunk_saved (hlen : chunk.length < 2 ^ 64)
    (hprevious : s.previous_row_chunk = some last.sort_columns)
    (hreach : t.limit_is_unreachable = false) (hread : t.past ≤ s.rows_read.toNat) :
    t.splitChunk s chunk = ({ s with previous_row_chunk := keepEqual last chunk },
      chunk.takeWhile (sortColumnsEqualAt last.sort_columns)) := by
  have hfirst : (s.previous_row_chunk.isSome && !t.limit_is_unreachable &&
      decide (s.rows_read ≥ t.offset + t.limit)) = true := by
    rw [hprevious, hreach, decide_eq_true (le_iff_toNat_le.2
      (by rw [toNat_past hreach]; exact hread))]
    rfl
  have hskip := @toNat_skipEqual _ _ _ _ chunk last.sort_columns 0 hlen (zero_le _)
  have hkeep := @keepEqual_eq _ _ _ _ chunk last 0 hlen (zero_le _)
  rw [toNat_zero, drop_zero] at hskip hkeep
  rw [splitChunk, hfirst, if_pos rfl, ← hkeep, hprevious]
  by_cases hlt : skipEqual (some last.sort_columns) chunk 0 < getNumRows chunk
  · -- the chunk has an unequal row, and the ties end there
    rw [if_pos hlt, if_pos hlt, cut, hskip, toNat_zero, zero_add, drop_zero, take_takeWhile_length]
  · -- all rows of the chunk are equal
    rw [if_neg hlt, if_neg hlt, ← hprevious]
    rw [lt_iff_toNat_lt, hskip, zero_add, toNat_getNumRows hlen,
      takeWhile_length_lt_iff, Bool.not_eq_false] at hlt
    rw [takeWhile_eq_self_iff.2 (all_eq_true.1 hlt)]

/-! ## One chunk -/

variable (s chunk) in
/-- The counters after `rows_read += rows`. -/
def counted : Counters q V := { s with rows_read := s.rows_read + getNumRows chunk }

variable (t s chunk) in
/-- The condition for the whole chunk. -/
def Whole : Prop :=
  getNumRows chunk ≤ UInt64.ofNat (2 ^ 64 - 1) - t.offset ∧
    (counted chunk s).rows_read ≥ t.offset + getNumRows chunk ∧ ¬ t.limit_is_unreachable ∧
      (counted chunk s).rows_read ≤ t.offset + t.limit

lemma processChunk_drop (h : (counted chunk s).rows_read ≤ t.offset) :
    t.processChunk s chunk = (counted chunk s, none) := by
  rw [counted] at h
  rw [processChunk, if_pos h]
  rfl

variable (h : ¬ (counted chunk s).rows_read ≤ t.offset)

include h in
lemma processChunk_whole (hwhole : Whole t chunk s) :
    t.processChunk s chunk =
      if t.with_ties && decide ((counted chunk s).rows_read = t.offset + t.limit) then
        (⟨(counted chunk s).rows_read, makeChunkWithPreviousRow chunk (getNumRows chunk - 1)⟩,
          some chunk)
      else (counted chunk s, some chunk) := by
  rw [counted] at *
  rw [Whole, counted] at hwhole
  rw [processChunk, if_neg h, if_pos hwhole]

include h in
lemma processChunk_split (hwhole : ¬ Whole t chunk s) :
    t.processChunk s chunk = ((t.splitChunk (counted chunk s) chunk).1,
      some (t.splitChunk (counted chunk s) chunk).2) := by
  rw [counted] at *
  rw [Whole, counted] at hwhole
  rw [processChunk, if_neg h, if_neg hwhole]

omit [Ord V] in
lemma toNat_counted (hread : s.rows_read.toNat = rows.length)
    (hlen : rows.length + chunk.length < 2 ^ 64) :
    (counted chunk s).rows_read.toNat = rows.length + chunk.length := by
  have hrows : (getNumRows chunk).toNat = chunk.length := toNat_getNumRows (by omega)
  show (s.rows_read + getNumRows chunk).toNat = _
  rw [toNat_add_of_lt (by omega), hread, hrows]

omit [Ord V] in
/-- A chunk that goes out whole is its piece between the offset and the limit. -/
lemma Whole.bounds (hread : s.rows_read.toNat = rows.length)
    (hlen : rows.length + chunk.length < 2 ^ 64) (hwhole : Whole t chunk s) :
    (pieceStart t rows chunk = 0 ∧ pieceEnd t rows chunk = chunk.length) ∧
      t.limit_is_unreachable = false ∧ rows.length + chunk.length ≤ t.past := by
  obtain ⟨hfits, hafter, hreach, hbefore⟩ := hwhole
  have hoffset := t.offset.toNat_lt
  have hrows : (getNumRows chunk).toNat = chunk.length := toNat_getNumRows (by omega)
  have hcounted := toNat_counted hread hlen
  rw [not_eq_true] at hreach
  rw [le_iff_toNat_le, toNat_sub_of_le (by rw [toNat_max]; omega), toNat_max, hrows] at hfits
  rw [ge_iff_le, le_iff_toNat_le, toNat_add_of_lt (by omega), hrows, hcounted] at hafter
  rw [le_iff_toNat_le, hcounted, toNat_past hreach] at hbefore
  have hstart : pieceStart t rows chunk = 0 := by
    rw [pieceStart, if_neg (by omega)]
    omega
  exact ⟨⟨hstart, min_eq_right (by omega)⟩, hreach, hbefore⟩

variable (hread : s.rows_read.toNat = rows.length) (hlen : rows.length + chunk.length < 2 ^ 64)
  (hlimit : rows.length < t.past) (hoffset : t.offset.toNat < rows.length + chunk.length)
include hread hlen hlimit hoffset

omit [Ord V] hlimit in
lemma not_counted_le : ¬ (counted chunk s).rows_read ≤ t.offset := by
  rw [le_iff_toNat_le, toNat_counted hread hlen]
  omega

/-- The shortcut for a whole chunk gives what `splitChunk` gives. -/
lemma processChunk_eq_split
    (hprevious : t.limit_is_unreachable = false → (counted chunk s).previous_row_chunk = none) :
    t.processChunk s chunk = ((t.splitChunk (counted chunk s) chunk).1,
      some (t.splitChunk (counted chunk s) chunk).2) := by
  have hbefore := not_counted_le hread hlen hoffset
  by_cases hwhole : Whole t chunk s
  · have hcounted := toNat_counted hread hlen
    have hrows : (getNumRows chunk).toNat = chunk.length := toNat_getNumRows (by omega)
    obtain ⟨⟨hstart, hend⟩, hreach, hwithin⟩ := hwhole.bounds hread hlen
    obtain ⟨start, length, hpiece, hfirst, hlength⟩ := piece_spec hcounted hlimit hoffset
    rw [hstart, hend, Nat.sub_zero, ← hrows] at hlength
    obtain rfl : start = 0 := toNat_inj.1 (hfirst.trans hstart)
    obtain rfl : length = getNumRows chunk := toNat_inj.1 hlength
    -- both ways remember the last row under the same condition
    have hties : (t.with_ties && decide (t.offset + t.limit ≤ (counted chunk s).rows_read) &&
        decide (getNumRows chunk ≠ 0)) =
          (t.with_ties && decide ((counted chunk s).rows_read = t.offset + t.limit)) := by
      rw [Bool.and_assoc, ← Bool.decide_and]
      congr 2
      rw [le_iff_toNat_le, ne_eq, ← toNat_inj, ← toNat_inj, hrows, hcounted,
        toNat_past hreach, toNat_zero, eq_iff_iff]
      omega
    rw [processChunk_whole hbefore hwhole, ← hties]
    split_ifs with hcond
    · have hextend : t.extendPiece (counted chunk s) chunk 0 (getNumRows chunk) = _ :=
        extendPiece_ties hcond rfl
      rw [UInt64.zero_add, skipEqual_end hrows.ge, if_neg (UInt64.lt_irrefl _),
        UInt64.sub_zero] at hextend
      rw [splitChunk_eq hprevious hpiece hextend, if_pos rfl]
    · rw [splitChunk_eq hprevious hpiece (if_neg hcond), if_pos rfl]
  · exact processChunk_split hbefore hwhole

end Step

/-! ## All chunks -/

omit [Ord V] in
lemma previous_ne_none (hread : s.rows_read.toNat = rows.length)
    (hopen : t.is_limit_reached s = false) (hreach : t.limit_is_unreachable = false)
    (hpast : t.past ≤ rows.length) : s.previous_row_chunk ≠ none := by
  intro hnone
  have hle : s.rows_read ≥ t.offset + t.limit :=
    le_iff_toNat_le.2 (by rw [toNat_past hreach]; omega)
  rw [is_limit_reached, hreach, hnone, decide_eq_true hle] at hopen
  cases hopen

variable (t chunk) in
/-- What one chunk does to the counters and to the output. -/
def StepOf (rows : List (Row q V A)) (s : Counters q V) : Prop :=
  Describes t (rows ++ chunk) (t.processChunk s chunk).1 ∧
    limitRows t (rows ++ chunk) = limitRows t rows ++ (t.processChunk s chunk).2.getD []

lemma limitRows_before_offset (h : rows.length ≤ t.offset.toNat) : limitRows t rows = [] := by
  have hdef := past_eq t
  rw [limitRows, drop_eq_nil_of_le h, take_nil, tiesAfter_of_le (by omega), ite_self, append_nil]

lemma savedRow_of_short (h : t.with_ties = true ∧ 0 < t.limit.toNat → rows.length < t.past) :
    savedRow t rows = none := by
  by_cases hties : t.with_ties = true ∧ 0 < t.limit.toNat
  · exact savedRow_of_lt (h hties)
  · rw [savedRow, if_neg hties]

section

variable (hs : Describes t rows s) (hlen : rows.length + chunk.length < 2 ^ 64)
include hs hlen

omit hlen in
lemma Describes.previous_eq_none (hlimit : rows.length < t.past)
    (hreach : t.limit_is_unreachable = false) : s.previous_row_chunk = none := by
  rw [hs.previous hreach, savedRow_of_lt hlimit, map_none]

lemma Describes.counted_eq : (counted chunk s).rows_read.toNat = (rows ++ chunk).length := by
  rw [toNat_counted hs.rows_read hlen, length_append]

/-- A chunk before the offset. -/
lemma step_before (hlimit : rows.length < t.past)
    (hbefore : rows.length + chunk.length ≤ t.offset.toNat) : StepOf t chunk rows s := by
  have hdef := past_eq t
  have hcounted := hs.counted_eq hlen
  rw [length_append] at hcounted
  rw [StepOf, processChunk_drop (le_iff_toNat_le.2 (by omega)),
    limitRows_before_offset (by rw [length_append]; omega), limitRows_before_offset (by omega)]
  refine ⟨⟨hs.counted_eq hlen, fun hreach => ?_⟩, rfl⟩
  rw [savedRow_of_short (by rw [length_append]; omega), map_none]
  exact hs.previous_eq_none hlimit hreach

variable (t chunk) in
/-- What a chunk within the limit does: the piece starts where `splitChunk` says, and ties
follow it. -/
def PieceOf (rows : List (Row q V A)) (s : Counters q V) : Prop :=
  Describes t (rows ++ chunk) (t.processChunk s chunk).1 ∧ ∃ ties, (t.processChunk s chunk).2 =
      some ((chunk.take (pieceEnd t rows chunk)).drop (pieceStart t rows chunk) ++ ties) ∧
    limitRows t (rows ++ chunk) = limitRows t rows ++
      ((chunk.take (pieceEnd t rows chunk)).drop (t.offset.toNat - rows.length) ++ ties)

variable (hlimit : rows.length < t.past) (hoffset : t.offset.toNat < rows.length + chunk.length)
include hlimit hoffset

/-- The chunk that the limit ends in, with ties. -/
lemma piece_ties (hties : t.with_ties = true ∧ 0 < t.limit.toNat)
    (hends : t.past ≤ rows.length + chunk.length) : PieceOf t chunk rows s := by
  have hdef := past_eq t
  have hreach : t.limit_is_unreachable = false := reachable_iff.2 (by omega)
  have hend : pieceEnd t rows chunk = t.past - rows.length := min_eq_left (by omega)
  have hstart : pieceStart t rows chunk < pieceEnd t rows chunk := by
    rw [hend, pieceStart]
    split <;> omega
  obtain ⟨last, hlast⟩ : ∃ last, chunk[t.past - rows.length - 1]? = some last :=
    ⟨_, getElem?_eq_getElem (by omega)⟩
  have hprevious := hs.previous_eq_none hlimit
  rw [PieceOf, processChunk_eq_split hs.rows_read hlen hlimit hoffset hprevious,
    splitChunk_ties (toNat_counted hs.rows_read hlen) hlimit hoffset hprevious hties.1 hreach hends
      hstart (by rw [hend]; exact hlast),
    limitRows_append hlimit, if_pos hties, tiesAfter_append hlimit hlast, hend]
  exact ⟨⟨hs.counted_eq hlen, fun _ => (savedRow_append hties hlimit hlast).symm⟩, _, rfl, rfl⟩

/-- Any other chunk that the limit does not end before. -/
lemma piece_plain (hshort : t.with_ties = true → pieceStart t rows chunk < pieceEnd t rows chunk →
      rows.length + chunk.length < t.past)
    (hshort' : t.with_ties = true ∧ 0 < t.limit.toNat → rows.length + chunk.length < t.past) :
    PieceOf t chunk rows s := by
  have hno : (if t.with_ties = true ∧ 0 < t.limit.toNat then tiesAfter t (rows ++ chunk)
      else []) = [] := by
    split
    · rename_i hties
      exact tiesAfter_of_le (by rw [length_append]; exact (hshort' hties).le)
    · rfl
  have hprevious := hs.previous_eq_none hlimit
  obtain ⟨hsame, hnone, hout⟩ := splitChunk_plain (toNat_counted hs.rows_read hlen) hlimit hoffset
    hprevious fun h => absurd h.2.2.1 (not_le.2 (hshort h.1 h.2.2.2))
  rw [PieceOf, processChunk_eq_split hs.rows_read hlen hlimit hoffset hprevious, hout,
    limitRows_append hlimit, hno]
  refine ⟨⟨by rw [hsame, hs.counted_eq hlen], fun hreach => ?_⟩, [], by rw [append_nil], rfl⟩
  rw [hnone hreach, savedRow_of_short (by rw [length_append]; exact hshort'), map_none]

/-- A chunk within the limit. Only without a limit can the piece be empty by definition and
not in `splitChunk`. -/
lemma piece_within (hpositive : pieceStart t rows chunk < pieceEnd t rows chunk →
    0 < t.limit.toNat) : PieceOf t chunk rows s := by
  by_cases hties : (t.with_ties = true ∧ 0 < t.limit.toNat) ∧ t.past ≤ rows.length + chunk.length
  · exact piece_ties hs hlen hlimit hoffset hties.1 hties.2
  · refine piece_plain hs hlen hlimit hoffset (fun hwith hlt => not_le.1 fun hends => ?_)
      fun hwith => not_le.1 fun hends => hties ⟨hwith, hends⟩
    exact hties ⟨⟨hwith, hpositive hlt⟩, hends⟩

/-- A chunk within the limit where the sum fits. -/
lemma step_within (hfits : FitsAt t rows chunk) : StepOf t chunk rows s := by
  have hdef := past_eq t
  have hstart := pieceStart_of_fits hfits hoffset
  obtain ⟨hdescribes, ties, hout, hrows⟩ := piece_within hs hlen hlimit hoffset (by
    rw [hstart, pieceEnd]
    omega)
  rw [hstart] at hout
  rw [StepOf, hout, hrows]
  exact ⟨hdescribes, rfl⟩

omit hlimit hoffset in
/-- A chunk after the limit: the row for ties is there. -/
lemma step_after (hne : chunk ≠ []) (hopen : t.is_limit_reached s = false)
    (hpast : t.past ≤ rows.length) : StepOf t chunk rows s := by
  have hdef := past_eq t
  have hpos := length_pos_iff.2 hne
  have hcounted := toNat_counted hs.rows_read hlen
  have hreach : t.limit_is_unreachable = false := reachable_iff.2 (by omega)
  have hsome := previous_ne_none hs.rows_read hopen hreach hpast
  rw [hs.previous hreach] at hsome
  -- the limit is reached and the transform still reads, so that it waits for ties
  obtain ⟨last, hlast⟩ : ∃ last, savedRow t rows = some last :=
    Option.ne_none_iff_exists'.1 fun hnone => hsome (by rw [hnone, map_none])
  have hbefore : ¬ (counted chunk s).rows_read ≤ t.offset :=
    not_counted_le hs.rows_read hlen (by omega)
  have hwhole : ¬ Whole t chunk s := fun hwhole => by
    have := (hwhole.bounds hs.rows_read hlen).2.2
    omega
  have happend : limitRows t (rows ++ chunk) = _ ∧ (savedRow t (rows ++ chunk)).map _ = _ :=
    append_of_saved hlast hpast
  have hprevious : (counted chunk s).previous_row_chunk = some last.sort_columns :=
    (hs.previous hreach).trans (by rw [hlast, map_some])
  rw [StepOf, processChunk_split hbefore hwhole,
    splitChunk_saved (by omega) hprevious hreach (by omega)]
  exact ⟨⟨hs.counted_eq hlen, fun _ => happend.2.symm⟩, happend.1⟩

end

/-- **One chunk** adds to the output what it adds to the rows of the definition. -/
theorem processChunk_spec (hs : Describes t rows s) (hne : chunk ≠ [])
    (hlen : rows.length + chunk.length < 2 ^ 64) (hopen : t.is_limit_reached s = false)
    (hfits : FitsAt t rows chunk) : StepOf t chunk rows s := by
  rcases le_or_gt t.past rows.length with hpast | hlimit
  · exact step_after hs hlen hne hopen hpast
  rcases le_or_gt (rows.length + chunk.length) t.offset.toNat with hbefore | hoffset
  · exact step_before hs hlen hlimit hbefore
  exact step_within hs hlen hlimit hoffset hfits

variable (t) in
/-- The chunks one after another: the counters and what goes out. -/
def processAll (s : Counters q V) : List (Chunk q V A) → Counters q V × List (Row q V A)
  | [] => (s, [])
  | chunk :: chunks =>
    let r := t.processChunk s chunk
    let rest := processAll r.1 chunks
    (rest.1, r.2.getD [] ++ rest.2)

variable (t) in
/-- The limit is not reached before the last of the chunks. -/
def StaysOpen (s : Counters q V) : List (Chunk q V A) → Prop
  | [] => True
  | chunk :: chunks =>
    t.is_limit_reached s = false ∧ StaysOpen (t.processChunk s chunk).1 chunks

variable (t) in
/-- The sum in `splitChunk` does not wrap around in any of the chunks. -/
def Fits : List (Row q V A) → List (Chunk q V A) → Prop
  | _, [] => True
  | rows, chunk :: chunks => FitsAt t rows chunk ∧ Fits (rows ++ chunk) chunks

variable {chunks more : List (Chunk q V A)}

lemma processAll_append :
    processAll t s (chunks ++ more) =
      ((processAll t (processAll t s chunks).1 more).1,
        (processAll t s chunks).2 ++ (processAll t (processAll t s chunks).1 more).2) := by
  induction chunks generalizing s with
  | nil => rfl
  | cons chunk chunks ih =>
    rw [cons_append, processAll, ih, processAll]
    rw [append_assoc]

lemma staysOpen_append :
    StaysOpen t s (chunks ++ more) ↔
      StaysOpen t s chunks ∧ StaysOpen t (processAll t s chunks).1 more := by
  induction chunks generalizing s with
  | nil => exact (and_iff_right trivial).symm
  | cons chunk chunks ih => rw [cons_append, StaysOpen, ih, StaysOpen, processAll, and_assoc]

variable {chunks : List (Chunk q V A)}

/-- **All chunks**, from any rows already read. -/
theorem processAll_spec (hs : Describes t rows s) (hne : ∀ chunk ∈ chunks, chunk ≠ [])
    (hlen : rows.length + chunks.flatten.length < 2 ^ 64) (hopen : StaysOpen t s chunks)
    (hfits : Fits t rows chunks) :
    Describes t (rows ++ chunks.flatten) (processAll t s chunks).1 ∧
      limitRows t (rows ++ chunks.flatten) = limitRows t rows ++ (processAll t s chunks).2 := by
  induction chunks generalizing rows s with
  | nil =>
    rw [flatten_nil, append_nil, processAll, append_nil]
    exact ⟨hs, rfl⟩
  | cons chunk chunks ih =>
    obtain ⟨hne, hnes⟩ := List.forall_mem_cons.1 hne
    rw [flatten_cons, length_append] at hlen
    obtain ⟨hs', hstep⟩ := processChunk_spec hs hne (by omega) hopen.1 hfits.1
    obtain ⟨hdescribes, hrows⟩ := ih hs' hnes (by rw [length_append]; omega) hopen.2 hfits.2
    rw [flatten_cons, ← append_assoc, processAll]
    refine ⟨hdescribes, ?_⟩
    rw [hrows, hstep, append_assoc]

/-- The counters at the start. -/
lemma describes_nil : Describes t ([] : List (Row q V A)) ⟨0, none⟩ := by
  refine ⟨rfl, fun _ => ?_⟩
  rw [savedRow_of_short, map_none]
  rintro ⟨-, hlimit⟩
  exact lt_of_lt_of_le hlimit (le_add_left _ _)

/-- **Nothing follows** once the limit is reached. -/
theorem limitRows_of_reached (hs : Describes t rows s) (hreached : t.is_limit_reached s = true)
    (more : List (Row q V A)) : limitRows t (rows ++ more) = limitRows t rows := by
  have hdef := past_eq t
  rw [is_limit_reached, and_eq_true, and_eq_true, Bool.not_eq_true', decide_eq_true_eq,
    Option.isNone_iff_eq_none] at hreached
  obtain ⟨⟨hreach, hread⟩, hnone⟩ := hreached
  rw [ge_iff_le, le_iff_toNat_le, toNat_past hreach, hs.rows_read] at hread
  rw [hs.previous hreach, Option.map_eq_none_iff] at hnone
  rw [limitRows, limitRows, take_drop_append,
    show t.limit.toNat - (rows.length - t.offset.toNat) = 0 by omega, take_zero, append_nil]
  congr 1
  split
  · -- the ties have ended with a row that is not equal, so that no later one counts
    rename_i hties
    obtain ⟨last, hlast⟩ : ∃ last, rows[t.past - 1]? = some last :=
      ⟨_, getElem?_eq_getElem (by omega)⟩
    rw [savedRow, if_pos hties, hlast, filter_some] at hnone
    have hall : ¬ (rows.drop t.past).all (sortColumnsEqualAt last.sort_columns) = true := by
      intro hall
      rw [if_pos hall] at hnone
      cases hnone
    have hlt := (takeWhile_length_lt_iff (sortColumnsEqualAt last.sort_columns) _).2
      (Bool.eq_false_of_not_eq_true hall)
    rw [tiesAfter_of_last hlast, tiesAfter_of_last
      (by rw [getElem?_append_left (by omega), hlast]), drop_append_of_le_length hread,
      takeWhile_append, if_neg hlt.ne]
  · rfl

/-! ## Where the sum wraps around -/

omit [Ord V] in
/-- All chunks before the offset or after it. -/
lemma fits_of_same_side
    (h : rows.length + chunks.flatten.length ≤ t.offset.toNat ∨ t.offset.toNat ≤ rows.length) :
    Fits t rows chunks := by
  induction chunks generalizing rows with
  | nil => trivial
  | cons chunk chunks ih =>
    rw [flatten_cons, length_append] at h
    refine ⟨fun h1 h2 => ?_, ih ?_⟩
    · omega
    · rw [length_append]
      omega

omit [Ord V] in
lemma not_fitsAt_iff : ¬ FitsAt t rows chunk ↔ rows.length < t.offset.toNat ∧
    t.offset.toNat < rows.length + chunk.length ∧ 2 ^ 64 ≤ t.offset.toNat + chunk.length := by
  rw [FitsAt]
  omega

omit [Ord V] in
/-- Some chunk does not fit. -/
lemma exists_of_not_fits (h : ¬ Fits t rows chunks) :
    ∃ before chunk after, chunks = before ++ chunk :: after ∧
      ¬ FitsAt t (rows ++ before.flatten) chunk := by
  induction chunks generalizing rows with
  | nil => exact absurd trivial h
  | cons chunk chunks ih =>
    by_cases hfits : FitsAt t rows chunk
    · obtain ⟨before, chunk', after, heq, hnot⟩ := ih fun hrest => h ⟨hfits, hrest⟩
      refine ⟨chunk :: before, chunk', after, by rw [heq, cons_append], ?_⟩
      rwa [flatten_cons, ← append_assoc]
    · exact ⟨[], chunk, chunks, rfl, by rwa [flatten_nil, append_nil]⟩

lemma limitRows_of_limit_zero (h : t.limit.toNat = 0) : limitRows t rows = [] := by
  rw [limitRows, h, take_zero, if_neg fun hties => absurd hties.2 (lt_irrefl _), append_nil]

section Wraps

variable (hs : Describes t rows s) (hlen : rows.length + chunk.length < 2 ^ 64)
  (hwraps : ¬ FitsAt t rows chunk)
include hs hlen hwraps

/-- The chunk goes out with the rows before the offset. -/
lemma wraps_piece (hlimit : 0 < t.limit.toNat) :
    Describes t (rows ++ chunk) (t.processChunk s chunk).1 ∧ ∃ extra, extra ≠ [] ∧
      limitRows t rows ++ (t.processChunk s chunk).2.getD [] =
        extra ++ limitRows t (rows ++ chunk) := by
  have hdef := past_eq t
  obtain ⟨hbefore, hoffset, hsum⟩ := not_fitsAt_iff.1 hwraps
  have hstart : pieceStart t rows chunk = 0 := if_pos ⟨hbefore, hsum⟩
  obtain ⟨hdescribes, ties, hout, hrows⟩ := piece_within hs hlen (by omega) hoffset fun _ => hlimit
  refine ⟨hdescribes, (chunk.take (pieceEnd t rows chunk)).take (t.offset.toNat - rows.length),
    ?_, ?_⟩
  · rw [← length_pos_iff, length_take, length_take, pieceEnd]
    omega
  · rw [hout, hstart, hrows, limitRows_before_offset hbefore.le, nil_append, nil_append,
      drop_zero, Option.getD_some, ← append_assoc, take_append_drop]

/-- Without a limit rows go out all the same. -/
lemma wraps_limit_zero (hzero : t.limit.toNat = 0) : (t.processChunk s chunk).2.getD [] ≠ [] := by
  have hdef := past_eq t
  obtain ⟨hbefore, hoffset, hsum⟩ := not_fitsAt_iff.1 hwraps
  -- the sum has wrapped, and the piece starts with the chunk
  have hstart : pieceStart t rows chunk = 0 := if_pos ⟨hbefore, hsum⟩
  have hend : pieceEnd t rows chunk = t.past - rows.length := min_eq_left (by omega)
  have hreach : t.limit_is_unreachable = false := reachable_iff.2 (by omega)
  have hlimit : rows.length < t.past := by omega
  have hprevious := hs.previous_eq_none hlimit
  have hcounted := toNat_counted hs.rows_read hlen
  rw [processChunk_eq_split hs.rows_read hlen hlimit hoffset hprevious]
  have hpiece : (chunk.take (pieceEnd t rows chunk)).drop (pieceStart t rows chunk) ≠ [] := by
    rw [hstart, drop_zero, hend, ← length_pos_iff, length_take]
    omega
  by_cases hties : t.with_ties = true
  · obtain ⟨last, hlast⟩ : ∃ last, chunk[pieceEnd t rows chunk - 1]? = some last :=
      ⟨_, getElem?_eq_getElem (by omega)⟩
    rw [splitChunk_ties hcounted hlimit hoffset hprevious hties hreach (by omega) (by omega) hlast]
    exact append_ne_nil_of_left_ne_nil hpiece _
  · obtain ⟨-, -, hout⟩ := splitChunk_plain hcounted hlimit hoffset hprevious fun h => hties h.1
    rw [hout]
    exact hpiece

end Wraps

/-- **The output is wrong** if the sum wraps around in one of the chunks. -/
theorem processAll_ne_of_not_fits (hne : ∀ chunk ∈ chunks, chunk ≠ [])
    (hlen : chunks.flatten.length < 2 ^ 64) (hopen : StaysOpen t ⟨0, none⟩ chunks)
    (hwraps : ¬ Fits t [] chunks) (more : List (Row q V A))
    (hmore : more = [] ∨ t.is_limit_reached (processAll t ⟨0, none⟩ chunks).1 = true) :
    (processAll t ⟨0, none⟩ chunks).2 ≠ limitRows t (chunks.flatten ++ more) := by
  obtain ⟨before, chunk, after, rfl, hnot⟩ := exists_of_not_fits hwraps
  rw [nil_append] at hnot
  obtain ⟨hbefore, hoffset, -⟩ := not_fitsAt_iff.1 hnot
  rw [flatten_append, flatten_cons, length_append, length_append] at hlen
  obtain ⟨hopen_before, hopen_chunk, hopen_after⟩ := staysOpen_append.1 hopen
  have hne_before : ∀ c ∈ before, c ≠ [] := fun c hc => hne c (mem_append_left _ hc)
  have hne_after : ∀ c ∈ after, c ≠ [] := fun c hc =>
    hne c (mem_append_right _ (List.mem_cons_of_mem _ hc))
  obtain ⟨hs, hrows⟩ := processAll_spec describes_nil hne_before (by simp only [length_nil]; omega)
    hopen_before (fits_of_same_side (.inl (by simp only [length_nil]; omega)))
  rw [nil_append] at hs hrows
  rw [limitRows_before_offset hbefore.le, limitRows_before_offset (zero_le _), nil_append] at hrows
  have hall : (processAll t ⟨0, none⟩ (before ++ chunk :: after)).2 =
      (t.processChunk (processAll t ⟨0, none⟩ before).1 chunk).2.getD [] ++
        (processAll t (t.processChunk (processAll t ⟨0, none⟩ before).1 chunk).1 after).2 := by
    rw [processAll_append, ← hrows, nil_append, processAll]
  have hfinal : (processAll t ⟨0, none⟩ (before ++ chunk :: after)).1 =
      (processAll t (t.processChunk (processAll t ⟨0, none⟩ before).1 chunk).1 after).1 := by
    rw [processAll_append, processAll]
  rw [hall]
  rw [hfinal] at hmore
  rcases Nat.eq_zero_or_pos t.limit.toNat with hzero | hlimit
  · rw [limitRows_of_limit_zero hzero]
    exact append_ne_nil_of_left_ne_nil (wraps_limit_zero hs (by omega) hnot hzero) _
  -- from here on the output is that of the definition behind the extra rows
  obtain ⟨hs', extra, hextra, hout⟩ := wraps_piece hs (by omega) hnot hlimit
  rw [limitRows_before_offset hbefore.le, nil_append] at hout
  obtain ⟨hs'', hrows'⟩ := processAll_spec hs' hne_after (by rw [length_append]; omega)
    hopen_after (fits_of_same_side (.inr (by rw [length_append]; omega)))
  have hspec : limitRows t ((before ++ chunk :: after).flatten ++ more) =
      limitRows t (before.flatten ++ chunk ++ after.flatten) := by
    have hflat : (before ++ chunk :: after).flatten = before.flatten ++ chunk ++ after.flatten := by
      rw [flatten_append, flatten_cons, append_assoc]
    rw [hflat]
    rcases hmore with rfl | hreached
    · rw [append_nil]
    · exact limitRows_of_reached hs'' hreached more
  rw [hspec, hrows', hout, append_assoc]
  intro heq
  have hlength := congrArg List.length heq
  rw [length_append] at hlength
  exact hextra (length_eq_zero_iff.1 (by omega))

end ClickHouse.Limit
