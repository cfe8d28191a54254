/-
`MergeTreePartInfo` (`src/Storages/MergeTree/MergeTreePartInfo.{h,cpp}`): the
block range of a data part, its order, the two relations between parts the rest
of the storage is built on, the part's name, and when parts tile a block range.

`kind` is left out: `Kind` has the single value `Regular`, so the first
component of `toTuple()` never decides a comparison.
-/
import ClickHouse.IO.Text
import Mathlib

set_option autoImplicit false

namespace ClickHouse

/-- Information about the partition and the range of blocks of a part. -/
structure MergeTreePartInfo where
  partition_id : Bytes
  min_block : ℤ
  max_block : ℤ
  level : ℕ
  mutation : ℤ := 0
  use_legacy_max_level : Bool := false
  deriving DecidableEq, Repr

namespace MergeTreePartInfo

/-- `MAX_LEVEL`. -/
def MAX_LEVEL : ℕ := 999999999

/-- `LEGACY_MAX_LEVEL`, the maximum of `UInt32`. -/
def LEGACY_MAX_LEVEL : ℕ := 2 ^ 32 - 1

variable (p : MergeTreePartInfo)

/-- `toTuple()`: the fields `operator<=>` and `operator==` read. The
`use_legacy_max_level` flag is not among them. -/
def toTuple : Bytes ×ₗ ℤ ×ₗ ℤ ×ₗ ℕ ×ₗ ℤ :=
  toLex (p.partition_id, toLex (p.min_block, toLex (p.max_block, toLex (p.level, p.mutation))))

/-- `contains`: the part was obtained by merging `rhs` with other parts or by
mutating it. A containing part may have an equal level only if the block
numbers are equal, or the level is one of the two maximal ones. -/
def contains (p rhs : MergeTreePartInfo) : Bool :=
  let strictly_contains_block_range :=
    (p.min_block == rhs.min_block && p.max_block == rhs.max_block)
      || decide (rhs.level < p.level)
      || p.level == MAX_LEVEL
      || p.level == LEGACY_MAX_LEVEL
  p.partition_id == rhs.partition_id
    && decide (p.min_block ≤ rhs.min_block)
    && decide (rhs.max_block ≤ p.max_block)
    && decide (rhs.level ≤ p.level)
    && decide (rhs.mutation ≤ p.mutation)
    && strictly_contains_block_range

/-- `isDisjoint`: the parts do not intersect in any way. -/
def isDisjoint (p rhs : MergeTreePartInfo) : Bool :=
  p.partition_id != rhs.partition_id
    || decide (rhs.max_block < p.min_block)
    || decide (p.max_block < rhs.min_block)

/-- A part info as the callers build it: the block range is not reversed. -/
def Valid : Prop := p.min_block ≤ p.max_block

instance (p : MergeTreePartInfo) : Decidable p.Valid := inferInstanceAs (Decidable (_ ≤ _))

/-! ## The two relations -/

variable (p q : MergeTreePartInfo)

lemma contains_iff :
    p.contains q = true ↔
      p.partition_id = q.partition_id ∧ p.min_block ≤ q.min_block ∧ q.max_block ≤ p.max_block
        ∧ q.level ≤ p.level ∧ q.mutation ≤ p.mutation
        ∧ ((p.min_block = q.min_block ∧ p.max_block = q.max_block) ∨ q.level < p.level
            ∨ p.level = MAX_LEVEL ∨ p.level = LEGACY_MAX_LEVEL) := by
  simp only [contains, Bool.and_eq_true, Bool.or_eq_true, beq_iff_eq, decide_eq_true_eq,
    and_assoc, or_assoc]

/-- A part contains itself. -/
lemma contains_refl : p.contains p = true := by
  simp [contains_iff]

/-- **Containment is transitive**, with the clauses for the maximal levels: if they let
the middle part contain one of an equal level, the first part has that level as well. -/
theorem contains_trans {p q r : MergeTreePartInfo} (hpq : p.contains q = true)
    (hqr : q.contains r = true) : p.contains r = true := by
  rw [contains_iff] at hpq hqr ⊢
  obtain ⟨hpart, hmin, hmax, hlevel, hmutation, hstrict⟩ := hpq
  obtain ⟨hpart', hmin', hmax', hlevel', hmutation', hstrict'⟩ := hqr
  refine ⟨hpart.trans hpart', hmin.trans hmin', hmax'.trans hmax, hlevel'.trans hlevel,
    hmutation'.trans hmutation, ?_⟩
  omega

lemma toTuple_eq_iff :
    p.toTuple = q.toTuple ↔ p.partition_id = q.partition_id ∧ p.min_block = q.min_block
      ∧ p.max_block = q.max_block ∧ p.level = q.level ∧ p.mutation = q.mutation := by
  simp only [toTuple, EmbeddingLike.apply_eq_iff_eq, Prod.mk.injEq]

variable {p q : MergeTreePartInfo}

/-- Parts that contain each other are one part to the map. -/
lemma toTuple_eq_of_contains (hpq : p.contains q = true) (hqp : q.contains p = true) :
    p.toTuple = q.toTuple := by
  obtain ⟨hpart, hmin, hmax, hlevel, hmutation, -⟩ := (contains_iff p q).1 hpq
  obtain ⟨-, hmin', hmax', hlevel', hmutation', -⟩ := (contains_iff q p).1 hqp
  exact (toTuple_eq_iff p q).2 ⟨hpart, le_antisymm hmin hmin', le_antisymm hmax' hmax,
    le_antisymm hlevel' hlevel, le_antisymm hmutation' hmutation⟩

lemma contains_of_toTuple_eq (h : p.toTuple = q.toTuple) : p.contains q = true := by
  obtain ⟨hpart, hmin, hmax, hlevel, hmutation⟩ := (toTuple_eq_iff p q).1 h
  exact (contains_iff p q).2 ⟨hpart, hmin.le, hmax.ge, hlevel.ge, hmutation.ge, .inl ⟨hmin, hmax⟩⟩

lemma isDisjoint_iff :
    p.isDisjoint q = true ↔
      p.partition_id ≠ q.partition_id ∨ q.max_block < p.min_block ∨ p.max_block < q.min_block := by
  simp only [isDisjoint, Bool.or_eq_true, bne_iff_ne, decide_eq_true_eq, or_assoc]

lemma isDisjoint_comm : p.isDisjoint q = q.isDisjoint p := by
  rw [Bool.eq_iff_iff, isDisjoint_iff, isDisjoint_iff]
  constructor
  · rintro (h | h | h)
    · exact Or.inl h.symm
    · exact Or.inr (Or.inr h)
    · exact Or.inr (Or.inl h)
  · rintro (h | h | h)
    · exact Or.inl h.symm
    · exact Or.inr (Or.inr h)
    · exact Or.inr (Or.inl h)

/-- Two parts of one partition with a common block are not disjoint. -/
lemma not_isDisjoint_of_common {b : ℤ} (hpart : p.partition_id = q.partition_id)
    (hp : p.min_block ≤ b ∧ b ≤ p.max_block) (hq : q.min_block ≤ b ∧ b ≤ q.max_block) :
    p.isDisjoint q = false := by
  rw [← Bool.not_eq_true, isDisjoint_iff]
  rintro (h | h | h)
  · exact h hpart
  · omega
  · omega

/-- A part that contains a valid part is not disjoint from it. -/
lemma not_isDisjoint_of_contains (hq : q.Valid) (h : p.contains q = true) :
    p.isDisjoint q = false := by
  obtain ⟨hpart, hmin, hmax, -⟩ := (contains_iff p q).1 h
  have hv : q.min_block ≤ q.max_block := hq
  exact not_isDisjoint_of_common hpart (b := q.min_block) ⟨hmin, by omega⟩ ⟨le_refl _, hv⟩

/-- What the map order says about the partition and the first block: the only
facts about `toTuple` the neighbour walks use. -/
lemma le_of_toTuple_le (h : p.toTuple ≤ q.toTuple) :
    p.partition_id < q.partition_id ∨ p.partition_id = q.partition_id ∧
      p.min_block ≤ q.min_block := by
  rcases (Prod.Lex.le_iff).1 h with h | ⟨heq, h⟩
  · exact Or.inl h
  · refine Or.inr ⟨heq, ?_⟩
    rcases (Prod.Lex.le_iff).1 h with h | ⟨heq, -⟩
    · exact le_of_lt h
    · exact le_of_eq heq

/-- In the map order the parts between two parts of one partition belong to that
partition, and start between them. -/
lemma between_of_toTuple {r q : MergeTreePartInfo} (hpr : p.toTuple ≤ r.toTuple)
    (hrq : r.toTuple ≤ q.toTuple) (hpart : p.partition_id = q.partition_id) :
    r.partition_id = p.partition_id ∧ p.min_block ≤ r.min_block ∧ r.min_block ≤ q.min_block := by
  rcases le_of_toTuple_le hpr with h1 | ⟨h1, hmin1⟩ <;>
    rcases le_of_toTuple_le hrq with h2 | ⟨h2, hmin2⟩
  · exact absurd (h1.trans h2) (by rw [hpart]; exact lt_irrefl _)
  · exact absurd h1 (by rw [hpart, h2]; exact lt_irrefl _)
  · exact absurd h2 (by rw [← h1, hpart]; exact lt_irrefl _)
  · exact ⟨h1.symm, hmin1, hmin2⟩

/-! ## Part names -/

/-- `getPartNameV1`. -/
def getPartNameV1 (p : MergeTreePartInfo) : Bytes :=
  p.partition_id ++ ch '_' :: writeIntText p.min_block ++ ch '_' :: writeIntText p.max_block
    ++ ch '_' :: writeIntText (if p.use_legacy_max_level then LEGACY_MAX_LEVEL else p.level)
    ++ (if p.mutation ≠ 0 then ch '_' :: writeIntText p.mutation else [])

/-- `getPartNameForLogs`: the new format whatever the table's version is. -/
def getPartNameForLogs (p : MergeTreePartInfo) : Bytes := p.getPartNameV1

/-- `MERGE_TREE_DATA_MIN_FORMAT_VERSION_WITH_CUSTOM_PARTITIONING`. -/
def MIN_FORMAT_VERSION_WITH_CUSTOM_PARTITIONING : ℕ := 1

/-- `getPartNameAndCheckFormat`. -/
def getPartNameAndCheckFormat (p : MergeTreePartInfo) (format_version : ℕ) :
    Except Exception Bytes :=
  if format_version = MIN_FORMAT_VERSION_WITH_CUSTOM_PARTITIONING then .ok p.getPartNameV1
  else .error ⟨.BAD_DATA_PART_NAME, str ("Trying to get part name in new format for old format "
    ++ "version. Either some new feature is incompatible with deprecated *MergeTree definition "
    ++ "syntax or it's a bug.")⟩

/-- The part of `tryParsePartName` that reads the partition id, up to and with
the separator: from the two dates in the old format, up to the first `_` in the
new one. -/
def readPartitionId (format_version : ℕ) (name : Bytes) : Option (Bytes × Bytes) :=
  if format_version < MIN_FORMAT_VERSION_WITH_CUSTOM_PARTITIONING then do
    let (min_yyyymmdd, buf) ← tryReadIntText .uint32 name
    let buf ← checkChar (ch '_') buf
    let (_, buf) ← tryReadIntText .uint32 buf
    let buf ← checkChar (ch '_') buf
    pure (writeIntText (min_yyyymmdd / 100), buf)
  else
    -- `readChar` consumes the separator it stops at
    some (name.takeWhile (· ≠ ch '_'), (name.dropWhile (· ≠ ch '_')).drop 1)

/-- The optional suffix of the name: the mutation version, read as `UInt32`. -/
def readMutation (buf : Bytes) : Option ℤ :=
  if buf.isEmpty then some 0
  else do
    let buf ← checkChar (ch '_') buf
    let (mutation, buf) ← tryReadIntText .uint32 buf
    if buf.isEmpty then pure mutation else none

/-- `tryParsePartName`. -/
def tryParsePartName (name : Bytes) (format_version : ℕ) : Option MergeTreePartInfo := do
  let (partition_id, buf) ← readPartitionId format_version name
  if partition_id.isEmpty then none
  else
    let (min_block, buf) ← tryReadIntText .int64 buf
    let buf ← checkChar (ch '_') buf
    let (max_block, buf) ← tryReadIntText .int64 buf
    let buf ← checkChar (ch '_') buf
    let (level, buf) ← tryReadIntText .uint32 buf
    if max_block < min_block then none
    else
      let mutation ← readMutation buf
      -- the two maximal levels are made one, and the name keeps the old one
      let legacy := level.toNat == LEGACY_MAX_LEVEL
      pure
        { partition_id := partition_id
          min_block := min_block
          max_block := max_block
          level := if legacy then MAX_LEVEL else level.toNat
          mutation := mutation
          use_legacy_max_level := legacy }

/-- `fromPartName`. -/
def fromPartName (name : Bytes) (format_version : ℕ) : Except Exception MergeTreePartInfo :=
  match tryParsePartName name format_version with
  | some p => .ok p
  | none => .error ⟨.BAD_DATA_PART_NAME, str "Unexpected part name: " ++ name
      ++ str " for format version: " ++ natText format_version⟩

/-- Parsing refuses a reversed block range, so a parsed part is valid. -/
lemma valid_of_tryParsePartName {name : Bytes} {v : ℕ}
    (h : tryParsePartName name v = some p) : p.Valid := by
  simp only [tryParsePartName, Option.bind_eq_bind, Option.bind_eq_some_iff] at h
  obtain ⟨⟨pid, b0⟩, -, h⟩ := h
  split at h
  · cases h
  simp only [Option.bind_eq_some_iff] at h
  obtain ⟨⟨lo, b1⟩, -, b2, -, ⟨hi, b3⟩, -, b4, -, ⟨lev, b5⟩, -, h⟩ := h
  split at h
  · cases h
  · rename_i hle
    simp only [Option.bind_eq_some_iff, Option.pure_def, Option.some.injEq] at h
    obtain ⟨m, -, rfl⟩ := h
    exact not_lt.1 hle

lemma valid_of_fromPartName {name : Bytes} {v : ℕ}
    (h : fromPartName name v = .ok p) : p.Valid := by
  unfold fromPartName at h
  split at h
  · rename_i q hq
    cases h
    exact valid_of_tryParsePartName hq
  · cases h

open List

/-! ## Covered block numbers -/

/-- The result of an operation on `int64_t`: what does not fit is undefined. -/
def int64 (n : ℤ) : Eval ℤ :=
  if -2 ^ 63 ≤ n ∧ n < 2 ^ 63 then .ok n else .error .undefined_behaviour

/-- The loop of `areAllBlockNumbersCovered`: `none` if a candidate does not begin right after
the one before, the last `current_right_block` otherwise. -/
def lastCovered : ℤ → List MergeTreePartInfo → Eval (Option ℤ)
  | current_right_block, [] => .ok (some current_right_block)
  | current_right_block, candidate :: rest => do
    let next_block ← int64 (current_right_block + 1)
    if next_block ≠ candidate.min_block then .ok none else lastCovered candidate.max_block rest

/-- `areAllBlockNumbersCovered`: the candidates follow one another from end to end of the range. -/
def areAllBlockNumbersCovered (blocks_range : MergeTreePartInfo)
    (candidates : List MergeTreePartInfo) : Eval Bool :=
  match candidates.mergeSort fun p q => p.toTuple ≤ q.toTuple with
  | [] => .ok false
  | first :: rest =>
    if first.min_block ≠ blocks_range.min_block then .ok false
    else do
      let current_right_block ← int64 (first.min_block - 1)
      let right_block ← lastCovered current_right_block (first :: rest)
      .ok (right_block == some blocks_range.max_block)

/-- The second part begins right after the first one. -/
def Adjacent (p q : MergeTreePartInfo) : Prop := p.max_block + 1 = q.min_block

/-- The parts, in this order, are adjacent, begin where the range begins and end where it ends. -/
def Tiles (l : List MergeTreePartInfo) (blocks_range : MergeTreePartInfo) : Prop :=
  l.IsChain Adjacent ∧ l.head?.map min_block = some blocks_range.min_block ∧
    l.getLast?.map max_block = some blocks_range.max_block

/-- A part of which neither the block before its first one nor the block after its last one is
outside of `int64_t`. -/
def HasNeighbours (p : MergeTreePartInfo) : Prop :=
  -2 ^ 63 < p.min_block ∧ p.max_block < 2 ^ 63 - 1

instance (p : MergeTreePartInfo) : Decidable p.HasNeighbours := inferInstanceAs (Decidable (_ ∧ _))

lemma int64_of_mem {n : ℤ} (hlo : -2 ^ 63 ≤ n) (hhi : n < 2 ^ 63) : int64 n = .ok n :=
  if_pos ⟨hlo, hhi⟩

/-- The loop arrives where the last of the adjacent parts ends. -/
lemma lastCovered_eq_ok {first : MergeTreePartInfo} {rest : List MergeTreePartInfo}
    (h : ∀ p ∈ first :: rest, p.Valid ∧ p.HasNeighbours) :
    ∃ right_block, lastCovered first.max_block rest = .ok right_block ∧ ∀ b,
      right_block = some b ↔
        (first :: rest).IsChain Adjacent ∧ (first :: rest).getLast?.map max_block = some b := by
  induction rest generalizing first with
  | nil => exact ⟨_, rfl, by simp⟩
  | cons q rest ih =>
    obtain ⟨⟨hvalid, hlo, hhi⟩, hrest⟩ := forall_mem_cons.1 h
    have hnext : int64 (first.max_block + 1) = .ok (first.max_block + 1) :=
      int64_of_mem (by rw [Valid] at hvalid; omega) (by omega)
    rw [lastCovered, hnext]
    simp only [isChain_cons_cons, and_assoc, getLast?_cons_cons]
    obtain ⟨right_block, hright, hiff⟩ := ih hrest
    by_cases hadj : first.Adjacent q
    · refine ⟨right_block, (if_neg (not_not.2 hadj)).trans hright, fun b => ?_⟩
      rw [hiff, and_iff_right hadj]
    · exact ⟨none, if_pos hadj, fun b => by simp [hadj]⟩

/-- Adjacent parts of a partition are in the order of the parts. -/
lemma pairwise_of_adjacent {l : List MergeTreePartInfo} {partition_id : Bytes}
    (h : l.IsChain Adjacent) (hl : ∀ p ∈ l, p.partition_id = partition_id ∧ p.Valid) :
    (l.map toTuple).Pairwise (· < ·) := by
  refine isChain_iff_pairwise.1 ((isChain_map toTuple).2 (h.imp_of_mem_imp fun p q hp hq hpq => ?_))
  refine not_le.1 fun hle => ?_
  have hpart : q.partition_id = p.partition_id := (hl q hq).1.trans (hl p hp).1.symm
  have hvalid : p.min_block ≤ p.max_block := (hl p hp).2
  rw [Adjacent] at hpq
  rcases le_of_toTuple_le hle with hlt | ⟨-, hmin⟩
  · exact absurd hpart hlt.ne
  · omega

/-- The loop answers, and what it answers is whether the sorted candidates tile the range. -/
lemma areAllBlockNumbersCovered_eq_ok (blocks_range : MergeTreePartInfo)
    {candidates : List MergeTreePartInfo} (h : ∀ p ∈ candidates, p.Valid ∧ p.HasNeighbours) :
    ∃ covered, areAllBlockNumbersCovered blocks_range candidates = .ok covered ∧
      (covered = true ↔
        Tiles (candidates.mergeSort fun p q => p.toTuple ≤ q.toTuple) blocks_range) := by
  have hmem := fun p =>
    (mergeSort_perm candidates fun p q => p.toTuple ≤ q.toTuple).mem_iff (a := p)
  rw [areAllBlockNumbersCovered, Tiles]
  revert hmem
  cases candidates.mergeSort fun p q => p.toTuple ≤ q.toTuple with
  | nil => exact fun _ => ⟨false, rfl, by simp⟩
  | cons first rest =>
    intro hmem
    have hall : ∀ p ∈ first :: rest, p.Valid ∧ p.HasNeighbours := fun p hp => h p ((hmem p).1 hp)
    obtain ⟨hvalid, hlo, hhi⟩ := hall first mem_cons_self
    rw [Valid] at hvalid
    obtain ⟨right_block, hright, hiff⟩ := lastCovered_eq_ok hall
    by_cases hmin : first.min_block = blocks_range.min_block
    · -- `current_right_block` starts one block early, so the first candidate passes the test
      have hfirst : lastCovered (first.min_block - 1) (first :: rest) = .ok right_block := by
        rw [lastCovered, sub_add_cancel, int64_of_mem (by omega) (by omega)]
        exact (if_neg (not_not.2 rfl)).trans hright
      refine ⟨right_block == some blocks_range.max_block, ?_, ?_⟩
      · refine (if_neg (not_not.2 hmin)).trans ?_
        rw [int64_of_mem (by omega) (by omega)]
        exact congrArg (fun x => x >>= fun b => .ok (b == some blocks_range.max_block)) hfirst
      · rw [beq_iff_eq, hiff, head?_cons, Option.map_some, hmin]
        exact and_congr_right fun _ => (and_iff_right rfl).symm
    · -- the first candidate begins elsewhere
      exact ⟨false, if_pos hmin, by simp [hmin]⟩

/-- **All block numbers are covered** exactly if the candidates, in some order, tile the range. -/
theorem areAllBlockNumbersCovered_iff {blocks_range : MergeTreePartInfo} {partition_id : Bytes}
    {candidates : List MergeTreePartInfo}
    (h : ∀ p ∈ candidates, p.partition_id = partition_id ∧ p.Valid ∧ p.HasNeighbours) :
    ∃ covered, areAllBlockNumbersCovered blocks_range candidates = .ok covered ∧
      (covered = true ↔ ∃ l, l.Perm candidates ∧ Tiles l blocks_range) := by
  have hperm := mergeSort_perm candidates fun p q => p.toTuple ≤ q.toTuple
  obtain ⟨covered, hcovered, hloop⟩ :=
    areAllBlockNumbersCovered_eq_ok blocks_range fun p hp => (h p hp).2
  refine ⟨covered, hcovered, hloop.trans ⟨fun htiles => ⟨_, hperm, htiles⟩, ?_⟩⟩
  rintro ⟨l, hl, htiles⟩
  have hlt := pairwise_of_adjacent htiles.1 fun p hp =>
    ⟨(h p (hl.mem_iff.1 hp)).1, (h p (hl.mem_iff.1 hp)).2.1⟩
  have hsame := hl.trans hperm.symm
  rwa [← hsame.eq_of_pairwise (fun p q hp hq hpq hqp => inj_on_of_nodup_map (hlt.imp LT.lt.ne) hp
    (hsame.mem_iff.2 hq) (le_antisymm hpq hqp)) ((pairwise_map.1 hlt).imp le_of_lt)
    (pairwise_mergeSort' (fun p q => p.toTuple ≤ q.toTuple) candidates)]

/-- Two parts, given in the wrong order. -/
theorem areAllBlockNumbersCovered_at_two_parts :
    ∃ covered, areAllBlockNumbersCovered ⟨[97], 0, 4, 1, 0, false⟩
        [⟨[97], 2, 4, 0, 0, false⟩, ⟨[97], 0, 1, 0, 0, false⟩] = .ok covered ∧
      (covered = true ↔ ∃ l : List MergeTreePartInfo,
        l.Perm [⟨[97], 2, 4, 0, 0, false⟩, ⟨[97], 0, 1, 0, 0, false⟩] ∧
          Tiles l ⟨[97], 0, 4, 1, 0, false⟩) :=
  @areAllBlockNumbersCovered_iff _ [97] _ (by decide)

end MergeTreePartInfo

end ClickHouse
