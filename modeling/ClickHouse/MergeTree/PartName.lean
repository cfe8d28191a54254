/-
The name of a part and what is read back from it (`getPartNameV1` and `tryParsePartName`,
`src/Storages/MergeTree/MergeTreePartInfo.cpp`).

The fields of a name are separated by underscores, which neither a partition id nor a number
has, so each field is read up to the underscore after it: the round trip is the round trip of
the numbers, one after another. A block number is read as the `Int64` it was written from. The
mutation version is an `Int64` as well, but it is read as a `UInt32`, and a number that does
not fit is refused; so the versions below 2³² are those that come back.
-/
import ClickHouse.MergeTree.PartInfo

set_option autoImplicit false

namespace ClickHouse.MergeTreePartInfo

open List

/-- A part info with fields of their types, as a part with a name has them: the partition id
is one field of the name, and `use_legacy_max_level` tells which of the two names of the
maximal level is written. -/
structure Nameable (p : MergeTreePartInfo) : Prop where
  partition_id_ne_nil : p.partition_id ≠ []
  partition_id_no_separator : ch '_' ∉ p.partition_id
  min_block_nonneg : 0 ≤ p.min_block
  min_block_le : p.min_block ≤ p.max_block
  max_block_lt : p.max_block < 2 ^ 63
  level_lt : p.level < 2 ^ 32
  level_legacy : p.use_legacy_max_level = true → p.level = MAX_LEVEL
  level_not_legacy : p.use_legacy_max_level = false → p.level ≠ LEGACY_MAX_LEVEL
  mutation_nonneg : 0 ≤ p.mutation
  mutation_lt : p.mutation < 2 ^ 63

lemma readPartitionId_append {format_version : ℕ}
    (hv : MIN_FORMAT_VERSION_WITH_CUSTOM_PARTITIONING ≤ format_version) {partition_id : Bytes}
    (h : ch '_' ∉ partition_id) (rest : Bytes) :
    readPartitionId format_version (partition_id ++ ch '_' :: rest) =
      some (partition_id, rest) := by
  have hall : ∀ c ∈ partition_id, decide (c ≠ ch '_') = true := fun c hc =>
    decide_eq_true fun heq => h (heq ▸ hc)
  rw [readPartitionId, if_neg (not_lt.2 hv), takeWhile_append_of_pos hall,
    dropWhile_append_of_pos hall]
  simp

/-- A number that is not negative is read back as the type allows. -/
lemma tryReadIntText_of_nonneg {z : ℤ} (hz : 0 ≤ z) (T : IntType) {rest : Bytes}
    (hrest : ∀ c ∈ rest.head?, isNumericASCII c = false) :
    tryReadIntText T (writeIntText z ++ rest) =
      if z ≤ T.limit false then some (z, rest) else none := by
  obtain ⟨n, rfl⟩ := Int.eq_ofNat_of_zero_le hz
  rw [tryReadIntText_writeIntText T n hrest]
  simp only [Int.ofNat_le]

lemma head_separator {rest : Bytes} : ∀ c ∈ (ch '_' :: rest).head?, isNumericASCII c = false := by
  rintro c ⟨⟩
  decide

/-- The suffix of the name: a version is read back if it fits into `UInt32`. -/
lemma readMutation_suffix {mutation : ℤ} (h : 0 ≤ mutation) :
    readMutation (if mutation ≠ 0 then ch '_' :: writeIntText mutation else []) =
      if mutation < 2 ^ 32 then some mutation else none := by
  by_cases hzero : mutation = 0
  · subst hzero
    rfl
  have hnil : ∀ c ∈ ([] : Bytes).head?, isNumericASCII c = false := by simp
  have hread := tryReadIntText_of_nonneg h .uint32 hnil
  rw [append_nil] at hread
  have hiff : mutation ≤ IntType.uint32.limit false ↔ mutation < 2 ^ 32 := by
    change mutation ≤ 4294967295 ↔ _
    omega
  rw [if_pos hzero, readMutation, isEmpty_cons, if_neg Bool.false_ne_true, checkChar, if_pos rfl]
  simp only [Option.bind_eq_bind, Option.bind_some, hread, hiff]
  split_ifs <;> rfl

/-- The level as the name has it. -/
def writtenLevel (p : MergeTreePartInfo) : ℕ :=
  if p.use_legacy_max_level then LEGACY_MAX_LEVEL else p.level

variable {p : MergeTreePartInfo}

lemma Nameable.writtenLevel_le (h : p.Nameable) :
    (p.writtenLevel : ℤ) ≤ IntType.uint32.limit false := by
  have hlt := h.level_lt
  change (p.writtenLevel : ℤ) ≤ 4294967295
  rw [writtenLevel, LEGACY_MAX_LEVEL]
  split_ifs <;> omega

/-- The flag and the level are told from the level that was written. -/
lemma Nameable.level_of_writtenLevel (h : p.Nameable) :
    (p.writtenLevel == LEGACY_MAX_LEVEL) = p.use_legacy_max_level ∧
      (if p.use_legacy_max_level then MAX_LEVEL else p.writtenLevel) = p.level := by
  rw [writtenLevel]
  cases hflag : p.use_legacy_max_level with
  | true => exact ⟨beq_self_eq_true _, (h.level_legacy hflag).symm⟩
  | false => exact ⟨beq_eq_false_iff_ne.2 (h.level_not_legacy hflag), rfl⟩

/-- **What `tryParsePartName` makes of the name of a part.** -/
theorem tryParsePartName_getPartNameV1 (h : p.Nameable)
    {format_version : ℕ} (hv : MIN_FORMAT_VERSION_WITH_CUSTOM_PARTITIONING ≤ format_version) :
    tryParsePartName p.getPartNameV1 format_version =
      if p.mutation < 2 ^ 32 then some p else none := by
  have hlimit : ∀ {z : ℤ}, z < 2 ^ 63 → z ≤ IntType.int64.limit false := fun hz =>
    Int.le_of_lt_add_one hz
  -- The end of the name is empty or begins with the separator.
  have hsuffix : ∀ c ∈ (if p.mutation ≠ 0 then ch '_' :: writeIntText p.mutation else []).head?,
      isNumericASCII c = false := by
    split_ifs
    · exact head_separator
    · simp
  have hempty : p.partition_id.isEmpty = false := by simpa using h.partition_id_ne_nil
  rw [getPartNameV1, ← Nat.cast_ite, ← writtenLevel, tryParsePartName]
  simp only [append_assoc, cons_append, Option.bind_eq_bind, Option.bind_some,
    readPartitionId_append hv h.partition_id_no_separator, hempty, Bool.false_eq_true, if_false,
    tryReadIntText_of_nonneg h.min_block_nonneg _ head_separator,
    tryReadIntText_of_nonneg (h.min_block_nonneg.trans h.min_block_le) _ head_separator,
    tryReadIntText_of_nonneg (Int.natCast_nonneg p.writtenLevel) _ hsuffix,
    if_pos (hlimit (h.min_block_le.trans_lt h.max_block_lt)), if_pos (hlimit h.max_block_lt),
    if_pos h.writtenLevel_le, checkChar, if_true, if_neg (not_lt.2 h.min_block_le),
    Int.toNat_natCast, readMutation_suffix h.mutation_nonneg, h.level_of_writtenLevel.1,
    h.level_of_writtenLevel.2]
  split_ifs <;> rfl

/-! ## The round trip -/

/-- **The name of a part is read back as the part exactly if its mutation version is less than
2³².** -/
theorem tryParsePartName_getPartNameV1_iff (p : MergeTreePartInfo) (h : p.Nameable)
    (format_version : ℕ) (hv : MIN_FORMAT_VERSION_WITH_CUSTOM_PARTITIONING ≤ format_version) :
    tryParsePartName p.getPartNameV1 format_version = some p ↔ p.mutation < 2 ^ 32 := by
  rw [tryParsePartName_getPartNameV1 h hv]
  split_ifs with hmutation
  · exact iff_of_true rfl hmutation
  · exact iff_of_false (by simp) hmutation

/-- `all_1_5_2_7`, and a part with the legacy name of the maximal level. -/
theorem tryParsePartName_getPartNameV1_at_mutated_part :
    tryParsePartName (getPartNameV1 ⟨['a', 'l', 'l'].map ch, 1, 5, 2, 7, false⟩) 1 =
        some ⟨['a', 'l', 'l'].map ch, 1, 5, 2, 7, false⟩ ∧
      tryParsePartName (getPartNameV1 ⟨['a', 'l', 'l'].map ch, 1, 5, MAX_LEVEL, 7, true⟩) 1 =
        some ⟨['a', 'l', 'l'].map ch, 1, 5, MAX_LEVEL, 7, true⟩ := by
  have hpart : Nameable ⟨['a', 'l', 'l'].map ch, 1, 5, 2, 7, false⟩ := by
    constructor <;> decide
  have hlegacy : Nameable ⟨['a', 'l', 'l'].map ch, 1, 5, MAX_LEVEL, 7, true⟩ := by
    constructor <;> decide
  exact ⟨(tryParsePartName_getPartNameV1_iff _ hpart 1 le_rfl).2 (by decide),
    (tryParsePartName_getPartNameV1_iff _ hlegacy 1 le_rfl).2 (by decide)⟩

/-- A mutation version of 2³² is written, and the name is refused. -/
theorem tryParsePartName_refuses_large_mutation :
    Nameable ⟨['a', 'l', 'l'].map ch, 1, 5, 2, 2 ^ 32, false⟩ ∧
      getPartNameV1 ⟨['a', 'l', 'l'].map ch, 1, 5, 2, 2 ^ 32, false⟩ =
        "all_1_5_2_4294967296".toList.map ch ∧
      tryParsePartName ("all_1_5_2_4294967296".toList.map ch) 1 = none := by
  refine ⟨?_, by decide +kernel, by decide +kernel⟩
  constructor <;> decide

end ClickHouse.MergeTreePartInfo
