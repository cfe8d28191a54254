/-
Hash tables.

A table is a list of entries with different keys (`AList`); what the order of the entries
is when a loop walks over them is not specified, so it is a parameter, and only the set of
the entries can be relied on.
-/
import Mathlib

set_option autoImplicit false

namespace ClickHouse.Lib

/-- `std::unordered_map`. -/
abbrev HashTable (κ ν : Type*) : Type _ := AList (fun _ : κ => ν)

/-- An order in which the entries of every table are walked. -/
structure HashOrder (κ ν : Type*) where
  walk : HashTable κ ν → List (Σ _ : κ, ν)
  walk_perm : ∀ table, (walk table).Perm table.entries

namespace HashTable

variable {κ ν : Type*}

/-- What the entries add up to. -/
def total (f : κ → ν → ℕ) (table : HashTable κ ν) : ℕ :=
  (table.entries.map fun e => f e.1 e.2).sum

variable (order : HashOrder κ ν)

lemma total_walk (f : κ → ν → ℕ) (table : HashTable κ ν) :
    ((order.walk table).map fun e => f e.1 e.2).sum = total f table :=
  ((order.walk_perm table).map _).sum_eq

lemma nodup_walk (table : HashTable κ ν) : ((order.walk table).map Sigma.fst).Nodup :=
  ((order.walk_perm table).map Sigma.fst).nodup_iff.2 table.keys_nodup

variable [DecidableEq κ]

variable {table : HashTable κ ν}

lemma of_lookup_insert {k k' : κ} {v w : ν} (h : (table.insert k v).lookup k' = some w) :
    k' = k ∧ w = v ∨ k' ≠ k ∧ table.lookup k' = some w := by
  by_cases hk : k' = k
  · rw [hk, AList.lookup_insert] at h
    exact .inl ⟨hk, (Option.some.inj h).symm⟩
  · rw [AList.lookup_insert_ne hk] at h
    exact .inr ⟨hk, h⟩

variable {k : κ} {v : ν}

lemma mem_walk_iff : ⟨k, v⟩ ∈ order.walk table ↔ table.lookup k = some v := by
  rw [(order.walk_perm table).mem_iff]
  exact AList.mem_lookup_iff.symm

lemma total_insert (f : κ → ν → ℕ) (table : HashTable κ ν) (k : κ) (v : ν) :
    total f (table.insert k v) = f k v + total f (table.erase k) := by
  rfl

/-- An entry and the rest of the table. -/
lemma total_of_lookup (h : table.lookup k = some v)
    (f : κ → ν → ℕ) : total f table = f k v + total f (table.erase k) := by
  have hperm : (table.insert k v).entries.Perm table.entries := by
    refine List.lookup_ext (AList.nodupKeys _) table.nodupKeys fun k' v' => ?_
    change v' ∈ (table.insert k v).lookup k' ↔ v' ∈ table.lookup k'
    by_cases hk : k' = k
    · subst hk
      rw [AList.lookup_insert, h]
    · rw [AList.lookup_insert_ne hk]
  rw [← total_insert, total, total, (hperm.map _).sum_eq]

/-- A table that has the keys with a property, each with its value of a function. -/
def Tabulates (table : HashTable κ ν) (p : κ → Prop) (f : κ → ν) : Prop :=
  ∀ k v, table.lookup k = some v ↔ p k ∧ v = f k

namespace Tabulates

variable {table : HashTable κ ν} {p q : κ → Prop} {f g : κ → ν}

section

variable (h : Tabulates table p f)
include h

lemma lookup_eq (hk : p k) : table.lookup k = some (f k) := (h k (f k)).2 ⟨hk, rfl⟩

lemma mem_iff : k ∈ table ↔ p k := by
  rw [← AList.lookup_isSome, Option.isSome_iff_exists]
  exact ⟨fun ⟨v, hv⟩ => ((h k v).1 hv).1, fun hk => ⟨_, h.lookup_eq hk⟩⟩

lemma erase (hq : ∀ k', q k' ↔ k' ≠ k ∧ p k') : Tabulates (table.erase k) q f := by
  intro k' v
  rw [hq]
  by_cases hk : k' = k
  · subst hk
    simp
  · rw [AList.lookup_erase_ne hk, h]
    simp [hk]

/-- A new value for a key, whether it had one or not. -/
lemma insert (hq : ∀ k', q k' ↔ k' = k ∨ p k') (hg : g k = v)
    (hfg : ∀ k', k' ≠ k → g k' = f k') : Tabulates (table.insert k v) q g := by
  intro k' v'
  rw [hq]
  by_cases hk : k' = k
  · subst hk
    rw [AList.lookup_insert, hg, Option.some.injEq, eq_comm]
    simp
  · rw [AList.lookup_insert_ne hk, h, hfg k' hk]
    simp [hk]

lemma congr (hq : ∀ k, q k ↔ p k) (hg : ∀ k, p k → g k = f k) : Tabulates table q g := by
  intro k v
  rw [h, hq]
  exact and_congr_right fun hk => by rw [hg k hk]

end

end Tabulates

lemma erase_of_not_mem (h : k ∉ table) : table.erase k = table :=
  AList.ext (List.kerase_of_notMem_keys h)

end HashTable

end ClickHouse.Lib
