/-
`std::map` as a sorted list of entries.

The code keys several maps by a struct whose `operator<=>` reads only part of
the struct, so two keys the map cannot tell apart need not be equal. The map
here is therefore ordered through a projection `ord` into a linear order, and
every statement about keys is a statement about their projections.

An iterator into the map is a split of the entry list. `lower_bound k` splits
it into `before k`, the entries below `k`, and `after k`, the rest: `--it` walks
`before k` from its end, `++it` walks `after k` from its start.
-/
import Mathlib

set_option autoImplicit false

namespace ClickHouse.Lib

open List

/-- A map with entries in strictly increasing order of their keys' projections. -/
structure OrdMap (κ ν : Type*) {τ : Type*} [LinearOrder τ] (ord : κ → τ) where
  entries : List (κ × ν)
  sorted : entries.Pairwise (fun a b => ord a.1 < ord b.1)

namespace OrdMap

variable {κ ν τ : Type*} [LinearOrder τ] {ord : κ → τ}

instance : Membership (κ × ν) (OrdMap κ ν ord) := ⟨fun m e => e ∈ m.entries⟩

variable (m : OrdMap κ ν ord)

lemma mem_def (e : κ × ν) : e ∈ m ↔ e ∈ m.entries := Iff.rfl

/-- The map with no entries. -/
def empty : OrdMap κ ν ord := ⟨[], List.Pairwise.nil⟩

@[simp] lemma not_mem_empty (e : κ × ν) : e ∉ (empty : OrdMap κ ν ord) := by
  simp [mem_def, empty]

/-! ## `lower_bound` -/

/-- The entries to the left of `lower_bound k`. -/
def before (k : κ) : List (κ × ν) :=
  m.entries.takeWhile (fun e => ord e.1 < ord k)

/-- The entries from `lower_bound k` on. -/
def after (k : κ) : List (κ × ν) :=
  m.entries.dropWhile (fun e => ord e.1 < ord k)

lemma before_append_after (k : κ) :
    m.before k ++ m.after k = m.entries := takeWhile_append_dropWhile

lemma mem_before_or_after (k : κ) (e : κ × ν) : e ∈ m ↔ e ∈ m.before k ∨ e ∈ m.after k := by
  rw [mem_def, ← m.before_append_after k, mem_append]

variable {e : κ × ν} {k : κ}

lemma ord_lt_of_mem_before (h : e ∈ m.before k) : ord e.1 < ord k := by
  have hall := all_takeWhile (p := fun e : κ × ν => decide (ord e.1 < ord k)) (l := m.entries)
  simpa using all_eq_true.1 hall e h

lemma sorted_split (k : κ) :
    (m.before k ++ m.after k).Pairwise (fun a b => ord a.1 < ord b.1) := by
  rw [m.before_append_after k]
  exact m.sorted

lemma sorted_before (k : κ) : (m.before k).Pairwise (fun a b => ord a.1 < ord b.1) :=
  (pairwise_append.1 (m.sorted_split k)).1

lemma sorted_after (k : κ) : (m.after k).Pairwise (fun a b => ord a.1 < ord b.1) :=
  (pairwise_append.1 (m.sorted_split k)).2.1

lemma head_after_le (h : e ∈ m.after k) : ∃ q ∈ (m.after k).head?, ord q.1 ≤ ord e.1 :=
  ⟨_, head_mem_head? (ne_nil_of_mem h),
    ((m.sorted_after k).imp le_of_lt).rel_head_of_rel_head_head h le_rfl⟩

lemma le_getLast_before (h : e ∈ m.before k) :
    ∃ q ∈ (m.before k).getLast?, ord e.1 ≤ ord q.1 :=
  ⟨_, getLast_mem_getLast? (ne_nil_of_mem h),
    ((m.sorted_before k).imp le_of_lt).rel_getLast_of_rel_getLast_getLast h le_rfl⟩

/-- Everything from `lower_bound k` on is at least `k`: the first entry fails
the test, and the rest is above the first. -/
lemma le_ord_of_mem_after (h : e ∈ m.after k) : ord k ≤ ord e.1 := by
  obtain ⟨q, hq, hle⟩ := m.head_after_le h
  have hhead := head?_dropWhile_not (fun e : κ × ν => decide (ord e.1 < ord k)) m.entries
  rw [show (m.entries.dropWhile _).head? = some q from hq] at hhead
  exact le_trans (by simpa using hhead) hle

lemma mem_of_mem_before (h : e ∈ m.before k) : e ∈ m := (m.mem_before_or_after k e).2 (Or.inl h)

lemma mem_of_mem_after (h : e ∈ m.after k) : e ∈ m := (m.mem_before_or_after k e).2 (Or.inr h)

/-- Walking left from `lower_bound k` meets the entries in decreasing order. -/
lemma sorted_before_reverse (k : κ) :
    (m.before k).reverse.Pairwise (fun a b => ord b.1 < ord a.1) :=
  pairwise_reverse.2 (m.sorted_before k)

/-! ## `erase` and `emplace` -/

/-- `erase(k)`: drop the entry whose key is equivalent to `k`. -/
def erase (k : κ) : OrdMap κ ν ord :=
  ⟨m.entries.filter (fun e => ord e.1 ≠ ord k), m.sorted.filter _⟩

@[simp] lemma mem_erase (k : κ) (e : κ × ν) : e ∈ m.erase k ↔ e ∈ m ∧ ord e.1 ≠ ord k := by
  simp [mem_def, erase]

/-- Whether a key equivalent to `k` is stored, i.e. whether `erase(k)` returns 1. -/
def containsKey (k : κ) : Bool :=
  m.entries.any (fun e => ord e.1 = ord k)

lemma containsKey_iff : m.containsKey k = true ↔ ∃ e ∈ m, ord e.1 = ord k := by
  simp only [containsKey, any_eq_true, decide_eq_true_eq]
  rfl

/-- `emplace(k, v)`: insert at `lower_bound k` unless an equivalent key is stored. -/
def emplace (k : κ) (v : ν) : OrdMap κ ν ord :=
  if h : m.containsKey k then m
  else
    ⟨m.before k ++ (k, v) :: m.after k, by
      have hs := List.pairwise_append.1 (m.sorted_split k)
      have hk : ∀ e ∈ m.after k, ord k < ord e.1 := by
        intro e he
        refine lt_of_le_of_ne (m.le_ord_of_mem_after he) (fun heq => h ?_)
        exact List.any_eq_true.2 ⟨e, m.mem_of_mem_after he, by simp [heq]⟩
      refine List.pairwise_append.2 ⟨hs.1, List.pairwise_cons.2 ⟨hk, hs.2.1⟩, ?_⟩
      intro a ha b hb
      rcases List.mem_cons.1 hb with rfl | hb
      · exact m.ord_lt_of_mem_before ha
      · exact hs.2.2 a ha b hb⟩

lemma mem_emplace_of_mem {v : ν} (h : e ∈ m) : e ∈ m.emplace k v := by
  unfold emplace
  split
  · exact h
  · rw [mem_def]
    rcases (m.mem_before_or_after k e).1 h with hb | ha
    · exact mem_append_left _ hb
    · exact mem_append_right _ (mem_cons_of_mem _ ha)

/-- `emplace` stores a key that no stored one is equivalent to. -/
lemma self_mem_emplace (v : ν) (h : ∀ e ∈ m, ord e.1 ≠ ord k) : (k, v) ∈ m.emplace k v := by
  have hnew : ¬ m.containsKey k = true := by
    rw [containsKey_iff]
    rintro ⟨e, he, heq⟩
    exact h e he heq
  rw [emplace, dif_neg hnew, mem_def]
  exact mem_append_right _ mem_cons_self

/-- `emplace` adds nothing but the new entry. -/
lemma mem_emplace {v : ν} (h : e ∈ m.emplace k v) : e = (k, v) ∨ e ∈ m := by
  unfold emplace at h
  split at h
  · exact Or.inr h
  rcases mem_append.1 h with hb | ha
  · exact Or.inr (m.mem_of_mem_before hb)
  · rcases mem_cons.1 ha with rfl | ha
    · exact Or.inl rfl
    · exact Or.inr (m.mem_of_mem_after ha)

end OrdMap

end ClickHouse.Lib
