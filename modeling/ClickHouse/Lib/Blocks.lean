/-
Aligned blocks: the numbers that share all but their last `j` digits in a base.

The block `(j, m)` is the set of all `c` with `c / B ^ j = m`, and its parent is
`(j + 1, m / B)`. An interval is the disjoint union of its maximal blocks, those that
lie in it and whose parents do not (`exists_maximal`).

A partition of an interval goes down from a block that holds both ends to its
children, and stops at a block that is covered. `maximal_iff_exists_child` is that
step: as long as the block itself is not covered, the maximal blocks of the interval
are those of its parts in the children; `maximal_full` is the end.
-/
import Mathlib

set_option autoImplicit false

namespace ClickHouse.Lib.Block

open Nat

variable {B l r j k m q : ℕ}

/-- The block lies in the interval from `l` to `r`. -/
def Inside (B l r j m : ℕ) : Prop := ∀ c, c / B ^ j = m → l ≤ c ∧ c ≤ r

/-- The block lies in the interval, and its parent does not. -/
def Maximal (B l r j m : ℕ) : Prop := Inside B l r j m ∧ ¬ Inside B l r (j + 1) (m / B)

/-! ## Blocks and their numbers -/

lemma first_mem (hB : 0 < B) (j m : ℕ) : m * B ^ j / B ^ j = m :=
  Nat.mul_div_cancel m (pow_pos hB j)

lemma last_mem (hB : 0 < B) (j m : ℕ) : (m * B ^ j + B ^ j - 1) / B ^ j = m := by
  have hpos := pow_pos hB j
  rw [Nat.div_eq_iff hpos]
  omega

lemma mem_iff (hB : 0 < B) {c : ℕ} :
    c / B ^ j = m ↔ m * B ^ j ≤ c ∧ c ≤ m * B ^ j + B ^ j - 1 := by
  have hpos := pow_pos hB j
  rw [Nat.div_eq_iff hpos]

lemma inside_iff (hB : 0 < B) : Inside B l r j m ↔ l ≤ m * B ^ j ∧ m * B ^ j + B ^ j - 1 ≤ r := by
  constructor
  · intro h
    exact ⟨(h _ (first_mem hB j m)).1, (h _ (last_mem hB j m)).2⟩
  · rintro ⟨hl, hr⟩ c hc
    obtain ⟨h1, h2⟩ := (mem_iff hB).1 hc
    exact ⟨hl.trans h1, h2.trans hr⟩

/-- The block a number lies in determines the ones above. -/
lemma div_div_of_le {c : ℕ} (h : j ≤ k) : c / B ^ k = c / B ^ j / B ^ (k - j) := by
  rw [Nat.div_div_eq_div_mul, ← pow_add, Nat.add_sub_cancel' h]

lemma div_parent (c j : ℕ) : c / B ^ (j + 1) = c / B ^ j / B := by
  rw [pow_succ, Nat.div_div_eq_div_mul]

/-- A block that meets a larger one lies in it. -/
lemma eq_of_le {c d : ℕ} (h : j ≤ k) (hcd : c / B ^ j = d / B ^ j) : c / B ^ k = d / B ^ k := by
  rw [div_div_of_le h, div_div_of_le h, hcd]

/-! ## Maximal blocks -/

/-- **Maximal blocks cover** the interval. -/
theorem exists_maximal (hB : 1 < B) {c : ℕ} (hl : l ≤ c) (hr : c ≤ r) :
    ∃ j, Maximal B l r j (c / B ^ j) := by
  -- the blocks of `c` grow until they stick out
  have hlarge : ∃ j, ¬ Inside B l r j (c / B ^ j) := by
    refine ⟨r + 1, fun h => ?_⟩
    have hpow : r + 1 < B ^ (r + 1) := Nat.lt_pow_self hB
    have hlast := (h _ (last_mem (zero_lt_of_lt hB) (r + 1) (c / B ^ (r + 1)))).2
    omega
  classical
  have hzero : Nat.find hlarge ≠ 0 := by
    intro h
    have hnot := Nat.find_spec hlarge
    rw [h] at hnot
    refine hnot fun d hd => ?_
    simp only [pow_zero, Nat.div_one] at hd
    exact hd ▸ ⟨hl, hr⟩
  obtain ⟨j, hj⟩ := exists_eq_succ_of_ne_zero hzero
  refine ⟨j, not_not.1 (Nat.find_min hlarge (by omega)), ?_⟩
  rw [← div_parent, ← succ_eq_add_one, ← hj]
  exact Nat.find_spec hlarge

/-- A block in a block is not larger. -/
lemma le_of_subset (hB : 1 < B) (h : ∀ c, c / B ^ j = m → c / B ^ k = q) : j ≤ k := by
  by_contra hlt
  have hfirst := (mem_iff (zero_lt_of_lt hB)).1 (h _ (first_mem (zero_lt_of_lt hB) j m))
  have hlast := (mem_iff (zero_lt_of_lt hB)).1 (h _ (last_mem (zero_lt_of_lt hB) j m))
  have hpow : B ^ k < B ^ j := Nat.pow_lt_pow_right hB (by omega)
  have hk : 0 < B ^ k := pow_pos (zero_lt_of_lt hB) k
  omega

/-- The parent of a smaller block stays in the larger one. -/
lemma parent_subset (hB : 0 < B) (h : ∀ c, c / B ^ j = m → c / B ^ k = q) (hlt : j < k) :
    ∀ c, c / B ^ (j + 1) = m / B → c / B ^ k = q := by
  intro c hc
  have hfirst : m * B ^ j / B ^ (j + 1) = m / B := by rw [div_parent, first_mem hB]
  rw [eq_of_le hlt (hc.trans hfirst.symm)]
  exact h _ (first_mem hB j m)

/-- A block as an interval has one maximal block, itself. -/
lemma maximal_full (hB : 1 < B) :
    Maximal B (q * B ^ k) (q * B ^ k + B ^ k - 1) j m ↔ j = k ∧ m = q := by
  have hpos := zero_lt_of_lt hB
  constructor
  · rintro ⟨hin, hparent⟩
    have hsub : ∀ c, c / B ^ j = m → c / B ^ k = q := fun c hc => (mem_iff hpos).2 (hin c hc)
    rcases (le_of_subset hB hsub).lt_or_eq with hlt | rfl
    · exact absurd (fun c hc => (mem_iff hpos).1 (parent_subset hpos hsub hlt c hc)) hparent
    · exact ⟨rfl, (first_mem hpos j m).symm.trans (hsub _ (first_mem hpos j m))⟩
  · rintro ⟨rfl, rfl⟩
    refine ⟨fun c hc => (mem_iff hpos).1 hc, fun h => ?_⟩
    have hsub : ∀ c, c / B ^ (j + 1) = m / B → c / B ^ j = m :=
      fun c hc => (mem_iff hpos).2 (h c hc)
    exact absurd (le_of_subset hB hsub) (by omega)

/-- In an interval that does not cover the parent of `(k, q)`, the maximal blocks of the
part in `(k, q)` are the maximal blocks in `(k, q)`. -/
lemma maximal_part (hB : 1 < B) {l' r' : ℕ}
    (hpart : ∀ c, (l' ≤ c ∧ c ≤ r') ↔ (l ≤ c ∧ c ≤ r) ∧ c / B ^ k = q)
    (hparent : ¬ Inside B l r (k + 1) (q / B)) :
    Maximal B l' r' j m ↔ Maximal B l r j m ∧ ∀ c, c / B ^ j = m → c / B ^ k = q := by
  have hpos := zero_lt_of_lt hB
  constructor
  · rintro ⟨hin, hnot⟩
    have hsub : ∀ c, c / B ^ j = m → c / B ^ k = q := fun c hc => ((hpart c).1 (hin c hc)).2
    refine ⟨⟨fun c hc => ((hpart c).1 (hin c hc)).1, fun h => ?_⟩, hsub⟩
    rcases (le_of_subset hB hsub).lt_or_eq with hlt | rfl
    · refine hnot fun c hc => (hpart c).2 ⟨h c hc, ?_⟩
      exact parent_subset hpos hsub hlt c hc
    · have hmq : m = q := (first_mem hpos j m).symm.trans (hsub _ (first_mem hpos j m))
      exact hparent (hmq ▸ h)
  · rintro ⟨⟨hin, hnot⟩, hsub⟩
    refine ⟨fun c hc => (hpart c).2 ⟨hin c hc, hsub c hc⟩, fun h => ?_⟩
    exact hnot fun c hc => ((hpart c).1 (h c hc)).1

/-- In an interval within a block that it does not cover, every block is in a child. -/
lemma le_of_inside {p : ℕ} (hB : 0 < B) (hl : l / B ^ (k + 1) = p) (hr : r / B ^ (k + 1) = p)
    (hnot : ¬ Inside B l r (k + 1) p) (hin : Inside B l r j m) : j ≤ k := by
  by_contra hlt
  refine hnot fun c hc => ?_
  have hfirst := hin _ (first_mem hB j m)
  have hp : m * B ^ j / B ^ (k + 1) = p :=
    le_antisymm ((Nat.div_le_div_right hfirst.2).trans hr.le)
      (hl.ge.trans (Nat.div_le_div_right hfirst.1))
  refine hin c ?_
  rw [eq_of_le (by omega) (hc.trans hp.symm), first_mem hB]

/-- **One step down**: the maximal blocks of an interval within a block that it does not
cover are those of its parts in the children. -/
theorem maximal_iff_exists_child {p : ℕ} (hB : 1 < B) (hl : l / B ^ (k + 1) = p)
    (hr : r / B ^ (k + 1) = p) (hnot : ¬ Inside B l r (k + 1) p) :
    Maximal B l r j m ↔ ∃ q, (l / B ^ k ≤ q ∧ q ≤ r / B ^ k) ∧
      Maximal B (max l (q * B ^ k)) (min r (q * B ^ k + B ^ k - 1)) j m := by
  have hpos := zero_lt_of_lt hB
  have hpart : ∀ q c, (max l (q * B ^ k) ≤ c ∧ c ≤ min r (q * B ^ k + B ^ k - 1)) ↔
      (l ≤ c ∧ c ≤ r) ∧ c / B ^ k = q := by
    intro q c
    rw [mem_iff hpos, max_le_iff, le_min_iff]
    tauto
  -- a child that meets the interval is a child of `p`
  have hchild : ∀ q c, l ≤ c → c ≤ r → c / B ^ k = q → ¬ Inside B l r (k + 1) (q / B) := by
    rintro q c hlc hcr rfl
    rw [← div_parent, le_antisymm ((Nat.div_le_div_right hcr).trans hr.le)
      (hl.ge.trans (Nat.div_le_div_right hlc))]
    exact hnot
  constructor
  · intro h
    have hjk := le_of_inside hpos hl hr hnot h.1
    have hfirst := h.1 _ (first_mem hpos j m)
    refine ⟨m * B ^ j / B ^ k, ⟨Nat.div_le_div_right hfirst.1, Nat.div_le_div_right hfirst.2⟩,
      (maximal_part hB (hpart _) (hchild _ _ hfirst.1 hfirst.2 rfl)).2 ⟨h, fun c hc => ?_⟩⟩
    exact eq_of_le hjk (hc.trans (first_mem hpos j m).symm)
  · rintro ⟨q, -, h⟩
    have hfirst := (hpart q _).1 (h.1 _ (first_mem hpos j m))
    exact ((maximal_part hB (hpart q) (hchild q _ hfirst.1.1 hfirst.1.2 hfirst.2)).1 h).1

/-! ## Blocks on a curve -/

/-- The intervals of a list are the blocks `(j, m)` with `V j m`. -/
def Lists (B : ℕ) (V : ℕ → ℕ → Prop) (intervals : List (ℕ × ℕ)) : Prop :=
  ∀ a b, (a, b) ∈ intervals ↔ ∃ j m, V j m ∧ a = m * B ^ j ∧ b = m * B ^ j + B ^ j - 1

variable {intervals : List (ℕ × ℕ)} {V W : ℕ → ℕ → Prop}

lemma Lists.congr (h : Lists B V intervals) (hvw : ∀ j m, W j m ↔ V j m) :
    Lists B W intervals := by
  intro a b
  simp only [h a b, hvw]

lemma Lists.append {l₁ l₂ : List (ℕ × ℕ)} (h₁ : Lists B V l₁)
    (h₂ : Lists B W l₂) : Lists B (fun j m => V j m ∨ W j m) (l₁ ++ l₂) := by
  intro a b
  simp only [List.mem_append, h₁ a b, h₂ a b, or_and_right, exists_or]

lemma lists_singleton (j m : ℕ) :
    Lists B (fun j' m' => j' = j ∧ m' = m) [(m * B ^ j, m * B ^ j + B ^ j - 1)] := by
  intro a b
  simp [Prod.ext_iff, and_assoc]

/-- An interval that covers the block of its ends is that block. -/
lemma lists_of_inside (hB : 1 < B) (hl : l / B ^ k = q) (hr : r / B ^ k = q)
    (hin : Inside B l r k q) : Lists B (Maximal B l r) [(l, r)] := by
  have hpos := zero_lt_of_lt hB
  obtain ⟨hge, hle⟩ := (inside_iff hpos).1 hin
  obtain rfl := le_antisymm hge ((mem_iff hpos).1 hl).1
  obtain rfl := le_antisymm ((mem_iff hpos).1 hr).2 hle
  exact (lists_singleton k q).congr fun j m => maximal_full hB

lemma Lists.bounds (hB : 0 < B) (h : Lists B (Maximal B l r) intervals) {a b : ℕ}
    (hab : (a, b) ∈ intervals) : l ≤ a ∧ b ≤ r := by
  obtain ⟨j, m, hmax, rfl, rfl⟩ := (h a b).1 hab
  exact (inside_iff hB).1 hmax.1

/-- Aligned blocks, in order, that have the numbers from `l` to `r` and no others. -/
structure Partition (B l r : ℕ) (intervals : List (ℕ × ℕ)) : Prop where
  aligned : ∀ a b, (a, b) ∈ intervals → ∃ j m, a = m * B ^ j ∧ b = m * B ^ j + B ^ j - 1
  covers : ∀ c, (l ≤ c ∧ c ≤ r) ↔ ∃ a b, (a, b) ∈ intervals ∧ a ≤ c ∧ c ≤ b
  ordered : intervals.Pairwise fun x y => x.2 < y.1

/-- **The maximal blocks**, in order, are a partition. -/
theorem Lists.partition (hB : 1 < B) (h : Lists B (Maximal B l r) intervals)
    (hordered : intervals.Pairwise fun x y => x.2 < y.1) : Partition B l r intervals where
  aligned := by
    intro a b hab
    obtain ⟨j, m, -, ha, hb⟩ := (h a b).1 hab
    exact ⟨j, m, ha, hb⟩
  covers := by
    have hpos := zero_lt_of_lt hB
    intro c
    constructor
    · rintro ⟨hl, hr⟩
      obtain ⟨j, hmax⟩ := exists_maximal hB hl hr
      exact ⟨_, _, (h _ _).2 ⟨j, c / B ^ j, hmax, rfl, rfl⟩, (mem_iff hpos).1 rfl⟩
    · rintro ⟨a, b, hab, hac, hcb⟩
      obtain ⟨hl, hr⟩ := h.bounds hpos hab
      exact ⟨hl.trans hac, hcb.trans hr⟩
  ordered := hordered

/-- A rectangle in the plane: the ends of its two sides, included. -/
abbrev Rectangle : Type := (ℕ × ℕ) × (ℕ × ℕ)

def Rectangle.Mem (rect : Rectangle) (p : ℕ × ℕ) : Prop :=
  (rect.1.1 ≤ p.1 ∧ p.1 ≤ rect.1.2) ∧ rect.2.1 ≤ p.2 ∧ p.2 ≤ rect.2.2

/-- The rectangle is what a curve makes of a block. -/
def Image (decode : ℕ → ℕ × ℕ) (B j m : ℕ) (rect : Rectangle) : Prop :=
  ∀ p, rect.Mem p ↔ ∃ c, c / B ^ j = m ∧ decode c = p

/-- The rectangles of a list are the images of the blocks `(j, m)` with `V j m`. -/
structure Unpacks (decode : ℕ → ℕ × ℕ) (B : ℕ) (V : ℕ → ℕ → Prop) (rects : List Rectangle) :
    Prop where
  sound : ∀ rect ∈ rects, ∃ j m, V j m ∧ Image decode B j m rect
  complete : ∀ j m, V j m → ∃ rect ∈ rects, Image decode B j m rect

lemma Lists.unpacks (h : Lists B V intervals) {decode : ℕ → ℕ × ℕ} {unpack : ℕ × ℕ → Rectangle}
    (himage : ∀ j m, V j m → Image decode B j m (unpack (m * B ^ j, m * B ^ j + B ^ j - 1))) :
    Unpacks decode B V (intervals.map unpack) := by
  constructor
  · intro rect hrect
    obtain ⟨⟨a, b⟩, hab, rfl⟩ := List.mem_map.1 hrect
    obtain ⟨j, m, hV, rfl, rfl⟩ := (h a b).1 hab
    exact ⟨j, m, hV, himage j m hV⟩
  · intro j m hV
    exact ⟨_, List.mem_map.2 ⟨_, (h _ _).2 ⟨j, m, hV, rfl, rfl⟩, rfl⟩, himage j m hV⟩

end ClickHouse.Lib.Block
