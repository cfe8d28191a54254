/-
Intervals of the lexicographic order on tuples, one column at a time.

A tuple is given by its columns, as a function of the column's number; the columns
`p, …, p + n - 1` of it form a list, and lists are ordered lexicographically. An
interval may lack either bound. Where the bounds differ in the first column, the
interval falls into the tuples strictly between the two values there, and those on
the two faces, which are intervals in the columns that follow with one bound each.
-/
import Mathlib

set_option autoImplicit false

namespace ClickHouse.Lib

open List

variable {β : Type*}

/-- The columns `p, …, p + n - 1` of a tuple. -/
def tuple (p n : ℕ) (f : ℕ → β) : List β := (List.range' p n).map f

@[simp] lemma tuple_zero (p : ℕ) (f : ℕ → β) : tuple p 0 f = [] := rfl

lemma tuple_succ (p n : ℕ) (f : ℕ → β) : tuple p (n + 1) f = f p :: tuple (p + 1) n f := by
  rw [tuple, range'_succ, List.map_cons, tuple]

variable [LinearOrder β] {l l' : List β}

lemma cons_le_cons_iff {a b : β} : a :: l ≤ b :: l' ↔ a < b ∨ a = b ∧ l ≤ l' := by
  have hlt : a :: l < b :: l' ↔ a < b ∨ a = b ∧ l < l' := cons_lt_cons_iff
  rw [le_iff_lt_or_eq, hlt, cons.injEq, le_iff_lt_or_eq (a := l), and_or_left, or_assoc]

/-- Lists that are ordered in every place are ordered. -/
lemma le_of_forall₂_le (h : List.Forall₂ (· ≤ ·) l l') : l ≤ l' := by
  induction h with
  | nil => exact le_rfl
  | cons hab _ ih =>
    rw [cons_le_cons_iff]
    rcases hab.lt_or_eq with hlt | heq
    · exact .inl hlt
    · exact .inr ⟨heq, ih⟩

variable {p n : ℕ} {f g : ℕ → β}

lemma tuple_le_succ :
    tuple p (n + 1) f ≤ tuple p (n + 1) g ↔
      f p < g p ∨ f p = g p ∧ tuple (p + 1) n f ≤ tuple (p + 1) n g := by
  rw [tuple_succ, tuple_succ, cons_le_cons_iff]

/-- Tuples in order are in order in their first columns. -/
lemma tuple_le_of_le {m n : ℕ} (hmn : m ≤ n) {p : ℕ}
    (h : tuple p n f ≤ tuple p n g) : tuple p m f ≤ tuple p m g := by
  induction m generalizing p n with
  | zero => exact le_rfl
  | succ m ih =>
    cases n with
    | zero => omega
    | succ n =>
      rw [tuple_le_succ] at h ⊢
      exact h.imp_right fun ⟨heq, hrest⟩ => ⟨heq, ih (Nat.le_of_succ_le_succ hmn) hrest⟩

/-- The tuples between two bounds, of which one may be missing. -/
def Between (left_bounded right_bounded : Bool) (left right : ℕ → β) (p n : ℕ) (t : ℕ → β) : Prop :=
  (left_bounded = true → tuple p n left ≤ tuple p n t) ∧
    (right_bounded = true → tuple p n t ≤ tuple p n right)

/-- The bounds agree in the first column: so do the tuples between them. -/
lemma between_succ_of_eq (left right t : ℕ → β) (heq : left p = right p) :
    Between true true left right p (n + 1) t ↔
      t p = left p ∧ Between true true left right (p + 1) n t := by
  simp only [Between, tuple_le_succ, true_imp_iff]
  constructor
  · rintro ⟨hlt | ⟨hl, hl'⟩, hrt | ⟨hr, hr'⟩⟩
    · exact absurd (hlt.trans hrt) (heq ▸ lt_irrefl _)
    · exact absurd hlt (by rw [hr, heq]; exact lt_irrefl _)
    · exact absurd hrt (by rw [← hl, heq]; exact lt_irrefl _)
    · exact ⟨hl.symm, hl', hr'⟩
  · rintro ⟨ht, hl', hr'⟩
    exact ⟨.inr ⟨ht.symm, hl'⟩, .inr ⟨ht.trans heq, hr'⟩⟩

/-- **The interval and its faces.** -/
theorem between_succ_of_lt (left right t : ℕ → β) {left_bounded right_bounded : Bool}
    (hlt : left_bounded = true → right_bounded = true → left p < right p) :
    Between left_bounded right_bounded left right p (n + 1) t ↔
      ((left_bounded = true → left p < t p) ∧ (right_bounded = true → t p < right p)) ∨
      (left_bounded = true ∧ t p = left p ∧ Between true false left right (p + 1) n t) ∨
      (right_bounded = true ∧ t p = right p ∧ Between false true left right (p + 1) n t) := by
  simp only [Between, tuple_le_succ, true_imp_iff, Bool.false_eq_true, false_imp_iff, and_true,
    true_and]
  constructor
  · rintro ⟨hl, hr⟩
    by_cases hleft : left_bounded = true ∧ t p = left p
    · rcases hl hleft.1 with h | h
      · exact absurd h (hleft.2 ▸ lt_irrefl _)
      · exact .inr (.inl ⟨hleft.1, hleft.2, h.2⟩)
    by_cases hright : right_bounded = true ∧ t p = right p
    · rcases hr hright.1 with h | h
      · exact absurd h (hright.2 ▸ lt_irrefl _)
      · exact .inr (.inr ⟨hright.1, hright.2, h.2⟩)
    -- on neither face: strictly inside
    refine .inl ⟨fun hb => ?_, fun hb => ?_⟩
    · exact (hl hb).resolve_right (fun h => hleft ⟨hb, h.1.symm⟩)
    · exact (hr hb).resolve_right (fun h => hright ⟨hb, h.1⟩)
  · rintro (⟨hl, hr⟩ | ⟨hb, ht, h⟩ | ⟨hb, ht, h⟩)
    · exact ⟨fun hb => .inl (hl hb), fun hb => .inl (hr hb)⟩
    · exact ⟨fun _ => .inr ⟨ht.symm, h⟩, fun hb' => .inl (ht ▸ hlt hb hb')⟩
    · exact ⟨fun hb' => .inl (ht ▸ hlt hb' hb), fun _ => .inr ⟨ht, h⟩⟩

end ClickHouse.Lib
