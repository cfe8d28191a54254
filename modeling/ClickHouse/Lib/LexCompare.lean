/-
Comparison functions in the style of C, and several of them one after another.

A comparison returns a negative number, zero or a positive number. Two elements may
compare equal without being equal, so a comparison is a total preorder. Sorting by
several columns compares by the first column that tells the rows apart.
-/
import Mathlib

set_option autoImplicit false

namespace ClickHouse.Lib

variable {α : Type*}

/-- A three-way comparison that is a total preorder. -/
structure IsComparison (c : α → α → ℤ) : Prop where
  swap : ∀ x y, c y x = -c x y
  trans : ∀ {x y z}, c x y ≤ 0 → c y z ≤ 0 → c x z ≤ 0

namespace IsComparison

variable {c : α → α → ℤ} (h : IsComparison c) {x y z : α}
include h

lemma self (x : α) : c x x = 0 := by
  have := h.swap x x
  omega

lemma eq_symm (hxy : c x y = 0) : c y x = 0 := by
  rw [h.swap, hxy, neg_zero]

lemma eq_trans (hxy : c x y = 0) (hyz : c y z = 0) : c x z = 0 := by
  have hle := h.trans hxy.le hyz.le
  have hge := h.trans (h.eq_symm hyz).le (h.eq_symm hxy).le
  rw [h.swap] at hge
  omega

/-- What lies between equal elements is equal to them. -/
lemma eq_of_between (hxy : c x y ≤ 0) (hyz : c y z ≤ 0) (hxz : c x z = 0) : c x y = 0 := by
  have hge := h.trans hyz (h.eq_symm hxz).le
  rw [h.swap] at hge
  omega

lemma lt_of_lt_of_le (hxy : c x y < 0) (hyz : c y z ≤ 0) : c x z < 0 :=
  lt_of_le_of_ne (h.trans hxy.le hyz) fun hxz => hxy.ne (h.eq_of_between hxy.le hyz hxz)

lemma lt_of_le_of_lt (hxy : c x y ≤ 0) (hyz : c y z < 0) : c x z < 0 := by
  refine lt_of_le_of_ne (h.trans hxy hyz.le) fun hxz => hyz.ne ?_
  exact h.eq_trans (h.eq_symm (h.eq_of_between hxy hyz.le hxz)) hxz

lemma comap {β : Type*} (key : β → α) : IsComparison fun x y => c (key x) (key y) :=
  ⟨fun _ _ => h.swap _ _, fun hxy hyz => h.trans hxy hyz⟩

/-- A comparison in either direction. -/
lemma mul {direction : ℤ} (hdirection : direction = 1 ∨ direction = -1) :
    IsComparison fun x y => direction * c x y := by
  refine ⟨fun x y => by rw [h.swap, mul_neg], fun {x y z} hxy hyz => ?_⟩
  rcases hdirection with rfl | rfl
  · rw [one_mul] at *
    exact h.trans hxy hyz
  · have hzx := h.trans (x := z) (y := y) (z := x) (by rw [h.swap]; omega) (by rw [h.swap]; omega)
    rw [h.swap] at hzx
    omega

end IsComparison

/-! ## Lexicographic comparison -/

/-- The first number that is not 0, or 0. -/
def firstNonzero : List ℤ → ℤ
  | [] => 0
  | c :: cs => if c = 0 then firstNonzero cs else c

/-- The lexicographic comparison by several ones. -/
def lex (cs : List (α → α → ℤ)) (x y : α) : ℤ := firstNonzero (cs.map fun c => c x y)

variable {c : α → α → ℤ} {cs ds : List (α → α → ℤ)} {x y z : α}

lemma lex_cons : lex (c :: cs) x y = if c x y = 0 then lex cs x y else c x y := rfl

lemma lex_eq_zero_iff : lex cs x y = 0 ↔ ∀ c ∈ cs, c x y = 0 := by
  induction cs with
  | nil => simp [lex, firstNonzero]
  | cons c cs ih =>
    rw [lex_cons, List.forall_mem_cons, ← ih]
    split <;> tauto

/-- **A lexicographic comparison is a comparison.** -/
theorem isComparison_lex (h : ∀ c ∈ cs, IsComparison c) : IsComparison (lex cs) := by
  induction cs with
  | nil => exact ⟨fun _ _ => rfl, fun _ _ => le_rfl⟩
  | cons c cs ih =>
    obtain ⟨hc, hcs⟩ := List.forall_mem_cons.1 h
    have ih := ih hcs
    refine ⟨fun x y => ?_, fun {x y z} hxy hyz => ?_⟩
    · rw [lex_cons, lex_cons, ih.swap x y, hc.swap x y]
      split_ifs <;> omega
    rw [lex_cons] at hxy hyz ⊢
    -- the first comparison of either pair that does not say equal decides
    by_cases h1 : c x y = 0
    · rw [if_pos h1] at hxy
      by_cases h2 : c y z = 0
      · rw [if_pos h2] at hyz
        rw [if_pos (hc.eq_trans h1 h2)]
        exact ih.trans hxy hyz
      · rw [if_neg h2] at hyz
        have := hc.lt_of_le_of_lt h1.le (lt_of_le_of_ne hyz h2)
        rw [if_neg this.ne]
        exact this.le
    · rw [if_neg h1] at hxy
      have hle : c y z ≤ 0 := by
        split at hyz
        · rename_i h2
          exact h2.le
        · exact hyz
      have := hc.lt_of_lt_of_le (lt_of_le_of_ne hxy h1) hle
      rw [if_neg this.ne]
      exact this.le

lemma lex_append : lex (cs ++ ds) x y = if lex cs x y = 0 then lex ds x y else lex cs x y := by
  induction cs with
  | nil => rfl
  | cons c cs ih =>
    rw [List.cons_append, lex_cons, lex_cons, ih]
    split_ifs <;> rfl

/-- The first columns alone. -/
lemma lex_le_of_append_le (h : lex (cs ++ ds) x y ≤ 0) : lex cs x y ≤ 0 := by
  rw [lex_append] at h
  split at h
  · rename_i h0
    exact h0.le
  · exact h

end ClickHouse.Lib
