/-
A binary tree whose nodes stand in an array: the children of place `i` are at `2 * i + 1`
and `2 * i + 2`.

Each node keeps some of the items that come to it and hands the others to its two children.
Which items come to a place depends on the place alone, `itemsAt`, so a tree that is built
in any order, with its frames on a stack or by recursion, is checked place by place. If no
child is given more than half of the items, a place that items come to is less than twice
their number (`place_lt`), and the nodes together keep every item once (`kept_perm`).
-/
import Mathlib

set_option autoImplicit false

namespace ClickHouse.Lib

open List

/-- How a node shares out its items. -/
structure Splitting (α : Type*) where
  kept : List α → List α
  left : List α → List α
  right : List α → List α
  perm : ∀ items : List α, items.Perm (kept items ++ left items ++ right items)
  kept_ne : ∀ items, items ≠ [] → kept items ≠ []
  left_half : ∀ items, 2 * (left items).length ≤ items.length
  right_half : ∀ items, 2 * (right items).length ≤ items.length

namespace Splitting

variable {α : Type*} (S : Splitting α) (items : List α)

/-- The items that come to a place. -/
def itemsAt : ℕ → List α
  | 0 => items
  | i + 1 => if i % 2 = 0 then S.left (itemsAt (i / 2)) else S.right (itemsAt (i / 2))

lemma itemsAt_zero : S.itemsAt items 0 = items := by
  rw [itemsAt]

variable (i : ℕ)

lemma itemsAt_left : S.itemsAt items (2 * i + 1) = S.left (S.itemsAt items i) := by
  rw [itemsAt, if_pos (Nat.mul_mod_right 2 i), Nat.mul_div_cancel_left i Nat.zero_lt_two]

lemma itemsAt_right : S.itemsAt items (2 * i + 2) = S.right (S.itemsAt items i) := by
  rw [itemsAt, if_neg (by omega), show (2 * i + 1) / 2 = i by omega]

/-- Every place is the root or a child. -/
lemma place_cases : i = 0 ∨ ∃ j < i, i = 2 * j + 1 ∨ i = 2 * j + 2 := by
  rcases Nat.eq_zero_or_pos i with hi | hi
  · exact .inl hi
  · exact .inr ⟨(i - 1) / 2, by omega, by omega⟩

lemma place_mul_length : (i + 2) * (S.itemsAt items i).length ≤ 2 * items.length := by
  induction i using Nat.strong_induction_on with
  | _ i ih =>
    obtain rfl | ⟨j, hj, rfl | rfl⟩ := place_cases i
    · rw [itemsAt_zero]
    · calc (2 * j + 1 + 2) * (S.itemsAt items (2 * j + 1)).length
          ≤ (2 * j + 4) * (S.itemsAt items (2 * j + 1)).length := Nat.mul_le_mul_right _ (by omega)
        _ = (j + 2) * (2 * (S.left (S.itemsAt items j)).length) := by rw [itemsAt_left]; ring
        _ ≤ (j + 2) * (S.itemsAt items j).length := Nat.mul_le_mul_left _ (S.left_half _)
        _ ≤ 2 * items.length := ih j hj
    · calc (2 * j + 2 + 2) * (S.itemsAt items (2 * j + 2)).length
          = (j + 2) * (2 * (S.right (S.itemsAt items j)).length) := by rw [itemsAt_right]; ring
        _ ≤ (j + 2) * (S.itemsAt items j).length := Nat.mul_le_mul_left _ (S.right_half _)
        _ ≤ 2 * items.length := ih j hj

/-- **The tree is not deep.** -/
theorem place_lt {i : ℕ} (h : S.itemsAt items i ≠ []) : i + 2 ≤ 2 * items.length :=
  calc i + 2 = (i + 2) * 1 := (Nat.mul_one _).symm
    _ ≤ (i + 2) * (S.itemsAt items i).length := Nat.mul_le_mul_left _ (length_pos_of_ne_nil h)
    _ ≤ 2 * items.length := S.place_mul_length items i

/-- The items kept before a place, and those that come to the places from it on that are not
below one another. -/
lemma frontier_perm (k : ℕ) : items.Perm
    ((range k).flatMap (fun i => S.kept (S.itemsAt items i)) ++
      (range' k (k + 1)).flatMap (S.itemsAt items)) := by
  induction k with
  | zero =>
    rw [range_zero, flatMap_nil, nil_append, range'_one, flatMap_singleton, itemsAt_zero]
  | succ k ih =>
    -- the place leaves the frontier, its two children enter it at the end
    have hfrontier : (range' (k + 1) (k + 1 + 1)).flatMap (S.itemsAt items) =
        (range' (k + 1) k).flatMap (S.itemsAt items) ++
          (S.left (S.itemsAt items k) ++ S.right (S.itemsAt items k)) := by
      rw [range'_concat, range'_concat, flatMap_append, flatMap_append,
        flatMap_singleton, flatMap_singleton, append_assoc,
        show k + 1 + 1 * k = 2 * k + 1 by omega, show k + 1 + 1 * (k + 1) = 2 * k + 2 by omega,
        itemsAt_left, itemsAt_right]
    rw [range_succ, flatMap_append, flatMap_singleton, hfrontier]
    refine ih.trans ?_
    rw [append_assoc]
    refine List.Perm.append_left _ ?_
    have hparts := (S.perm (S.itemsAt items k)).append_right
      ((range' (k + 1) k).flatMap (S.itemsAt items))
    rw [append_assoc (S.kept _), append_assoc (S.kept _)] at hparts
    exact hparts.trans (List.Perm.append_left _ perm_append_comm)

/-- **Every item is kept once.** -/
theorem kept_perm {size : ℕ} (h : ∀ i, S.itemsAt items i ≠ [] → i < size) :
    items.Perm ((range size).flatMap fun i => S.kept (S.itemsAt items i)) := by
  have hrest : (range' size (size + 1)).flatMap (S.itemsAt items) = [] := by
    rw [flatMap_eq_nil_iff]
    intro i hi
    by_contra hne
    have hlt := h i hne
    have hle := (mem_range'_1.1 hi).1
    omega
  have hperm := S.frontier_perm items size
  rwa [hrest, append_nil] at hperm

end Splitting

/-- Place `i` is `a` or below it. -/
inductive Below (a : ℕ) : ℕ → Prop
  | refl : Below a a
  | left {i : ℕ} : Below a i → Below a (2 * i + 1)
  | right {i : ℕ} : Below a i → Below a (2 * i + 2)

lemma below_root (i : ℕ) : Below 0 i := by
  induction i using Nat.strong_induction_on with
  | _ i ih =>
    obtain rfl | ⟨j, hj, rfl | rfl⟩ := Splitting.place_cases i
    · exact .refl
    · exact .left (ih j hj)
    · exact .right (ih j hj)

lemma Below.cases_child {a i : ℕ} (h : Below a i) :
    i = a ∨ Below (2 * a + 1) i ∨ Below (2 * a + 2) i := by
  induction h with
  | refl => exact .inl rfl
  | left h ih =>
    obtain rfl | hleft | hright := ih
    · exact .inr (.inl .refl)
    · exact .inr (.inl hleft.left)
    · exact .inr (.inr hright.left)
  | right h ih =>
    obtain rfl | hleft | hright := ih
    · exact .inr (.inr .refl)
    · exact .inr (.inl hleft.right)
    · exact .inr (.inr hright.right)

namespace Splitting

variable {α : Type*} {S : Splitting α} {items : List α}

lemma parts_nil {here : List α} (h : here = []) : S.left here = [] ∧ S.right here = [] := by
  have hleft := S.left_half here
  have hright := S.right_half here
  rw [h, length_nil] at hleft hright
  subst h
  exact ⟨eq_nil_of_length_eq_zero (by omega), eq_nil_of_length_eq_zero (by omega)⟩

lemma itemsAt_below {a i : ℕ} (ha : S.itemsAt items a = []) (h : Below a i) :
    S.itemsAt items i = [] := by
  induction h with
  | refl => exact ha
  | left _ ih => rw [itemsAt_left]; exact (parts_nil ih).1
  | right _ ih => rw [itemsAt_right]; exact (parts_nil ih).2

end Splitting

end ClickHouse.Lib
