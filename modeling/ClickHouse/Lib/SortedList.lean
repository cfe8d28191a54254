/-
`std::lower_bound` on a sorted list, and how many elements stand on either side of one.

The lower bound of `p` is the index of the first element that is not less than `p`,
or the length. In a sorted list an index is below it exactly if the element there is
less than `p`; everything else about it follows from that.
-/
import Mathlib

set_option autoImplicit false

namespace ClickHouse.Lib

open List

variable {β : Type*} [LinearOrder β]

/-- `std::lower_bound`: how many elements in front are less than `p`. -/
def lowerBound (s : List β) (p : β) : ℕ := (s.takeWhile (fun w => decide (w < p))).length

/-- **The lower bound** splits the indices of a sorted list. -/
theorem lt_lowerBound_iff {s : List β} (hs : s.Pairwise (· ≤ ·)) {p w : β} {i : ℕ}
    (hi : s[i]? = some w) : i < lowerBound s p ↔ w < p := by
  induction s generalizing i with
  | nil => simp at hi
  | cons a s ih =>
    rw [pairwise_cons] at hs
    unfold lowerBound
    by_cases ha : a < p
    · rw [takeWhile_cons_of_pos (by simpa using ha), length_cons]
      cases i with
      | zero =>
        obtain rfl : a = w := by simpa using hi
        simpa using ha
      | succ i =>
        rw [Nat.add_lt_add_iff_right]
        exact ih hs.2 hi
    · rw [takeWhile_cons_of_neg (by simpa using ha), length_nil]
      -- all elements behind the first one are at least as large
      have haw : a ≤ w := by
        cases i with
        | zero =>
          obtain rfl : a = w := by simpa using hi
          exact le_rfl
        | succ i =>
          exact hs.1 w (mem_of_getElem? hi)
      simp only [Nat.not_lt_zero, false_iff, not_lt]
      exact (not_lt.1 ha).trans haw

lemma getElem?_of_lt_lowerBound {s : List β} {p : β} {i : ℕ} (h : i < lowerBound s p) :
    ∃ w, s[i]? = some w :=
  ⟨_, getElem?_eq_getElem (h.trans_le (takeWhile_sublist _).length_le)⟩

section

variable {s : List β} (hs : s.Pairwise (· ≤ ·))
include hs

lemma getElem?_le_of_le {i j : ℕ} {v w : β} (hij : i ≤ j) (hi : s[i]? = some v)
    (hj : s[j]? = some w) : v ≤ w := by
  obtain ⟨hi', rfl⟩ := List.getElem?_eq_some_iff.1 hi
  obtain ⟨hj', rfl⟩ := List.getElem?_eq_some_iff.1 hj
  rcases hij.lt_or_eq with h | rfl
  · exact pairwise_iff_getElem.1 hs i j hi' hj' h
  · exact le_rfl

/-- An element is found at its lower bound. -/
lemma getElem?_lowerBound_iff {p : β} : s[lowerBound s p]? = some p ↔ p ∈ s := by
  constructor
  · intro h
    exact mem_of_getElem? h
  intro h
  obtain ⟨j, hj⟩ := mem_iff_getElem?.1 h
  have hle : lowerBound s p ≤ j := by
    by_contra hlt
    exact lt_irrefl p ((lt_lowerBound_iff hs hj).1 (not_le.1 hlt))
  obtain ⟨hjlen, -⟩ := List.getElem?_eq_some_iff.1 hj
  obtain ⟨w, hw⟩ : ∃ w, s[lowerBound s p]? = some w := ⟨_, getElem?_eq_getElem (hle.trans_lt hjlen)⟩
  have hwp : w ≤ p := getElem?_le_of_le hs hle hw hj
  have hpw : ¬ w < p := fun hlt => lt_irrefl _ ((lt_lowerBound_iff hs hw).2 hlt)
  rw [hw, le_antisymm hwp (not_lt.1 hpw)]

omit [LinearOrder β] hs in
lemma countP_take_add_drop (k : ℕ) {p : β → Bool} :
    s.countP p = (s.take k).countP p + (s.drop k).countP p := by
  rw [← countP_append, take_append_drop]

/-- At most `k` elements are less than the one at `k`. -/
lemma countP_lt_get_le {k : ℕ} (hk : k < s.length) :
    s.countP (fun w => decide (w < s.get ⟨k, hk⟩)) ≤ k := by
  have hrest : (s.drop k).countP (fun w => decide (w < s.get ⟨k, hk⟩)) = 0 := by
    rw [countP_eq_zero]
    intro w hw
    obtain ⟨i, hi, rfl⟩ := mem_drop_iff_getElem.1 hw
    rw [decide_eq_true_eq, not_lt]
    exact hs.rel_get_of_le (Fin.mk_le_mk.2 (Nat.le_add_right k i))
  rw [countP_take_add_drop k, hrest, Nat.add_zero]
  exact countP_le_length.trans (length_take_le k s)

/-- And at most those after `k` are greater. -/
lemma countP_get_lt_le {k : ℕ} (hk : k < s.length) :
    s.countP (fun w => decide (s.get ⟨k, hk⟩ < w)) ≤ s.length - (k + 1) := by
  have hfirst : (s.take (k + 1)).countP (fun w => decide (s.get ⟨k, hk⟩ < w)) = 0 := by
    rw [countP_eq_zero]
    intro w hw
    obtain ⟨i, hi, rfl⟩ := mem_take_iff_getElem.1 hw
    rw [decide_eq_true_eq, not_lt]
    exact hs.rel_get_of_le (Fin.mk_le_mk.2 (by omega))
  rw [countP_take_add_drop (k + 1), hfirst, Nat.zero_add, ← length_drop]
  exact countP_le_length

end

/-! ## Lists sorted by a key -/

/-- A property that ends once, in a list, is kept by those before its end. -/
lemma takeWhile_eq_filter {α : Type*} {xs : List α} {p : α → Bool}
    (h : xs.Pairwise fun x y => p y = true → p x = true) : xs.takeWhile p = xs.filter p := by
  induction xs with
  | nil => rfl
  | cons x xs ih =>
    obtain ⟨hx, hxs⟩ := pairwise_cons.1 h
    by_cases hp : p x = true
    · rw [takeWhile_cons_of_pos hp, filter_cons_of_pos hp, ih hxs]
    · rw [takeWhile_cons_of_neg hp, filter_cons_of_neg hp, eq_comm, filter_eq_nil_iff]
      exact fun y hy hpy => hp (hx y hy hpy)

/-- The elements up to a bound, in front of a list sorted by the key. -/
lemma mergeSort_takeWhile {α : Type*} (key : α → β) (bound : β) (xs : List α) :
    ((xs.mergeSort fun x y => decide (key x ≤ key y)).takeWhile
      fun x => !(decide (bound < key x))).Perm (xs.filter fun x => decide (key x ≤ bound)) := by
  have hsorted : (xs.mergeSort fun x y => decide (key x ≤ key y)).Pairwise
      fun x y => key x ≤ key y := by
    refine (pairwise_mergeSort ?_ ?_ xs).imp of_decide_eq_true
    · intro x y z hxy hyz
      exact decide_eq_true ((of_decide_eq_true hxy).trans (of_decide_eq_true hyz))
    · intro x y
      rw [Bool.or_eq_true, decide_eq_true_eq, decide_eq_true_eq]
      exact le_total _ _
  have hkeep : (fun x => !(decide (bound < key x))) = fun x => decide (key x ≤ bound) := by
    funext x
    rw [← decide_not, decide_eq_decide, not_lt]
  rw [hkeep, takeWhile_eq_filter (hsorted.imp fun hxy hy =>
    decide_eq_true (hxy.trans (of_decide_eq_true hy)))]
  exact (mergeSort_perm xs _).filter _

end ClickHouse.Lib
