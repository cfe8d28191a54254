/-
Binary search for the place where a predicate on an interval of numbers stops to hold.
-/
import Mathlib

set_option autoImplicit false

namespace ClickHouse.Lib

/-- The first number of the half-open interval where `p` fails, its end if there is none. -/
def partitionPoint (p : ℕ → Bool) (left right : ℕ) : ℕ :=
  if left < right then
    let middle := left + (right - left) / 2
    if p middle then partitionPoint p (middle + 1) right else partitionPoint p left middle
  else left
termination_by right - left

/-- **The search finds the place.** What has to be known is that `p` holds up to some place
of the interval only. -/
theorem partitionPoint_spec {p : ℕ → Bool} {left right : ℕ} (hle : left ≤ right)
    (hp : ∀ i j, left ≤ i → i ≤ j → j < right → p j = true → p i = true) :
    left ≤ partitionPoint p left right ∧ partitionPoint p left right ≤ right ∧
      ∀ i, left ≤ i → i < right → (p i = true ↔ i < partitionPoint p left right) := by
  fun_induction partitionPoint p left right with
  | case1 left right hlt middle hm ih =>
    obtain ⟨hl, hr, hiff⟩ := ih (by omega) fun i j hi => hp i j (by omega)
    refine ⟨by omega, hr, fun i hi hir => ?_⟩
    by_cases hmid : i ≤ middle
    · -- `p` holds in the middle, and so everywhere before it
      have hpi : p i = true := hp i middle hi hmid (by omega) hm
      exact ⟨fun _ => by omega, fun _ => hpi⟩
    · exact hiff i (by omega) hir
  | case2 left right hlt middle hm ih =>
    obtain ⟨hl, hr, hiff⟩ := ih (by omega) fun i j hi hij hj => hp i j hi hij (by omega)
    refine ⟨hl, by omega, fun i hi hir => ?_⟩
    by_cases hmid : i < middle
    · exact hiff i hi hmid
    · -- `p` does not hold in the middle, and so nowhere behind it
      have hpi : ¬ p i = true := fun h => hm (hp middle i (by omega) (by omega) hir h)
      exact ⟨fun h => absurd h hpi, fun h => by omega⟩
  | case3 left right hnlt =>
    exact ⟨le_rfl, hle, fun i hi hir => by omega⟩

end ClickHouse.Lib
