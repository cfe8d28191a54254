/-
`while` loops with fuel.

A loop of the source becomes a condition, a body on an explicit state and a
bound on the number of iterations; `none` is a loop that has not come to its
end within the bound. The body is itself partial, so loops nest. The rule for a
loop takes an invariant and a variant and gives both halves at once: enough fuel
brings the loop to its end, and it ends in a state with the invariant where the
condition is false.
-/
import Mathlib

set_option autoImplicit false

namespace ClickHouse.Lib

/-- `while (cond) body`; `none` is a loop that has not ended within the fuel, or a failed body. -/
def whileLoop {σ : Type*} (cond : σ → Bool) (body : σ → Option σ) : ℕ → σ → Option σ
  | 0, s => if cond s then none else some s
  | fuel + 1, s => if cond s then (body s).bind (whileLoop cond body fuel) else some s

variable {σ : Type*}

/-- **The rule for loops.** -/
theorem whileLoop_spec (cond : σ → Bool) (body : σ → Option σ) (Inv : σ → Prop) (μ : σ → ℕ)
    (hstep : ∀ s, Inv s → cond s = true → ∃ s', body s = some s' ∧ Inv s' ∧ μ s' < μ s) :
    ∀ (fuel : ℕ) (s : σ), Inv s → μ s ≤ fuel →
      ∃ s', whileLoop cond body fuel s = some s' ∧ Inv s' ∧ cond s' = false := by
  intro fuel
  induction fuel with
  | zero =>
    intro s hs hμ
    by_cases hc : cond s = true
    · -- the variant is 0, so that the body cannot be run
      obtain ⟨s', -, -, hlt⟩ := hstep s hs hc
      omega
    · rw [whileLoop, if_neg hc]
      exact ⟨s, rfl, hs, by simpa using hc⟩
  | succ fuel ih =>
    intro s hs hμ
    by_cases hc : cond s = true
    · obtain ⟨s', hb, hs', hlt⟩ := hstep s hs hc
      rw [whileLoop, if_pos hc, hb]
      exact ih s' hs' (by omega)
    · rw [whileLoop, if_neg hc]
      exact ⟨s, rfl, hs, by simpa using hc⟩

/-- A loop that has ended does not need more fuel. -/
lemma whileLoop_mono (cond : σ → Bool) (body : σ → Option σ) {fuel fuel' : ℕ}
    (hle : fuel ≤ fuel') {s t : σ} (h : whileLoop cond body fuel s = some t) :
    whileLoop cond body fuel' s = some t := by
  induction fuel generalizing fuel' s with
  | zero =>
    by_cases hc : cond s = true
    · rw [whileLoop, if_pos hc] at h
      cases h
    · rw [whileLoop, if_neg hc] at h
      cases fuel' <;> rw [whileLoop, if_neg hc, h]
  | succ fuel ih =>
    obtain ⟨more, rfl⟩ := Nat.exists_eq_add_of_le' (Nat.one_le_iff_ne_zero.2 (by omega : fuel' ≠ 0))
    by_cases hc : cond s = true
    · rw [whileLoop, if_pos hc] at h ⊢
      obtain ⟨s', hbody, hloop⟩ := Option.bind_eq_some_iff.1 h
      rw [hbody]
      exact ih (by omega) hloop
    · rw [whileLoop, if_neg hc] at h ⊢
      exact h

/-- The same rule, and a loop that is entered at all makes the variant less. -/
lemma whileLoop_progress (cond : σ → Bool) (body : σ → Option σ) (Inv : σ → Prop)
    (μ : σ → ℕ) (hstep : ∀ s, Inv s → cond s = true → ∃ s', body s = some s' ∧ Inv s' ∧ μ s' < μ s)
    {fuel : ℕ} {s : σ} (hs : Inv s) (hμ : μ s ≤ fuel) :
    ∃ s', whileLoop cond body fuel s = some s' ∧ Inv s' ∧ cond s' = false ∧
      μ s' ≤ μ s ∧ (cond s = true → μ s' < μ s) := by
  -- the rule with a stronger invariant: the state is the first one, or the variant is less
  obtain ⟨s', hloop, ⟨hs', hle⟩, hcond⟩ := whileLoop_spec cond body
    (fun t => Inv t ∧ (t = s ∨ μ t < μ s)) μ (fun t ht hc => by
      obtain ⟨t', hb, ht', hlt⟩ := hstep t ht.1 hc
      refine ⟨t', hb, ⟨ht', .inr ?_⟩, hlt⟩
      rcases ht.2 with rfl | h
      · exact hlt
      · exact hlt.trans h) fuel s ⟨hs, .inl rfl⟩ hμ
  refine ⟨s', hloop, hs', hcond, ?_, fun hc => ?_⟩
  · rcases hle with rfl | h
    · exact le_rfl
    · exact h.le
  · rcases hle with rfl | h
    · rw [hcond] at hc
      cases hc
    · exact h

end ClickHouse.Lib
