/-
Postfix evaluation on a stack, over any type of values.

An instruction pushes a value, or replaces the top of the stack, or the two top
values. One list of instructions is often evaluated several times in different
domains, and the evaluations are compared: `run_rel` says that instructions which are
related one by one lead to related stacks.
-/
import Mathlib

set_option autoImplicit false

namespace ClickHouse.Lib

/-- An instruction of a stack machine. -/
inductive Instr (V : Type*) where
  | push (v : V)
  | unary (f : V → V)
  | binary (f : V → V → V)

namespace Instr

variable {V W : Type*}

/-- `none` is a stack with too few values. -/
def step : List V → Instr V → Option (List V)
  | s, push v => some (v :: s)
  | v :: s, unary f => some (f v :: s)
  | a :: b :: s, binary f => some (f a b :: s)
  | _, _ => none

/-- The program from left to right. -/
def run (is : List (Instr V)) (s : List V) : Option (List V) := is.foldlM step s

@[simp] lemma run_nil (s : List V) : run [] s = some s := rfl

@[simp] lemma run_cons (i : Instr V) (is : List (Instr V)) (s : List V) :
    run (i :: is) s = (step s i).bind (run is) := List.foldlM_cons

lemma run_append (is js : List (Instr V)) (s : List V) :
    run (is ++ js) s = (run is s).bind (run js) := List.foldlM_append

/-- Two instructions that take related stacks to related stacks. -/
inductive Rel (R : V → W → Prop) : Instr V → Instr W → Prop
  | push {v : V} {w : W} (h : R v w) : Rel R (push v) (push w)
  | unary {f : V → V} {g : W → W} (h : ∀ v w, R v w → R (f v) (g w)) : Rel R (unary f) (unary g)
  | binary {f : V → V → V} {g : W → W → W}
      (h : ∀ v w v' w', R v w → R v' w' → R (f v v') (g w w')) : Rel R (binary f) (binary g)

/-- Related instructions keep related stacks related. -/
lemma step_rel {R : V → W → Prop} {i : Instr V} {j : Instr W} (hij : Rel R i j) {s s' : List V}
    {r : List W} (hs : List.Forall₂ R s r) (h : step s i = some s') :
    ∃ r', step r j = some r' ∧ List.Forall₂ R s' r' := by
  cases hij with
  | push hv =>
    obtain rfl := Option.some.inj h
    exact ⟨_, rfl, hs.cons hv⟩
  | unary hf =>
    cases hs with
    | nil => exact absurd h (by simp [step])
    | cons hv hs =>
      obtain rfl := Option.some.inj h
      exact ⟨_, rfl, hs.cons (hf _ _ hv)⟩
  | binary hf =>
    cases hs with
    | nil => exact absurd h (by simp [step])
    | cons hv hs =>
      cases hs with
      | nil => exact absurd h (by simp [step])
      | cons hv' hs =>
        obtain rfl := Option.some.inj h
        exact ⟨_, rfl, hs.cons (hf _ _ _ _ hv hv')⟩

/-- **Related instructions, related stacks.** -/
theorem run_rel {R : V → W → Prop} {is : List (Instr V)} {js : List (Instr W)}
    (hij : List.Forall₂ (Rel R) is js) {s s' : List V} {r : List W} (hs : List.Forall₂ R s r)
    (h : run is s = some s') : ∃ r', run js r = some r' ∧ List.Forall₂ R s' r' := by
  induction hij generalizing s r with
  | nil =>
    obtain rfl := Option.some.inj h
    exact ⟨r, rfl, hs⟩
  | cons hi _ ih =>
    rw [run_cons, Option.bind_eq_some_iff] at h
    obtain ⟨t, ht, h⟩ := h
    obtain ⟨t', ht', hrel⟩ := step_rel hi hs ht
    rw [run_cons, ht', Option.bind_some]
    exact ih hrel h

end Instr

end ClickHouse.Lib
