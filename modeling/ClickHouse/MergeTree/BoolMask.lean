/-
`BoolMask` (`src/Storages/MergeTree/BoolMask.{h,cpp}`): two Boolean values, can
the condition be true and can it be false.

A mask is the answer of an index about a set of rows. `&`, `|` and `!` follow
the condition's operators over one and the same set; `combine` joins the answers
for two sets. The operators are used on masks of one set only, `combine` on
masks of different ones: `Admits` says which truth values a mask has to allow
for, and the four lemmas about it are the whole algebra the index uses.
-/
import Mathlib

set_option autoImplicit false

namespace ClickHouse

/-- `BoolMask`: which truth values a condition can have. -/
structure BoolMask where
  can_be_true : Bool := false
  can_be_false : Bool := false
  deriving DecidableEq, Repr

namespace BoolMask

/-- `operator&`. -/
def and (l r : BoolMask) : BoolMask :=
  ⟨l.can_be_true && r.can_be_true, l.can_be_false || r.can_be_false⟩

/-- `operator|`. -/
def or (l r : BoolMask) : BoolMask :=
  ⟨l.can_be_true || r.can_be_true, l.can_be_false && r.can_be_false⟩

/-- `operator!`. -/
def not (m : BoolMask) : BoolMask := ⟨m.can_be_false, m.can_be_true⟩

/-- No longer changeable under `combine`. -/
def isComplete (m : BoolMask) : Bool := m.can_be_true && m.can_be_false

/-- `combine`: join the answers for different hyperrectangles. -/
def combine (l r : BoolMask) : BoolMask :=
  ⟨l.can_be_true || r.can_be_true, l.can_be_false || r.can_be_false⟩

/-- An initial mask with which only `can_be_true` is looked for. -/
def consider_only_can_be_true : BoolMask := ⟨false, true⟩

/-- An initial mask with which only `can_be_false` is looked for. -/
def consider_only_can_be_false : BoolMask := ⟨true, false⟩

/-- The mask allows for the truth value `b`. -/
def Admits (m : BoolMask) (b : Bool) : Prop :=
  if b then m.can_be_true = true else m.can_be_false = true

@[simp] lemma admits_true (m : BoolMask) : m.Admits true ↔ m.can_be_true = true := by
  simp [Admits]

@[simp] lemma admits_false (m : BoolMask) : m.Admits false ↔ m.can_be_false = true := by
  simp [Admits]

lemma admits_full (b : Bool) : (⟨true, true⟩ : BoolMask).Admits b := by
  cases b <;> simp

lemma Admits.not {m : BoolMask} {b : Bool} (h : m.Admits b) : m.not.Admits (!b) := by
  cases b <;> simpa [BoolMask.not] using h

lemma Admits.and {l r : BoolMask} {a b : Bool} (hl : l.Admits a) (hr : r.Admits b) :
    (l.and r).Admits (a && b) := by
  cases a <;> cases b <;> simp_all [BoolMask.and]

lemma Admits.or {l r : BoolMask} {a b : Bool} (hl : l.Admits a) (hr : r.Admits b) :
    (l.or r).Admits (a || b) := by
  cases a <;> cases b <;> simp_all [BoolMask.or]

end BoolMask

end ClickHouse
