/-
Cuts of a linear order: the places just before and just after a point.

An interval with open or closed ends is what lies between two cuts, and every question
about such intervals is a comparison of their cuts: there are no open and closed ends to
tell apart any more. In a dense order the cuts are determined by the points between
them (`exists_inside`), so that the answers are also right the other way round.
-/
import Mathlib

set_option autoImplicit false

namespace ClickHouse.Lib

/-- The place just before a point (`false`), or just after it (`true`). -/
abbrev Cut (α : Type*) : Type _ := α ×ₗ Bool

namespace Cut

variable {α : Type*}

def mk (v : α) (after : Bool) : Cut α := toLex (v, after)

def before (v : α) : Cut α := mk v false

lemma mk_inj {v w : α} {b c : Bool} : mk v b = mk w c ↔ v = w ∧ b = c := by
  rw [mk, mk, toLex_inj, Prod.mk.injEq]

section Order

variable [LinearOrder α] {v w : α} {b c : Bool} {L R L' R' : Cut α} {x y : α}

lemma mk_le_mk : mk v b ≤ mk w c ↔ v < w ∨ (v = w ∧ b ≤ c) := Prod.Lex.toLex_le_toLex

lemma mk_lt_mk : mk v b < mk w c ↔ v < w ∨ (v = w ∧ b < c) := Prod.Lex.toLex_lt_toLex

lemma before_le_before : before v ≤ before w ↔ v ≤ w := by
  rw [before, before, mk_le_mk]
  simp [le_iff_lt_or_eq]

lemma le_before_of_lt (h : L < mk v true) : L ≤ before v := by
  obtain ⟨w, c⟩ := L
  rcases mk_lt_mk.1 h with hlt | ⟨rfl, hc⟩
  · exact mk_le_mk.2 (.inl hlt)
  · refine mk_le_mk.2 (.inr ⟨rfl, ?_⟩)
    revert hc
    cases c <;> simp

/-- There is no cut between the two of a point. -/
lemma mk_le_of_before_lt (h : before v < R) : mk v b ≤ R := by
  obtain ⟨w, c⟩ := R
  rcases mk_lt_mk.1 h with hlt | ⟨rfl, hc⟩
  · exact mk_le_mk.2 (.inl hlt)
  · refine mk_le_mk.2 (.inr ⟨rfl, ?_⟩)
    revert hc
    cases b <;> cases c <;> simp

/-- The points between two cuts. -/
def Inside (L R : Cut α) (x : α) : Prop := L ≤ before x ∧ before x < R

lemma not_inside_iff : ¬ Inside L R x ↔ before x < L ∨ R ≤ before x := by
  rw [Inside, not_and_or, not_le, not_lt]

lemma inside_max_min : Inside (max L L') (min R R') x ↔ Inside L R x ∧ Inside L' R' x := by
  simp only [Inside, max_le_iff, lt_min_iff]
  tauto

/-- Two intervals without a gap between them make one. -/
lemma inside_min_max (h : L ≤ R') (h' : L' ≤ R) :
    Inside (min L L') (max R R') x ↔ Inside L R x ∨ Inside L' R' x := by
  simp only [Inside, min_le_iff, lt_max_iff]
  constructor
  · rintro ⟨hL | hL', hR | hR'⟩
    · exact .inl ⟨hL, hR⟩
    · rcases lt_or_ge (before x) R with hR | hR
      · exact .inl ⟨hL, hR⟩
      · exact .inr ⟨h'.trans hR, hR'⟩
    · rcases lt_or_ge (before x) R' with hR' | hR'
      · exact .inr ⟨hL', hR'⟩
      · exact .inl ⟨h.trans hR', hR⟩
    · exact .inr ⟨hL', hR'⟩
  · rintro (⟨hL, hR⟩ | ⟨hL, hR⟩)
    · exact ⟨.inl hL, .inl hR⟩
    · exact ⟨.inr hL, .inr hR⟩

lemma ordConnected_inside : Set.OrdConnected {x | Inside L R x} := by
  constructor
  rintro x hx z hz y ⟨hxy, hyz⟩
  exact ⟨hx.1.trans (before_le_before.2 hxy), (before_le_before.2 hyz).trans_lt hz.2⟩

end Order

section Dense

variable [LinearOrder α] [DenselyOrdered α] {L R L' R' : Cut α}

/-- **There is a point between two cuts.** -/
theorem exists_inside (h : L < R) : ∃ x, Inside L R x := by
  obtain ⟨v, b⟩ := L
  cases b with
  | false => exact ⟨v, le_refl (mk v false), h⟩
  | true =>
    rcases mk_lt_mk.1 h with hvw | ⟨-, hbc⟩
    · obtain ⟨x, hvx, hxw⟩ := exists_between hvw
      exact ⟨x, mk_le_mk.2 (.inl hvx), mk_lt_mk.2 (.inl hxw)⟩
    · exact absurd hbc (by simp)

lemma exists_inside_iff : (∃ x, Inside L R x) ↔ L < R :=
  ⟨fun ⟨_, hL, hR⟩ => hL.trans_lt hR, exists_inside⟩

lemma exists_common_iff (h : L < R) (h' : L' < R') :
    (∃ x, Inside L R x ∧ Inside L' R' x) ↔ L < R' ∧ L' < R := by
  simp only [← inside_max_min]
  rw [exists_inside_iff, max_lt_iff, lt_min_iff, lt_min_iff]
  tauto

lemma subset_iff (h : L < R) : (∀ x, Inside L R x → Inside L' R' x) ↔ L' ≤ L ∧ R ≤ R' := by
  constructor
  · intro hsub
    constructor
    · by_contra hlt
      -- a point from `L` to where the other interval starts
      obtain ⟨x, hx⟩ := exists_inside (lt_min h (not_le.1 hlt))
      have hR : before x < R := hx.2.trans_le (min_le_left R L')
      exact absurd (hsub x ⟨hx.1, hR⟩).1 (not_le.2 (hx.2.trans_le (min_le_right R L')))
    · by_contra hlt
      obtain ⟨x, hx⟩ := exists_inside (max_lt h (not_le.1 hlt))
      have hL : L ≤ before x := (le_max_left L R').trans hx.1
      exact absurd (hsub x ⟨hL, hx.2⟩).2 (not_lt.2 ((le_max_right L R').trans hx.1))
  · rintro ⟨hL, hR⟩ x hx
    exact ⟨hL.trans hx.1, hx.2.trans_le hR⟩

/-- **When a union is an interval**: there is no gap between the two. -/
theorem ordConnected_union_iff (h : L < R) (h' : L' < R') :
    Set.OrdConnected {x | Inside L R x ∨ Inside L' R' x} ↔ L ≤ R' ∧ L' ≤ R := by
  -- a value in the gap lies between one of either side and is in neither of them
  have hgap : ∀ {L R L' R' : Cut α}, L < R → L' < R' → R < L' →
      ¬ Set.OrdConnected {x | Inside L R x ∨ Inside L' R' x} := by
    intro L R L' R' h h' hlt hconn
    obtain ⟨x, hx⟩ := exists_inside h
    obtain ⟨y, hy⟩ := exists_inside hlt
    obtain ⟨z, hz⟩ := exists_inside h'
    have hxy : x ≤ y := before_le_before.1 (hx.2.le.trans hy.1)
    have hyz : y ≤ z := before_le_before.1 (hy.2.le.trans hz.1)
    rcases hconn.out (.inl hx) (.inr hz) ⟨hxy, hyz⟩ with hin | hin
    · exact absurd hin.2 (not_lt.2 hy.1)
    · exact absurd hin.1 (not_le.2 hy.2)
  constructor
  · intro hconn
    constructor
    · by_contra hlt
      refine hgap h' h (not_le.1 hlt) ?_
      simpa only [or_comm] using hconn
    · by_contra hlt
      exact hgap h h' (not_le.1 hlt) hconn
  · rintro ⟨hle, hle'⟩
    simp only [← inside_min_max hle hle']
    exact ordConnected_inside

end Dense

end Cut

end ClickHouse.Lib
