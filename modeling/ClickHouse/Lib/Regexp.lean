/-
Flat regular expressions over any alphabet: literals, a wildcard and its star, and the
two text anchors, one after the other.

What the wildcard consumes is a parameter (`dot`), since with a variable-length
encoding it is a sequence of letters and not a letter. An expression is searched for
in a text: it may start anywhere, and stop anywhere, unless an anchor says otherwise.
-/
import Mathlib

set_option autoImplicit false

namespace ClickHouse.Lib.Regexp

/-- What a pattern without groups, classes and alternatives is made of. -/
inductive Item (α : Type*) where
  | literal (a : α)
  | any
  | anyStar
  | beginText
  | endText
  deriving DecidableEq, Repr

variable {α : Type*} (dot : List α → Prop)

/-- The items match from a position of the text on, which stands between what is
`before` it and what is after it. -/
def Matches : List (Item α) → List α → List α → Prop
  | [], _, _ => True
  | .literal a :: items, before, after =>
    ∃ rest, after = a :: rest ∧ Matches items (before ++ [a]) rest
  | .any :: items, before, after =>
    ∃ w rest, dot w ∧ after = w ++ rest ∧ Matches items (before ++ w) rest
  | .anyStar :: items, before, after =>
    ∃ (ws : List (List α)) (rest : List α), (∀ w ∈ ws, dot w) ∧ after = ws.flatten ++ rest ∧
      Matches items (before ++ ws.flatten) rest
  | .beginText :: items, before, after => before = [] ∧ Matches items before after
  | .endText :: items, before, after => after = [] ∧ Matches items before after

/-- The items match from some position of the text on. -/
def Search (items : List (Item α)) (text : List α) : Prop :=
  ∃ before after, text = before ++ after ∧ Matches dot items before after

variable {dot} {items : List (Item α)}

lemma search_beginText {text : List α} :
    Search dot (.beginText :: items) text ↔ Matches dot items [] text := by
  constructor
  · rintro ⟨before, after, rfl, rfl, h⟩
    exact h
  · intro h
    exact ⟨[], text, rfl, rfl, h⟩

/-- A lone `$` is found in every text, at its end. -/
lemma search_endText (text : List α) : Search dot [.endText] text :=
  ⟨text, [], (List.append_nil text).symm, rfl, trivial⟩

lemma matches_literals {w : List α} {before after : List α} :
    Matches dot (w.map .literal ++ items) before after ↔
      ∃ rest, after = w ++ rest ∧ Matches dot items (before ++ w) rest := by
  induction w generalizing before after with
  | nil => simp
  | cons a w ih =>
    constructor
    · rintro ⟨_, rfl, h⟩
      obtain ⟨rest, rfl, hrest⟩ := ih.1 h
      exact ⟨rest, rfl, by simpa using hrest⟩
    · rintro ⟨rest, rfl, h⟩
      exact ⟨w ++ rest, rfl, ih.2 ⟨rest, rfl, by simpa using h⟩⟩

/-- Stars alone match anything, as each may consume nothing. -/
lemma matches_replicate_anyStar (n : ℕ) (before after : List α) :
    Matches dot (List.replicate n .anyStar) before after := by
  induction n generalizing before after with
  | zero => trivial
  | succ n ih => exact ⟨[], after, by simp, rfl, ih _ _⟩

/-- Items that hold no anchor, but for an optional last `$`. -/
def Open : List (Item α) → Prop
  | [] => True
  | .beginText :: _ => False
  | .endText :: items => items = []
  | _ :: items => Open items

/-- **Every open expression matches something**, from any position on, if the wildcard
can consume something. -/
theorem exists_matches (hdot : ∃ w, dot w) :
    ∀ (items : List (Item α)), Open items → ∀ before, ∃ after, Matches dot items before after
  | [], _, _ => ⟨[], trivial⟩
  | .literal a :: items, h, before =>
    let ⟨after, hafter⟩ := exists_matches hdot items h (before ++ [a])
    ⟨a :: after, after, rfl, hafter⟩
  | .any :: items, h, before =>
    let ⟨w, hw⟩ := hdot
    let ⟨after, hafter⟩ := exists_matches hdot items h (before ++ w)
    ⟨w ++ after, w, after, hw, rfl, hafter⟩
  | .anyStar :: items, h, before =>
    let ⟨after, hafter⟩ := exists_matches hdot items h (before ++ [])
    ⟨after, [], after, by simp, rfl, hafter⟩
  | .endText :: _, h, _ => by
    obtain rfl : _ = [] := h
    exact ⟨[], rfl, trivial⟩

end ClickHouse.Lib.Regexp
