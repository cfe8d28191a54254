/-
The atoms for LIKE (`src/Storages/MergeTree/KeyCondition.cpp`): the prefix of a pattern
before its first wildcard, and the range of all strings that start with it.

Two scanners read the same pattern: `extractFixedPrefixFromLikePattern` here, and
`likePatternToRegexp` when LIKE is evaluated. They agree where an escape sequence ends
and differ in what it is: the first drops the backslash of any escape sequence, the
second keeps it in front of an ordinary character (`\d` is two characters). `scan_spec`
walks through both at once, and says what they have read when they get to the first
wildcard: the same literals, or, after an unknown escape sequence, literals of which
neither is a prefix of the other.

The strings with a given prefix are an interval (`mem_prefixRange`), so what holds of the
prefix holds of the atom. `like` needs one direction of it only, and `notLike` both.
-/
import ClickHouse.Common.LikePatternToRegexp
import ClickHouse.MergeTree.KeyCondition

set_option autoImplicit false

namespace ClickHouse

open Lib.Regexp List Option

/-! ## Fixed prefixes -/

/-- What is returned at a wildcard, or at the end of the pattern. -/
def prefixFound (requires_perfect is_perfect : Bool) (fixed : Bytes) : Bytes × Bool :=
  if requires_perfect then
    if is_perfect then (fixed, true) else ([], false)
  else (fixed, is_perfect)

/-- The loop of `extractFixedPrefixFromLikePattern`: the bytes from `pos` on, and the
prefix so far. -/
def extractFixedPrefixLoop (requires_perfect : Bool) : Bytes → Bytes → Bytes × Bool
  | [], fixed => prefixFound requires_perfect false fixed
  | c :: rest, fixed =>
    if c = ch '%' ∨ c = ch '_' then
      prefixFound requires_perfect ((c :: rest).all (· == ch '%')) fixed
    else if c = ch '\\' then
      match rest with
      | [] => prefixFound requires_perfect false fixed
      | d :: rest' => extractFixedPrefixLoop requires_perfect rest' (fixed ++ [d])
    else extractFixedPrefixLoop requires_perfect rest (fixed ++ [c])

/-- The prefix, and whether it is followed by `%` only. -/
def extractFixedPrefixFromLikePattern (like_pattern : Bytes) (requires_perfect : Bool) :
    Bytes × Bool :=
  extractFixedPrefixLoop requires_perfect like_pattern []

/-! ## Atoms -/

/-- Increment the last byte by one. But if it is max (255), then remove it and increase
the previous one. -/
def firstStringThatIsGreaterThanAllStringsWithPrefix (s : Bytes) : Bytes :=
  match s.reverse.dropWhile (· == 255) with
  | [] => []
  | c :: rest => ((1 + c) :: rest).reverse

/-- The range of the atoms about a prefix. -/
def prefixRange (s : Bytes) : Range Bytes :=
  let right_bound := firstStringThatIsGreaterThanAllStringsWithPrefix s
  if !right_bound.isEmpty then
    Range.bounded ⟨.value s, true⟩ true ⟨.value right_bound, true⟩ false
  else Range.createLeftBounded ⟨.value s, true⟩ true false

namespace AtomMap

/-- `like`; `none` is `return false`, and the value is no string if it is no
`Field.value`. -/
def like (out : RPNElement Bytes) : Field Bytes → Option (RPNElement Bytes)
  | .value pattern =>
    let (fixed, is_perfect) := extractFixedPrefixFromLikePattern pattern false
    if fixed.isEmpty then none
    else some { out with
      relaxed := if !is_perfect then true else out.relaxed
      function := .FUNCTION_IN_RANGE
      range := prefixRange fixed }
  | _ => none

/-- `notLike`, which needs a perfect prefix. -/
def notLike (out : RPNElement Bytes) : Field Bytes → Option (RPNElement Bytes)
  | .value pattern =>
    let (fixed, _) := extractFixedPrefixFromLikePattern pattern true
    if fixed.isEmpty then none
    else some { out with function := .FUNCTION_NOT_IN_RANGE, range := prefixRange fixed }
  | _ => none

/-- `startsWith`, where the whole value is the prefix. -/
def startsWith (out : RPNElement Bytes) : Field Bytes → Option (RPNElement Bytes)
  | .value fixed =>
    if fixed.isEmpty then none
    else some { out with function := .FUNCTION_IN_RANGE, range := prefixRange fixed }
  | _ => none

end AtomMap

/-! ## The strings with a prefix -/

/-- `firstStringThatIsGreaterThanAllStringsWithPrefix`, from the first byte on. -/
def bump : Bytes → Option Bytes
  | [] => none
  | c :: s =>
    match bump s with
    | some r => some (c :: r)
    | none => if c = 255 then none else some [1 + c]

lemma dropWhile_max_reverse_cons (c : UInt8) (s : Bytes) :
    (c :: s).reverse.dropWhile (· == 255) =
      if s.reverse.dropWhile (· == 255) = [] then [c].dropWhile (· == 255)
      else s.reverse.dropWhile (· == 255) ++ [c] := by
  rw [reverse_cons, dropWhile_append]
  simp only [List.isEmpty_iff]

/-- The next string is empty exactly if `bump` gives none. -/
lemma firstString_eq (s : Bytes) :
    firstStringThatIsGreaterThanAllStringsWithPrefix s = (bump s).getD [] ∧
      (s.reverse.dropWhile (· == 255) = [] ↔ bump s = none) := by
  induction s with
  | nil => exact ⟨rfl, by simp [bump]⟩
  | cons c s ih =>
    unfold firstStringThatIsGreaterThanAllStringsWithPrefix at ih ⊢
    rw [dropWhile_max_reverse_cons]
    cases hs : s.reverse.dropWhile (· == 255) with
    | nil =>
      -- the rest is 255 throughout, and the first character decides
      have hnone : bump s = none := ih.2.1 hs
      by_cases hc : c = 255
      · simp [bump, hnone, hc]
      · simp [bump, hnone, hc]
    | cons d rest =>
      -- the rest has a next string
      rw [hs] at ih
      cases hbump : bump s with
      | none => simp [hbump] at ih
      | some r =>
        have hr : ((1 + d) :: rest).reverse = r := by simpa [hbump] using ih.1
        simp [bump, hbump, ← hr]

lemma bump_ne_nil (s : Bytes) : bump s ≠ some [] := by
  cases s with
  | nil => simp [bump]
  | cons c s =>
    rw [bump]
    cases bump s with
    | none => split_ifs <;> simp
    | some r => simp

lemma lt_succ_byte {c d : UInt8} (hc : c ≠ 255) : d < 1 + c ↔ d ≤ c := by
  rw [UInt8.lt_iff_toNat_lt, UInt8.le_iff_toNat_le, UInt8.toNat_add]
  have hlt := c.toNat_lt
  have hne : c.toNat ≠ 255 := fun h => hc (UInt8.toNat_inj.1 h)
  have hone : (1 : UInt8).toNat = 1 := rfl
  omega

lemma le_max_byte (c : UInt8) : c ≤ 255 := by
  rw [UInt8.le_iff_toNat_le]
  have hlt := c.toNat_lt
  have hmax : (255 : UInt8).toNat = 255 := rfl
  omega

/-- The strings with a prefix are those from it on, below the next string if there is
one. -/
lemma prefix_iff_between (s t : Bytes) : s <+: t ↔ ¬ t < s ∧ ∀ r, bump s = some r → t < r := by
  induction s generalizing t with
  | nil => simp [bump]
  | cons c s ih =>
    cases t with
    | nil => simp
    | cons d t =>
      rw [cons_prefix_cons, ih t, cons_lt_cons_iff, bump]
      -- the next string differs from the prefix behind the first character, or at it
      cases hbump : bump s with
      | some r =>
        simp only [some.injEq, forall_eq', cons_lt_cons_iff]
        constructor
        · rintro ⟨rfl, hle, hlt⟩
          exact ⟨by simpa using hle, .inr ⟨rfl, hlt⟩⟩
        · rintro ⟨hnot, hlt | ⟨rfl, hlt⟩⟩
          · exact absurd (.inl hlt) hnot
          · exact ⟨rfl, fun h => hnot (.inr ⟨rfl, h⟩), hlt⟩
      | none =>
        by_cases hc : c = 255
        · -- all bytes are 255, so that there is no next string
          subst hc
          have hle := le_max_byte d
          simp only [reduceCtorEq, false_implies, implies_true, and_true, if_true]
          constructor
          · rintro ⟨rfl, hnot⟩
            simpa using hnot
          · intro hnot
            have heq : 255 = d := (eq_of_le_of_not_lt hle fun h => hnot (.inl h)).symm
            exact ⟨heq, fun h => hnot (.inr ⟨heq.symm, h⟩)⟩
        · -- the rest is 255 throughout, so that the first character is raised
          have hnil : ¬ t < [] := not_lt_nil t
          simp only [reduceCtorEq, false_implies, implies_true, and_true, hc, if_false,
            some.injEq, forall_eq', cons_lt_cons_iff, lt_succ_byte hc, hnil, and_false,
            or_false]
          constructor
          · rintro ⟨rfl, hnot⟩
            exact ⟨by simpa using hnot, le_rfl⟩
          · rintro ⟨hnot, hle⟩
            have heq : c = d := (eq_of_le_of_not_lt hle fun h => hnot (.inl h)).symm
            exact ⟨heq, fun h => hnot (.inr ⟨heq.symm, h⟩)⟩

/-- **The range of a prefix** holds the strings that start with it. -/
theorem mem_prefixRange {s t : Bytes} : (prefixRange s).Mem (.value t) ↔ s <+: t := by
  have hholds : (DataType.string false).Holds (.value t) := trivial
  rw [prefix_iff_between]
  unfold prefixRange
  rw [(firstString_eq s).1]
  cases hbump : bump s with
  | none =>
    have hmem : (Range.createLeftBounded ⟨.value s, true⟩ true false).Mem (.value t) ↔
        Field.value s < .value t ∨ (true = true ∧ Field.value t = .value s) :=
      Range.mem_createLeftBounded (DataType.string false) hholds trivial
    simp only [getD_none, isEmpty_nil, Bool.not_true, Bool.false_eq_true, if_false,
      hmem, reduceCtorEq, false_implies, implies_true, and_true, true_and, Field.value_lt_value,
      Field.value.injEq]
    rw [not_lt, le_iff_lt_or_eq, eq_comm]
  | some r =>
    have hr : r.isEmpty = false := isEmpty_eq_false_iff.2 fun h => bump_ne_nil s (h ▸ hbump)
    have hmem : (Range.bounded ⟨.value s, true⟩ true ⟨.value r, true⟩ false).Mem (.value t) ↔
        Field.value s ≤ .value t ∧ Field.value t < .value r :=
      Range.mem_bounded_iff (l := ⟨.value s, _⟩) (r := ⟨.value r, _⟩) (DataType.string false) hholds
        trivial trivial true false
    simp only [getD_some, hr, Bool.not_false, if_true, hmem, some.injEq,
      forall_eq', Field.value_lt_value, Field.value_le_value]
    rw [not_lt]

/-- **The atom of `startsWith` is exact**: its range holds the strings that start with the
constant, and there is no atom only for the empty string, which every string starts with. -/
theorem startsWith_atom_spec (out : RPNElement Bytes) (fixed : Bytes) :
    (AtomMap.startsWith out (.value fixed) = none ↔ fixed = []) ∧
      ∀ atom, AtomMap.startsWith out (.value fixed) = some atom →
        atom.function = .FUNCTION_IN_RANGE ∧
          ∀ t, atom.range.Mem (.value t) ↔ fixed <+: t := by
  cases fixed with
  | nil => exact ⟨iff_of_true rfl rfl, fun atom hatom => by cases hatom⟩
  | cons c fixed =>
    refine ⟨iff_of_false (by simp [AtomMap.startsWith]) (cons_ne_nil c fixed), ?_⟩
    rintro atom ⟨⟩
    exact ⟨rfl, fun t => mem_prefixRange⟩

/-- **A string starts with a prefix** exactly if it is between the prefix and the next string,
where an empty next string bounds nothing. -/
theorem startsWith_iff_le_and_lt (s t : Bytes) : s <+: t ↔
    s ≤ t ∧ (t < firstStringThatIsGreaterThanAllStringsWithPrefix s ∨
      firstStringThatIsGreaterThanAllStringsWithPrefix s = []) := by
  rw [prefix_iff_between, not_lt, (firstString_eq s).1]
  cases hbump : bump s with
  | none => simp
  | some r =>
    have hr : r ≠ [] := fun h => bump_ne_nil s (h ▸ hbump)
    simp [hr]

/-! ## The two scanners -/

/-- The pattern without backslashes up to the first wildcard, and the pattern from there
on. -/
def scan : Bytes → Bytes × Bytes
  | [] => ([], [])
  | c :: rest =>
    if c = ch '%' ∨ c = ch '_' then ([], c :: rest)
    else if c = ch '\\' then
      match rest with
      | [] => ([], [])
      | d :: rest' => (d :: (scan rest').1, (scan rest').2)
    else (c :: (scan rest).1, (scan rest).2)

/-- The pattern has a wildcard, and from the first one on it is `%` only. -/
def PerfectShape (pattern : Bytes) : Prop :=
  (scan pattern).2 ≠ [] ∧ ∀ c ∈ (scan pattern).2, c = ch '%'

instance (pattern : Bytes) : Decidable (PerfectShape pattern) :=
  inferInstanceAs (Decidable (_ ∧ _))

/-- Before the first wildcard there is a backslash in front of a character other than
`%`, `_` and the backslash. -/
def unknownEscape : Bytes → Bool
  | [] => false
  | c :: rest =>
    if c = ch '%' ∨ c = ch '_' then false
    else if c = ch '\\' then
      match rest with
      | [] => false
      | d :: rest' => !decide (Escapable d) || unknownEscape rest'
    else unknownEscape rest

variable {c : UInt8}

lemma scan_wildcard (hc : c = ch '%' ∨ c = ch '_') (rest : Bytes) :
    scan (c :: rest) = ([], c :: rest) := by
  rw [scan.eq_def]
  exact if_pos hc

lemma scan_escape (d : UInt8) (rest : Bytes) :
    scan (ch '\\' :: d :: rest) = (d :: (scan rest).1, (scan rest).2) := by
  rw [scan.eq_def]
  simp [show ¬ (ch '\\' = ch '%' ∨ ch '\\' = ch '_') by decide]

lemma scan_literal (hc : ¬ Escapable c) (rest : Bytes) :
    scan (c :: rest) = (c :: (scan rest).1, (scan rest).2) := by
  rw [Escapable, not_or, not_or] at hc
  rw [scan.eq_def]
  simp [hc]

lemma unknownEscape_wildcard (hc : c = ch '%' ∨ c = ch '_') (rest : Bytes) :
    unknownEscape (c :: rest) = false := by
  rw [unknownEscape.eq_def]
  exact if_pos hc

lemma unknownEscape_escape (d : UInt8) (rest : Bytes) :
    unknownEscape (ch '\\' :: d :: rest) = (!decide (Escapable d) || unknownEscape rest) := by
  rw [unknownEscape.eq_def]
  simp [show ¬ (ch '\\' = ch '%' ∨ ch '\\' = ch '_') by decide]

lemma unknownEscape_literal (hc : ¬ Escapable c) (rest : Bytes) :
    unknownEscape (c :: rest) = unknownEscape rest := by
  rw [Escapable, not_or, not_or] at hc
  rw [unknownEscape.eq_def]
  simp [hc]

/-- Patterns are read from a wildcard, an escape sequence or a literal to the next one. -/
lemma pattern_induction {P : Bytes → Prop} (nil : P [])
    (wildcard : ∀ c rest, c = ch '%' ∨ c = ch '_' → P (c :: rest)) (dangling : P [ch '\\'])
    (escape : ∀ d rest, P rest → P (ch '\\' :: d :: rest))
    (literal : ∀ c rest, ¬ Escapable c → P rest → P (c :: rest)) (pattern : Bytes) : P pattern := by
  induction pattern using scan.induct with
  | case1 => exact nil
  | case2 c rest hc => exact wildcard c rest hc
  | case3 => exact dangling
  | case4 d rest _ ih => exact escape d rest ih
  | case5 c rest hwild hbackslash ih =>
    refine literal c rest ?_ ih
    unfold Escapable
    tauto

lemma perfectShape_congr {pattern pattern' : Bytes} (h : (scan pattern).2 = (scan pattern').2) :
    PerfectShape pattern ↔ PerfectShape pattern' := by
  rw [PerfectShape, PerfectShape, h]

variable (requires_perfect : Bool)

/-- The loop, in one pass: the prefix is scanned, and the rest decides whether it is perfect. -/
lemma extractFixedPrefixLoop_eq (pos fixed : Bytes) :
    extractFixedPrefixLoop requires_perfect pos fixed =
      prefixFound requires_perfect (decide (PerfectShape pos)) (fixed ++ (scan pos).1) := by
  induction pos using pattern_induction generalizing fixed with
  | nil => simp [extractFixedPrefixLoop, scan, PerfectShape]
  | wildcard c rest hc =>
    -- the prefix is perfect if only percent signs follow
    have hall : (c :: rest).all (· == ch '%') = decide (PerfectShape (c :: rest)) := by
      rw [Bool.eq_iff_iff, decide_eq_true_iff, PerfectShape, scan_wildcard hc]
      simp
    rw [extractFixedPrefixLoop.eq_def]
    simp only [hc, if_true, hall, scan_wildcard hc, append_nil]
  | dangling =>
    -- a backslash at the end makes the pattern imperfect
    have hshape : ¬ PerfectShape [ch '\\'] := fun h => h.1 rfl
    rw [extractFixedPrefixLoop.eq_def]
    simp [show ¬ (ch '\\' = ch '%' ∨ ch '\\' = ch '_') by decide, hshape,
      show (scan [ch '\\']).1 = [] from rfl]
  | escape d rest ih =>
    -- an escaped character is taken as it is, known or not
    have hshape : PerfectShape (ch '\\' :: d :: rest) ↔ PerfectShape rest :=
      perfectShape_congr (by rw [scan_escape])
    rw [extractFixedPrefixLoop.eq_def]
    simp [show ¬ (ch '\\' = ch '%' ∨ ch '\\' = ch '_') by decide, ih, hshape, scan_escape]
  | literal c rest hc ih =>
    have hshape : PerfectShape (c :: rest) ↔ PerfectShape rest :=
      perfectShape_congr (by rw [scan_literal hc])
    rw [extractFixedPrefixLoop.eq_def, scan_literal hc]
    rw [Escapable, not_or, not_or] at hc
    simp [hc, ih, hshape]

variable (pattern : Bytes)

lemma extractFixedPrefixFromLikePattern_eq :
    extractFixedPrefixFromLikePattern pattern requires_perfect =
      prefixFound requires_perfect (decide (PerfectShape pattern)) (scan pattern).1 :=
  extractFixedPrefixLoop_eq requires_perfect pattern []

/-- Neither starts with the other. -/
def Incomparable (u v : Bytes) : Prop := ¬ u <+: v ∧ ¬ v <+: u

lemma Incomparable.cons {u v : Bytes} (h : Incomparable u v) (c : UInt8) :
    Incomparable (c :: u) (c :: v) := by
  simpa [Incomparable, cons_prefix_cons] using h

lemma incomparable_of_ne {c d : UInt8} (h : c ≠ d) (u v : Bytes) :
    Incomparable (c :: u) (d :: v) := by
  simp [Incomparable, cons_prefix_cons, h, h.symm]

/-- **What the two scanners have read** when they get to the first wildcard. -/
theorem scan_spec {pattern : Bytes} {toks : List LikeToken} (h : tokens pattern = some toks) :
    ∃ literals rest, toks = literals.map .literal ++ rest ∧
      tokens (scan pattern).2 = some rest ∧
      (unknownEscape pattern = false → literals = (scan pattern).1) ∧
      (unknownEscape pattern = true → Incomparable literals (scan pattern).1) := by
  induction pattern using pattern_induction generalizing toks with
  | nil => exact ⟨[], toks, rfl, h, fun _ => rfl, nofun⟩
  | wildcard c rest hc =>
    rw [scan_wildcard hc, unknownEscape_wildcard hc]
    exact ⟨[], toks, rfl, h, fun _ => rfl, nofun⟩
  | dangling => simp at h
  | escape d rest ih =>
    rw [scan_escape, unknownEscape_escape]
    by_cases hd : Escapable d
    · rw [tokens_escape hd, map_eq_some_iff] at h
      obtain ⟨toks', htoks', rfl⟩ := h
      obtain ⟨literals, rest', rfl, hrest', hsame, hdiffer⟩ := ih htoks'
      refine ⟨d :: literals, rest', rfl, hrest', ?_, ?_⟩
      · intro hknown
        rw [hsame (by simpa [hd] using hknown)]
      · intro hunknown
        exact (hdiffer (by simpa [hd] using hunknown)).cons d
    · -- here they part: the backslash on one side, the character on the other
      have hbackslash : ch '\\' ≠ d := fun h => hd (.inr (.inr h.symm))
      rw [tokens_unknown hd, tokens_literal hd, Option.map_map, map_eq_some_iff] at h
      obtain ⟨toks', htoks', rfl⟩ := h
      obtain ⟨literals, rest', rfl, hrest', -, -⟩ := ih htoks'
      refine ⟨ch '\\' :: d :: literals, rest', rfl, hrest', ?_, ?_⟩
      · intro hknown
        simp [hd] at hknown
      · intro _
        exact incomparable_of_ne hbackslash _ _
  | literal c rest hc ih =>
    rw [tokens_literal hc, map_eq_some_iff] at h
    obtain ⟨toks', htoks', rfl⟩ := h
    obtain ⟨literals, rest', rfl, hrest', hsame, hdiffer⟩ := ih htoks'
    rw [scan_literal hc, unknownEscape_literal hc]
    refine ⟨c :: literals, rest', rfl, hrest', ?_, ?_⟩
    · intro hknown
      rw [hsame hknown]
    · intro hunknown
      exact (hdiffer hunknown).cons c

/-! ## What the tokens of a pattern match -/

lemma items_literals (literals : Bytes) (rest : List LikeToken) :
    items (literals.map .literal ++ rest) = literals.map .literal ++ items rest := by
  induction literals with
  | nil => rfl
  | cons c literals ih =>
    rw [map_cons, cons_append, map_cons, cons_append, ← ih]
    cases literals.map LikeToken.literal ++ rest <;> rfl

lemma open_items (toks : List LikeToken) : Open (items toks) := by
  fun_induction items toks with
  | case1 => rfl
  | case2 => trivial
  | case3 toks _ ih => exact ih
  | case4 toks ih => exact ih
  | case5 c toks ih => exact ih

lemma tokens_percents {w : Bytes} (h : ∀ c ∈ w, c = ch '%') :
    tokens w = some (replicate w.length .percent) := by
  induction w with
  | nil => rfl
  | cons c w ih =>
    rw [h c mem_cons_self, tokens_percent, ih fun d hd => h d (mem_cons_of_mem c hd)]
    rfl

/-- Without the last `%`, which is left out together with the anchor. -/
lemma items_percents (n : ℕ) :
    items (replicate (n + 1) .percent) = replicate n .anyStar := by
  induction n with
  | zero => rfl
  | succ n ih =>
    rw [replicate_succ, replicate_succ (n := n) (a := Item.anyStar), ← ih]
    rfl

lemma tokens_of_perfectShape {pattern : Bytes} (h : PerfectShape pattern) :
    ∃ toks, tokens pattern = some toks := by
  induction pattern using pattern_induction with
  | nil => exact ⟨[], rfl⟩
  | wildcard c rest hc =>
    rw [PerfectShape, scan_wildcard hc] at h
    exact ⟨_, tokens_percents h.2⟩
  | dangling => exact absurd rfl h.1
  | escape d rest ih =>
    obtain ⟨toks, htoks⟩ := ih ((perfectShape_congr (by rw [scan_escape])).1 h)
    by_cases hd : Escapable d
    · exact ⟨_, by rw [tokens_escape hd, htoks, map_some]⟩
    · exact ⟨_, by rw [tokens_unknown hd, tokens_literal hd, htoks, map_some, map_some]⟩
  | literal c rest hc ih =>
    obtain ⟨toks, htoks⟩ := ih ((perfectShape_congr (by rw [scan_literal hc])).1 h)
    exact ⟨_, by rw [tokens_literal hc, htoks, map_some]⟩

section

variable {E : Encoding} {pattern text : Bytes}

variable (hhead : pattern.head? ≠ some (ch '%'))

include hhead in
/-- A pattern that starts with literals matches what starts with them and goes on with
a match of the rest. -/
lemma likeMatches_literals {literals : Bytes} {rest : List LikeToken}
    (htoks : tokens pattern = some (literals.map .literal ++ rest)) :
    LikeMatches E pattern text ↔
      ∃ u, text = literals ++ u ∧ Matches E.dot (items rest) literals u := by
  rw [likeMatches_iff hhead, htoks]
  simp only [some.injEq, exists_eq_left', items_literals, matches_literals, nil_append]

/-- A pattern that starts with `%` has the empty prefix. -/
lemma scan_of_head (hhead : pattern.head? = some (ch '%')) :
    scan pattern = ([], pattern) ∧ unknownEscape pattern = false := by
  obtain ⟨rest, rfl⟩ : ∃ rest, pattern = ch '%' :: rest := by
    cases pattern with
    | nil => simp at hhead
    | cons c rest => exact ⟨rest, by rw [some.inj hhead]⟩
  exact ⟨scan_wildcard (.inl rfl) rest, unknownEscape_wildcard (.inl rfl) rest⟩

lemma head_of_unknown (hunknown : unknownEscape pattern = true) :
    pattern.head? ≠ some (ch '%') := by
  intro hhead
  rw [(scan_of_head hhead).2] at hunknown
  exact Bool.false_ne_true hunknown

/-- Every match starts with the prefix, if that has no unknown escape sequence in it. -/
lemma starts_with_of_known (hknown : unknownEscape pattern = false)
    (h : LikeMatches E pattern text) : (scan pattern).1 <+: text := by
  by_cases hhead : pattern.head? = some (ch '%')
  · rw [(scan_of_head hhead).1]
    exact nil_prefix
  · obtain ⟨toks, htoks, -⟩ := (likeMatches_iff hhead).1 h
    obtain ⟨literals, rest, rfl, -, hsame, -⟩ := scan_spec htoks
    obtain ⟨u, rfl, -⟩ := (likeMatches_literals hhead htoks).1 h
    rw [← hsame hknown]
    exact prefix_append literals u

/-- What starts with a perfect prefix is a match, if it has no unknown escape sequence
in it. -/
lemma likeMatches_of_perfectShape (hknown : unknownEscape pattern = false)
    (hshape : PerfectShape pattern) (h : (scan pattern).1 <+: text) :
    LikeMatches E pattern text := by
  by_cases hhead : pattern.head? = some (ch '%')
  · -- all of the pattern is `%`, of which the translation leaves a `$`
    rw [PerfectShape, (scan_of_head hhead).1] at hshape
    obtain ⟨hne, hall⟩ := hshape
    cases pattern with
    | nil => exact absurd rfl hne
    | cons c rest =>
      have hdrop : rest.dropWhile (· == ch '%') = [] := by
        rw [dropWhile_eq_nil_iff]
        intro d hd
        exact beq_iff_eq.2 (hall d (mem_cons_of_mem c hd))
      rw [hall c mem_cons_self, likeMatches_percent, hdrop]
      exact ⟨[], rfl, search_endText text⟩
  · obtain ⟨toks, htoks⟩ := tokens_of_perfectShape hshape
    obtain ⟨literals, rest, rfl, hrest, hsame, -⟩ := scan_spec htoks
    rw [← hsame hknown] at h
    obtain ⟨u, rfl⟩ := h
    rw [likeMatches_literals hhead htoks]
    refine ⟨u, rfl, ?_⟩
    rw [tokens_percents hshape.2, some.injEq] at hrest
    obtain ⟨n, hn⟩ := Nat.exists_eq_succ_of_ne_zero (length_eq_zero_iff.not.2 hshape.1)
    rw [← hrest, hn, items_percents]
    exact matches_replicate_anyStar n literals u

/-- With an unknown escape sequence in the prefix, a match does not start with it. -/
lemma not_starts_with_of_unknown (hunknown : unknownEscape pattern = true)
    (h : LikeMatches E pattern text) : ¬ (scan pattern).1 <+: text := by
  have hhead := head_of_unknown hunknown
  obtain ⟨toks, htoks, -⟩ := (likeMatches_iff hhead).1 h
  obtain ⟨literals, rest, rfl, -, -, hdiffer⟩ := scan_spec htoks
  obtain ⟨u, rfl, -⟩ := (likeMatches_literals hhead htoks).1 h
  intro hprefix
  obtain ⟨hnot, hnot'⟩ := hdiffer hunknown
  rcases prefix_or_prefix_of_prefix hprefix (prefix_append literals u) with hle | hle
  · exact hnot' hle
  · exact hnot hle

include hhead in
/-- Every pattern that is translated and does not start with `%` has a match. -/
lemma exists_likeMatches
    (hdangling : danglingEscape pattern = false) : ∃ text, LikeMatches E pattern text := by
  obtain ⟨toks, htoks⟩ : ∃ toks, tokens pattern = some toks := by
    rw [← ne_none_iff_exists']
    intro hnone
    rw [(tokens_eq_none_iff pattern).1 hnone] at hdangling
    exact Bool.false_ne_true hdangling.symm
  obtain ⟨text, htext⟩ := exists_matches E.exists_dot (items toks) (open_items toks) []
  exact ⟨text, (likeMatches_iff hhead).2 ⟨toks, htoks, htext⟩⟩

include hhead in
lemma not_likeMatches_of_dangling
    (hdangling : danglingEscape pattern = true) : ¬ LikeMatches E pattern text := by
  intro h
  obtain ⟨toks, htoks, -⟩ := (likeMatches_iff hhead).1 h
  rw [(tokens_eq_none_iff pattern).2 hdangling] at htoks
  exact nomatch htoks

end

/-! ## LIKE and its atoms -/

section Agreement

variable (E : Encoding) (pattern : Bytes)

/-- The prefix agrees with LIKE: every match starts with it, and if it is perfect,
what starts with it is a match. -/
structure PrefixAgrees (requires_perfect : Bool) : Prop where
  starts_with : ∀ text, LikeMatches E pattern text →
    (extractFixedPrefixFromLikePattern pattern requires_perfect).1 <+: text
  perfect : (extractFixedPrefixFromLikePattern pattern requires_perfect).2 = true →
    ∀ text, LikeMatches E pattern text ↔
      (extractFixedPrefixFromLikePattern pattern requires_perfect).1 <+: text

/-- The range of a `like` atom has every match in it, and, unless the atom is relaxed,
nothing else. -/
def LikeAtomSound : Prop :=
  ∀ element, AtomMap.like {} (.value pattern) = some element →
    element.function = .FUNCTION_IN_RANGE ∧
    (∀ text, LikeMatches E pattern text → element.range.Mem (.value text)) ∧
    (element.relaxed = false → ∀ text, element.range.Mem (.value text) →
      LikeMatches E pattern text)

/-- A `notLike` atom is true of what does not match. -/
def NotLikeAtomSound : Prop :=
  ∀ element, AtomMap.notLike {} (.value pattern) = some element →
    element.function = .FUNCTION_NOT_IN_RANGE ∧
    ∀ text, ¬ element.range.Mem (.value text) ↔ ¬ LikeMatches E pattern text

end Agreement

variable {E : Encoding} {pattern : Bytes}

lemma not_dangling_of_perfectShape (hshape : PerfectShape pattern) :
    danglingEscape pattern = false := by
  obtain ⟨toks, htoks⟩ := tokens_of_perfectShape hshape
  rw [Bool.eq_false_iff, Ne, ← tokens_eq_none_iff, htoks]
  simp

/-- The prefix goes wrong only at a backslash before a character that needs no escape. -/
lemma prefixAgrees_iff :
    PrefixAgrees E pattern requires_perfect ↔
      danglingEscape pattern = true ∨ unknownEscape pattern = false ∨
        (requires_perfect = true ∧ ¬ PerfectShape pattern) := by
  have hextract := extractFixedPrefixFromLikePattern_eq requires_perfect pattern
  by_cases hnone : requires_perfect = true ∧ ¬ PerfectShape pattern
  · -- the empty prefix
    have hfound : extractFixedPrefixFromLikePattern pattern requires_perfect = ([], false) := by
      rw [hextract]
      simp [prefixFound, hnone]
    have hagrees : PrefixAgrees E pattern requires_perfect := by
      constructor
      · intro text _
        rw [hfound]
        exact nil_prefix
      · rw [hfound]
        exact nofun
    exact ⟨fun _ => .inr (.inr hnone), fun _ => hagrees⟩
  · have hfound : extractFixedPrefixFromLikePattern pattern requires_perfect =
        ((scan pattern).1, decide (PerfectShape pattern)) := by
      rw [hextract]
      cases requires_perfect with
      | false => rfl
      | true => simp_all [prefixFound]
    simp only [hnone, or_false]
    constructor
    · intro hagrees
      by_contra hnot
      obtain ⟨hdangling, hunknown⟩ : danglingEscape pattern = false ∧
        unknownEscape pattern = true := by simpa using hnot
      -- a text that matches shows the difference
      obtain ⟨text, htext⟩ := exists_likeMatches (E := E) (head_of_unknown hunknown) hdangling
      have hstarts := hagrees.starts_with text htext
      rw [hfound] at hstarts
      exact not_starts_with_of_unknown hunknown htext hstarts
    · intro h
      -- without an unknown escape both scanners read the same
      by_cases hknown : unknownEscape pattern = false
      · constructor
        · intro text htext
          rw [hfound]
          exact starts_with_of_known hknown htext
        · rw [hfound]
          intro hshape text
          exact ⟨starts_with_of_known hknown,
            likeMatches_of_perfectShape hknown (of_decide_eq_true hshape)⟩
      · -- the pattern is refused, so that no text matches it
        have hdangling : danglingEscape pattern = true := h.resolve_right hknown
        have hhead := head_of_unknown (Bool.eq_true_of_not_eq_false hknown)
        constructor
        · intro text htext
          exact absurd htext (not_likeMatches_of_dangling hhead hdangling)
        · rw [hfound]
          intro hshape
          have hnot := not_dangling_of_perfectShape (of_decide_eq_true hshape)
          exact absurd hdangling (by simp [hnot])

/-- The element of the `like` atom. -/
lemma like_eq :
    AtomMap.like {} (.value pattern) =
      if (scan pattern).1 = [] then none
      else some { relaxed := !decide (PerfectShape pattern), function := .FUNCTION_IN_RANGE,
                  range := prefixRange (scan pattern).1 } := by
  simp only [AtomMap.like, extractFixedPrefixFromLikePattern_eq, prefixFound, List.isEmpty_iff]
  cases decide (PerfectShape pattern) <;> rfl

/-- The element of the `notLike` atom. -/
lemma notLike_eq :
    AtomMap.notLike {} (.value pattern) =
      if PerfectShape pattern ∧ (scan pattern).1 ≠ [] then
        some { function := .FUNCTION_NOT_IN_RANGE, range := prefixRange (scan pattern).1 }
      else none := by
  simp only [AtomMap.notLike, extractFixedPrefixFromLikePattern_eq, prefixFound]
  by_cases hshape : PerfectShape pattern <;> by_cases hnil : (scan pattern).1 = [] <;>
    simp [hshape, hnil]

/-- With an unknown escape sequence in it, the prefix is not empty, and some match does
not start with it. -/
lemma exists_not_starts_with (E : Encoding) (hunknown : unknownEscape pattern = true)
    (hdangling : danglingEscape pattern = false) :
    (scan pattern).1 ≠ [] ∧ ∃ text, LikeMatches E pattern text ∧ ¬ (scan pattern).1 <+: text := by
  obtain ⟨text, htext⟩ := exists_likeMatches (E := E) (head_of_unknown hunknown) hdangling
  have hnot := not_starts_with_of_unknown hunknown htext
  refine ⟨?_, text, htext, hnot⟩
  intro hnil
  rw [hnil] at hnot
  exact hnot nil_prefix

lemma likeAtomSound_iff :
    LikeAtomSound E pattern ↔
      danglingEscape pattern = true ∨ unknownEscape pattern = false := by
  constructor
  · intro hsound
    by_contra hnot
    obtain ⟨hdangling, hunknown⟩ : danglingEscape pattern = false ∧
      unknownEscape pattern = true := by simpa using hnot
    -- a text that matches and does not have the prefix
    obtain ⟨hnil, text, htext, hstarts⟩ := exists_not_starts_with E hunknown hdangling
    obtain ⟨-, hmem, -⟩ := hsound _ (by rw [like_eq, if_neg hnil])
    exact hstarts (mem_prefixRange.1 (hmem text htext))
  · intro h element helement
    have hagrees : PrefixAgrees E pattern false := (prefixAgrees_iff false).2 (by tauto)
    obtain ⟨hstarts, hperfect⟩ := hagrees
    rw [extractFixedPrefixFromLikePattern_eq] at hstarts hperfect
    rw [like_eq, ite_none_left_eq_some, some.injEq] at helement
    obtain ⟨-, rfl⟩ := helement
    refine ⟨rfl, fun text htext => mem_prefixRange.2 (hstarts text htext), ?_⟩
    intro hrelaxed text hmem
    have hshape : decide (PerfectShape pattern) = true := by simpa using hrelaxed
    exact (hperfect hshape text).2 (mem_prefixRange.1 hmem)

lemma notLikeAtomSound_iff :
    NotLikeAtomSound E pattern ↔ unknownEscape pattern = false ∨ ¬ PerfectShape pattern := by
  constructor
  · intro hsound
    by_contra hnot
    obtain ⟨hunknown, hshape⟩ : unknownEscape pattern = true ∧ PerfectShape pattern := by
      simpa using hnot
    obtain ⟨hnil, text, htext, hstarts⟩ :=
      exists_not_starts_with E hunknown (not_dangling_of_perfectShape hshape)
    obtain ⟨-, hmem⟩ := hsound _ (by rw [notLike_eq, if_pos ⟨hshape, hnil⟩])
    exact (hmem text).1 (fun h => hstarts (mem_prefixRange.1 h)) htext
  · intro h element helement
    rw [notLike_eq, ite_none_right_eq_some, some.injEq] at helement
    obtain ⟨⟨hshape, -⟩, rfl⟩ := helement
    have hknown : unknownEscape pattern = false := h.resolve_right (not_not_intro hshape)
    refine ⟨rfl, fun text => not_congr ?_⟩
    rw [mem_prefixRange]
    exact ⟨likeMatches_of_perfectShape hknown hshape, starts_with_of_known hknown⟩

/-- **The prefix of a pattern agrees with LIKE**, and so do the atoms that are made of
it, exactly if the pattern is not translated at all, or there is no unknown escape
sequence before its first wildcard. A perfect prefix that is required and does not exist
does no harm either. -/
theorem likePrefix_agrees_iff (E : Encoding) (pattern : Bytes) :
    (∀ requires_perfect, PrefixAgrees E pattern requires_perfect ↔
      danglingEscape pattern = true ∨ unknownEscape pattern = false ∨
        (requires_perfect = true ∧ ¬ PerfectShape pattern)) ∧
    (LikeAtomSound E pattern ↔
      danglingEscape pattern = true ∨ unknownEscape pattern = false) ∧
    (NotLikeAtomSound E pattern ↔
      unknownEscape pattern = false ∨ ¬ PerfectShape pattern) :=
  ⟨fun requires_perfect => prefixAgrees_iff requires_perfect, likeAtomSound_iff,
    notLikeAtomSound_iff⟩

/-- The pattern `\d%` matches `\d` and not `d`, and its prefix is `d`. -/
theorem extractFixedPrefix_drops_backslash :
    LikeMatches Encoding.latin1 [ch '\\', ch 'd', ch '%'] [ch '\\', ch 'd'] ∧
    ¬ LikeMatches Encoding.latin1 [ch '\\', ch 'd', ch '%'] [ch 'd'] ∧
    extractFixedPrefixFromLikePattern [ch '\\', ch 'd', ch '%'] false = ([ch 'd'], true) ∧
    extractFixedPrefixFromLikePattern [ch '\\', ch 'd', ch '%'] true = ([ch 'd'], true) ∧
    ¬ [ch 'd'] <+: [ch '\\', ch 'd'] := by
  have hhead : [ch '\\', ch 'd', ch '%'].head? ≠ some (ch '%') := by decide
  have htoks : tokens [ch '\\', ch 'd', ch '%'] =
      some ([ch '\\', ch 'd'].map .literal ++ [.percent]) := by decide
  refine ⟨?_, ?_, by decide, by decide, by decide⟩
  · exact (likeMatches_literals hhead htoks).2 ⟨[], rfl, trivial⟩
  · intro h
    obtain ⟨u, hu, -⟩ := (likeMatches_literals hhead htoks).1 h
    exact absurd (cons.inj hu).1 (by decide)

end ClickHouse
