/-
The translation of LIKE patterns to regular expressions
(`src/Common/likePatternToRegexp.cpp`), as a compiler: its source language is the
patterns, its target language the texts of re2.

`likePatternToRegexp` is the code, from text to text. Its meaning goes through re2, of
which `parse` reads the part of the syntax that the translation writes, and
`Lib.Regexp` says what is then matched. re2 reads a text as UTF-8, or as Latin-1 if
the expression is no UTF-8: all that differs is what one `.` consumes, and `Encoding`
is that.

A pattern is a list of tokens (`tokens`), or nothing if it ends inside an escape. The
translation writes one token after the other (`likePatternLoop_eq`), and what it
writes is read back as the items of the tokens (`parse_render`). Together this is what
a pattern matches: `likeMatches_iff` for one that does not start with `%`, and
`likeMatches_percent` for one that does, whose leading `%` are dropped together with
the anchor.
-/
import ClickHouse.Core.Types
import ClickHouse.Lib.Regexp

set_option autoImplicit false

namespace ClickHouse

open Lib.Regexp List Option

/-! ## The translation -/

/-- Quote characters which have a special meaning in re2. -/
def quotedChars : List UInt8 :=
  ['^', '$', '.', '[', '|', '(', ')', '?', '*', '+', '\x7b'].map ch

/-- The main loop of `likePatternToRegexp`: the bytes from `pos` on, and `res`. -/
def likePatternLoop (pattern : Bytes) : Bytes → Bytes → Eval Bytes
  | [], res => .ok (res ++ [ch '$'])
  | c :: rest, res =>
    if c ∈ quotedChars then likePatternLoop pattern rest (res ++ [ch '\\', c])
    else if c = ch '%' then
      if rest.isEmpty then .ok res else likePatternLoop pattern rest (res ++ [ch '.', ch '*'])
    else if c = ch '_' then likePatternLoop pattern rest (res ++ [ch '.'])
    else if c = ch '\\' then
      match rest with
      | [] => throwException .CANNOT_PARSE_ESCAPE_SEQUENCE
          (str "Invalid escape sequence at the end of LIKE pattern '" ++ pattern ++ str "'")
      | d :: rest' =>
        if d = ch '%' ∨ d = ch '_' then likePatternLoop pattern rest' (res ++ [d])
        else if d = ch '\\' then likePatternLoop pattern rest' (res ++ [ch '\\', ch '\\'])
        -- unknown escape sequence: a backslash, and the character comes next on its own
        else likePatternLoop pattern (d :: rest') (res ++ [ch '\\', ch '\\'])
    else likePatternLoop pattern rest (res ++ [c])

/-- `likePatternToRegexp`. A `%` at an end of the pattern drops the anchor of that end. -/
def likePatternToRegexp (pattern : Bytes) : Eval Bytes :=
  match pattern with
  | [] => likePatternLoop pattern [] [ch '^']
  | c :: rest =>
    -- eat leading %
    if c = ch '%' then likePatternLoop pattern (rest.dropWhile (· == ch '%')) []
    else likePatternLoop pattern pattern [ch '^']

/-! ## The part of re2 that it uses -/

/-- What one `.` consumes: a UTF-8 character, or a byte. -/
structure Encoding where
  dot : Bytes → Prop
  exists_dot : ∃ w, dot w

/-- Each byte is a character. -/
def Encoding.latin1 : Encoding := ⟨fun w => ∃ c, w = [c], [0], 0, rfl⟩

/-- The syntax of re2, as far as texts have no groups, classes, alternatives, and no
repetition other than `.*`. -/
def parse : Bytes → Option (List (Item UInt8))
  | [] => some []
  | c :: rest =>
    if c = ch '\\' then
      match rest with
      | [] => none
      | d :: rest' =>
        if d ∈ quotedChars ∨ d = ch '\\' then (parse rest').map (.literal d :: ·) else none
    else if c = ch '^' then (parse rest).map (.beginText :: ·)
    else if c = ch '$' then (parse rest).map (.endText :: ·)
    else if c = ch '.' then
      match rest with
      | [] => some [.any]
      | d :: rest' =>
        if d = ch '*' then (parse rest').map (.anyStar :: ·)
        else (parse (d :: rest')).map (.any :: ·)
    else if c ∈ quotedChars then none
    else (parse rest).map (.literal c :: ·)

/-- The text matches the pattern, as translated. -/
def LikeMatches (E : Encoding) (pattern text : Bytes) : Prop :=
  ∃ regexp items, likePatternToRegexp pattern = .ok regexp ∧ parse regexp = some items ∧
    Search E.dot items text

/-! ## Patterns as tokens -/

/-- What a LIKE pattern is made of. -/
inductive LikeToken where
  | percent
  | underscore
  | literal (c : UInt8)
  deriving DecidableEq, Repr

/-- A backslash makes the next character a literal if it is one of `%`, `_` and the
backslash, and is a literal itself otherwise. -/
def tokens : Bytes → Option (List LikeToken)
  | [] => some []
  | c :: rest =>
    if c = ch '%' then (tokens rest).map (.percent :: ·)
    else if c = ch '_' then (tokens rest).map (.underscore :: ·)
    else if c = ch '\\' then
      match rest with
      | [] => none
      | d :: rest' =>
        if d = ch '%' ∨ d = ch '_' ∨ d = ch '\\' then (tokens rest').map (.literal d :: ·)
        else (tokens (d :: rest')).map (.literal c :: ·)
    else (tokens rest).map (.literal c :: ·)

/-- The pattern ends inside an escape sequence. -/
def danglingEscape : Bytes → Bool
  | [] => false
  | c :: rest =>
    if c = ch '\\' then
      match rest with
      | [] => true
      | _ :: rest' => danglingEscape rest'
    else danglingEscape rest

/-- The text of one literal. -/
def quote (c : UInt8) : Bytes :=
  if c ∈ quotedChars ∨ c = ch '\\' then [ch '\\', c] else [c]

/-- The text of the tokens. A `%` at the end is left out together with the anchor. -/
def render : List LikeToken → Bytes
  | [] => [ch '$']
  | [.percent] => []
  | .percent :: toks => [ch '.', ch '*'] ++ render toks
  | .underscore :: toks => ch '.' :: render toks
  | .literal c :: toks => quote c ++ render toks

/-- What the loop makes of the tokens that are left. -/
def writeTokens (pattern res : Bytes) : Option (List LikeToken) → Eval Bytes
  | none => throwException .CANNOT_PARSE_ESCAPE_SEQUENCE
      (str "Invalid escape sequence at the end of LIKE pattern '" ++ pattern ++ str "'")
  | some toks => .ok (res ++ render toks)

/-- The items of the tokens. -/
def items : List LikeToken → List (Item UInt8)
  | [] => [.endText]
  | [.percent] => []
  | .percent :: toks => .anyStar :: items toks
  | .underscore :: toks => .any :: items toks
  | .literal c :: toks => .literal c :: items toks

/-! ## The translation writes the tokens -/

@[simp] lemma tokens_nil : tokens [] = some [] := rfl

@[simp] lemma tokens_percent (rest : Bytes) :
    tokens (ch '%' :: rest) = (tokens rest).map (.percent :: ·) := by
  rw [tokens.eq_def]
  simp

@[simp] lemma tokens_underscore (rest : Bytes) :
    tokens (ch '_' :: rest) = (tokens rest).map (.underscore :: ·) := by
  rw [tokens.eq_def]
  simp [show ch '_' ≠ ch '%' by decide]

@[simp] lemma tokens_dangling : tokens [ch '\\'] = none := by decide

/-- One of the characters that a backslash makes a literal. -/
def Escapable (c : UInt8) : Prop := c = ch '%' ∨ c = ch '_' ∨ c = ch '\\'

instance (c : UInt8) : Decidable (Escapable c) := inferInstanceAs (Decidable (_ ∨ _ ∨ _))

lemma tokens_escape {d : UInt8} (hd : Escapable d) (rest : Bytes) :
    tokens (ch '\\' :: d :: rest) = (tokens rest).map (.literal d :: ·) := by
  rw [tokens.eq_def]
  simp [show ch '\\' ≠ ch '%' by decide, show ch '\\' ≠ ch '_' by decide,
    show d = ch '%' ∨ d = ch '_' ∨ d = ch '\\' from hd]

lemma tokens_unknown {d : UInt8} (hd : ¬ Escapable d) (rest : Bytes) :
    tokens (ch '\\' :: d :: rest) = (tokens (d :: rest)).map (.literal (ch '\\') :: ·) := by
  rw [tokens.eq_def]
  simp [show ch '\\' ≠ ch '%' by decide, show ch '\\' ≠ ch '_' by decide,
    show ¬ (d = ch '%' ∨ d = ch '_' ∨ d = ch '\\') from hd]

variable {c : UInt8}

lemma tokens_literal (hc : ¬ Escapable c) (rest : Bytes) :
    tokens (c :: rest) = (tokens rest).map (.literal c :: ·) := by
  obtain ⟨hpercent, hunderscore, hbackslash⟩ : c ≠ ch '%' ∧ c ≠ ch '_' ∧ c ≠ ch '\\' := by
    simpa [Escapable] using hc
  rw [tokens.eq_def]
  simp [hpercent, hunderscore, hbackslash]

lemma tokens_ne_nil (c : UInt8) (rest : Bytes) : tokens (c :: rest) ≠ some [] := by
  rw [tokens.eq_def]
  dsimp only
  split_ifs <;> try simp
  split <;> try simp
  split_ifs <;> simp

lemma render_literal (c : UInt8) (toks : List LikeToken) :
    render (.literal c :: toks) = quote c ++ render toks := by
  cases toks <;> rfl

variable (toks : List LikeToken)

lemma render_underscore : render (.underscore :: toks) = ch '.' :: render toks := by
  cases toks <;> rfl

lemma render_percent {toks : List LikeToken} (h : toks ≠ []) :
    render (.percent :: toks) = [ch '.', ch '*'] ++ render toks := by
  cases toks with
  | nil => exact absurd rfl h
  | cons t toks => rfl

lemma quote_of_mem (hc : c ∈ quotedChars ∨ c = ch '\\') : quote c = [ch '\\', c] := if_pos hc

lemma quote_of_not_mem (hc : c ∉ quotedChars) (h : c ≠ ch '\\') : quote c = [c] :=
  if_neg (by simp [hc, h])

lemma not_escapable_of_quoted (hc : c ∈ quotedChars) : ¬ Escapable c := by
  rintro (rfl | rfl | rfl) <;> exact absurd hc (by decide)

variable (pattern res : Bytes)

lemma writeTokens_literal (c : UInt8) (toks : Option (List LikeToken)) :
    writeTokens pattern res (toks.map (.literal c :: ·)) =
      writeTokens pattern (res ++ quote c) toks := by
  cases toks with
  | none => rfl
  | some toks => simp [writeTokens, render_literal]

lemma writeTokens_underscore (toks : Option (List LikeToken)) :
    writeTokens pattern res (toks.map (.underscore :: ·)) =
      writeTokens pattern (res ++ [ch '.']) toks := by
  cases toks with
  | none => rfl
  | some toks => simp [writeTokens, render_underscore]

lemma writeTokens_percent {toks : Option (List LikeToken)} (h : toks ≠ some []) :
    writeTokens pattern res (toks.map (.percent :: ·)) =
      writeTokens pattern (res ++ [ch '.', ch '*']) toks := by
  cases toks with
  | none => rfl
  | some toks =>
    have hne : toks ≠ [] := fun hnil => h (by rw [hnil])
    simp [writeTokens, render_percent hne]

/-- **The loop writes one token after the other**, and throws where there are none. -/
theorem likePatternLoop_eq (pattern pos res : Bytes) :
    likePatternLoop pattern pos res = writeTokens pattern res (tokens pos) := by
  fun_induction likePatternLoop pattern pos res with
  | case1 res => rfl
  | case2 c rest res hquoted ih =>
    -- a character that means something in a regular expression is quoted
    rw [ih, tokens_literal (not_escapable_of_quoted hquoted), writeTokens_literal,
      quote_of_mem (.inl hquoted)]
  | case3 rest res hempty =>
    obtain rfl := List.isEmpty_iff.1 hempty
    simp [writeTokens, render]
  | case4 rest res hempty _ ih =>
    -- a percent sign that is not the last character
    have hne : tokens rest ≠ some [] := by
      cases rest with
      | nil => exact absurd rfl hempty
      | cons c rest => exact tokens_ne_nil c rest
    rw [ih, tokens_percent, writeTokens_percent pattern res hne]
  | case5 rest res _ _ ih => rw [ih, tokens_underscore, writeTokens_underscore]
  | case6 res =>
    rfl
  | case7 res d rest' hd _ _ _ ih =>
    -- an escaped wildcard stands for itself
    have hquote : quote d = [d] := by
      rcases hd with rfl | rfl <;> decide
    have hescapable : Escapable d := by
      tauto
    rw [ih, tokens_escape hescapable, writeTokens_literal, hquote]
  | case8 res rest' _ _ _ _ ih =>
    rw [ih, tokens_escape (.inr (.inr rfl)), writeTokens_literal, quote_of_mem (.inr rfl)]
  | case9 res d rest' hd hbackslash _ _ _ ih =>
    -- an unknown escape sequence keeps its backslash
    have hescapable : ¬ Escapable d := by
      unfold Escapable
      tauto
    rw [ih, tokens_unknown hescapable, writeTokens_literal, quote_of_mem (.inr rfl)]
  | case10 c rest res hquoted hpercent hunderscore hbackslash ih =>
    have hescapable : ¬ Escapable c := by
      unfold Escapable
      tauto
    rw [ih, tokens_literal hescapable, writeTokens_literal, quote_of_not_mem hquoted hbackslash]

/-! ## re2 reads them back -/

lemma parse_quote (c : UInt8) (rest : Bytes) :
    parse (quote c ++ rest) = (parse rest).map (.literal c :: ·) := by
  by_cases hc : c ∈ quotedChars ∨ c = ch '\\'
  · rw [quote_of_mem hc, cons_append, cons_append, nil_append, parse.eq_def]
    simp [hc]
  · obtain ⟨hquoted, hbackslash⟩ := not_or.1 hc
    have hne : ∀ d ∈ quotedChars, c ≠ d := fun d hd h => hquoted (h ▸ hd)
    rw [quote_of_not_mem hquoted hbackslash, cons_append, nil_append, parse.eq_def]
    simp [hbackslash, hquoted, hne (ch '^') (by decide), hne (ch '$') (by decide),
      hne (ch '.') (by decide)]

lemma dot_ne : ch '.' ≠ ch '\\' ∧ ch '.' ≠ ch '^' ∧ ch '.' ≠ ch '$' := by decide

lemma parse_dot {rest : Bytes} (h : rest.head? ≠ some (ch '*')) :
    parse (ch '.' :: rest) = (parse rest).map (.any :: ·) := by
  rw [parse.eq_def]
  cases rest with
  | nil => simp [dot_ne, parse]
  | cons d rest =>
    have hd : d ≠ ch '*' := by simpa using h
    simp [dot_ne, hd]

variable (rest : Bytes)

lemma parse_dot_star :
    parse (ch '.' :: ch '*' :: rest) = (parse rest).map (.anyStar :: ·) := by
  rw [parse.eq_def]
  simp [dot_ne]

lemma parse_circumflex :
    parse (ch '^' :: rest) = (parse rest).map (.beginText :: ·) := by
  rw [parse.eq_def]
  simp [show ch '^' ≠ ch '\\' by decide]

/-- A star is written only behind a dot. -/
lemma head?_render : (render toks).head? ≠ some (ch '*') := by
  fun_induction render toks with
  | case1 => decide
  | case2 => simp
  | case3 toks => simp [show ch '.' ≠ ch '*' by decide]
  | case4 toks => simp [show ch '.' ≠ ch '*' by decide]
  | case5 c toks =>
    unfold quote
    split_ifs with hc
    · simp [show ch '\\' ≠ ch '*' by decide]
    · intro hstar
      obtain rfl := some.inj hstar
      exact hc (.inl (by decide))

/-- **What is written is read back** as the items of the tokens. -/
theorem parse_render : parse (render toks) = some (items toks) := by
  fun_induction render toks with
  | case1 => decide
  | case2 => rfl
  | case3 toks hne ih =>
    have hitems : items (.percent :: toks) = .anyStar :: items toks := by
      cases toks with
      | nil => exact absurd rfl hne
      | cons t toks => rfl
    rw [cons_append, cons_append, nil_append, parse_dot_star, ih, hitems, map_some]
  | case4 toks ih =>
    rw [parse_dot (head?_render toks), ih, map_some]
    cases toks <;> rfl
  | case5 c toks ih =>
    rw [parse_quote, ih, map_some]
    cases toks <;> rfl

/-! ## What a pattern matches -/

lemma danglingEscape_of_ne (hc : c ≠ ch '\\') (rest : Bytes) :
    danglingEscape (c :: rest) = danglingEscape rest := by
  rw [danglingEscape.eq_def]
  simp [hc]

lemma danglingEscape_escape (d : UInt8) (rest : Bytes) :
    danglingEscape (ch '\\' :: d :: rest) = danglingEscape rest := by
  rw [danglingEscape.eq_def]
  simp

/-- A pattern has no tokens, and is not translated, exactly if it ends inside an escape
sequence. -/
lemma tokens_eq_none_iff :
    tokens pattern = none ↔ danglingEscape pattern = true := by
  fun_induction tokens pattern with
  | case1 => simp [danglingEscape]
  | case2 rest ih => rw [map_eq_none_iff, ih, danglingEscape_of_ne (by decide)]
  | case3 rest _ ih => rw [map_eq_none_iff, ih, danglingEscape_of_ne (by decide)]
  | case4 => decide
  | case5 d rest' hd _ _ ih => rw [map_eq_none_iff, ih, danglingEscape_escape]
  | case6 d rest' hd _ _ ih =>
    rw [map_eq_none_iff, ih, danglingEscape_escape, danglingEscape_of_ne (by tauto)]
  | case7 c rest _ _ hbackslash ih =>
    rw [map_eq_none_iff, ih, danglingEscape_of_ne hbackslash]

variable {E : Encoding} {pattern text : Bytes}

/-- The pattern matches as its items do, once the text written so far parses. -/
lemma likeMatches_of_written {pos res : Bytes} {start : List (Item UInt8)}
    (hwritten : likePatternToRegexp pattern = likePatternLoop pattern pos res)
    (hparse : ∀ toks, parse (res ++ render toks) = some (start ++ items toks)) :
    LikeMatches E pattern text ↔
      ∃ toks, tokens pos = some toks ∧ Search E.dot (start ++ items toks) text := by
  rw [likePatternLoop_eq] at hwritten
  constructor
  · rintro ⟨regexp, its, hregexp, hits, hsearch⟩
    rw [hwritten] at hregexp
    cases htoks : tokens pos with
    | none => simp [htoks, writeTokens, throwException] at hregexp
    | some toks =>
      rw [htoks, writeTokens, Except.ok.injEq] at hregexp
      rw [← hregexp, hparse, some.injEq] at hits
      exact ⟨toks, rfl, hits ▸ hsearch⟩
  · rintro ⟨toks, htoks, hsearch⟩
    rw [htoks] at hwritten
    exact ⟨res ++ render toks, start ++ items toks, hwritten, hparse toks, hsearch⟩

/-- **What a pattern matches**, if it does not start with `%`. -/
theorem likeMatches_iff (h : pattern.head? ≠ some (ch '%')) :
    LikeMatches E pattern text ↔
      ∃ toks, tokens pattern = some toks ∧ Matches E.dot (items toks) [] text := by
  have hwritten : likePatternToRegexp pattern = likePatternLoop pattern pattern [ch '^'] := by
    cases pattern with
    | nil => rfl
    | cons c rest => exact if_neg (by simpa using h)
  have hparse : ∀ toks, parse ([ch '^'] ++ render toks) = some ([.beginText] ++ items toks) := by
    intro toks
    rw [singleton_append, parse_circumflex, parse_render]
    rfl
  rw [likeMatches_of_written hwritten hparse]
  simp only [singleton_append, search_beginText]

/-- **What a pattern matches** that starts with `%`. -/
theorem likeMatches_percent :
    LikeMatches E (ch '%' :: rest) text ↔
      ∃ toks, tokens (rest.dropWhile (· == ch '%')) = some toks ∧
        Search E.dot (items toks) text := by
  have hwritten : likePatternToRegexp (ch '%' :: rest) =
      likePatternLoop (ch '%' :: rest) (rest.dropWhile (· == ch '%')) [] := by
    simp [likePatternToRegexp]
  have hparse : ∀ toks, parse ([] ++ render toks) = some ([] ++ items toks) := parse_render
  exact likeMatches_of_written hwritten hparse

end ClickHouse
