/-
What `formatIPv6` writes, `parseIPv6` reads.

Of the run that is written as `::` only one thing matters: the words are what is before it,
zeros, and what is after it. That is the invariant of `findRun`. The text is then one of
three, and each is a list of words with colons in between, cut by `::`, and with an IPv4
address in place of the last two words in the third.

The reader is followed word by word: one lemma for a group of digits, one for a list of
words, one for the end of the text, which is either the end of the buffer or a zero byte. In
a mixed address a decimal number is read as a hexadecimal one and then decoded digit by
digit; both readings are of the same list of digits.
-/
import ClickHouse.Common.FormatIPv6
import ClickHouse.Lib.Radix

set_option autoImplicit false

namespace ClickHouse.IPAddress

open List hiding Vector
open UInt8 (ofNat ofNat_toNat)

/-! ## Digits -/

lemma integerDigits_lt {base value d : ℕ} (hb : 1 < base) (h : d ∈ integerDigits base value) :
    d < base := by
  unfold integerDigits at h
  split_ifs at h
  · rw [mem_singleton.1 h]
    exact Nat.zero_lt_of_lt hb
  · exact Nat.digits_lt_base hb (mem_reverse.1 h)

variable (base value : ℕ)

lemma foldl_integerDigits :
    (integerDigits base value).foldl (fun n d => base * n + d) 0 = value := by
  unfold integerDigits
  split_ifs with hzero
  · rw [hzero]
    rfl
  · rw [Lib.foldl_eq_ofDigits, reverse_reverse, Nat.ofDigits_digits]

lemma integerDigits_ne_nil : integerDigits base value ≠ [] := by
  unfold integerDigits
  split_ifs with hzero
  · exact cons_ne_nil _ _
  · rw [Ne, reverse_eq_nil_iff]
    exact Nat.digits_ne_nil_iff_ne_zero.2 hzero

lemma length_integerDigits {base value n : ℕ} (hb : 1 < base) (hn : 0 < n)
    (h : value < base ^ n) : (integerDigits base value).length ≤ n := by
  unfold integerDigits
  split_ifs
  · exact hn
  · rw [length_reverse]
    exact (Nat.digits_length_le_iff hb value).2 h

lemma unhex_hexDigitLowercase : ∀ d < 16, unhex (hexDigitLowercase d) = d := by
  decide

lemma hexDigitLowercase_ne :
    ∀ d < 16, hexDigitLowercase d ≠ ch ':' ∧ hexDigitLowercase d ≠ ch '.' := by
  decide

lemma isNumericASCII_hexDigitLowercase : ∀ d < 10, isNumericASCII (hexDigitLowercase d) = true ∧
    (hexDigitLowercase d).toNat - (ch '0').toNat = d := by
  decide

/-- The text does not go on with another digit. -/
def EndsGroup (src : Bytes) : Prop := ∀ c ∈ src.head?, unhex c = 0xFF

lemma endsGroup_cons {c : UInt8} (hc : unhex c = 0xFF) (src : Bytes) : EndsGroup (c :: src) := by
  rintro c ⟨⟩
  exact hc

variable {src : Bytes}

lemma readGroup_of_endsGroup (h : EndsGroup src) (val xdigits : ℕ) :
    readGroup val xdigits src = (val, xdigits, src) := by
  cases src with
  | nil => rfl
  | cons c src =>
    rw [readGroup, if_pos (h c rfl)]
    split_ifs <;> rfl

variable {digits : List ℕ}

/-- The digits of a group are read. -/
lemma readGroup_digits (hdigits : ∀ d ∈ digits, d < 16) (hsrc : EndsGroup src) (val xdigits : ℕ)
    (hlen : xdigits + digits.length ≤ 4) (hval : val < 16 ^ xdigits) :
    readGroup val xdigits (digits.map hexDigitLowercase ++ src) =
      (digits.foldl (fun n d => 16 * n + d) val, xdigits + digits.length, src) := by
  induction digits generalizing val xdigits with
  | nil => exact readGroup_of_endsGroup hsrc val xdigits
  | cons d digits ih =>
    obtain ⟨hd, hrest⟩ := forall_mem_cons.1 hdigits
    rw [length_cons] at hlen
    -- one more digit still fits into 16 bits
    have hsmall : val < 16 ^ 3 := hval.trans_le (Nat.pow_le_pow_right (by decide) (by omega))
    have hor : (val <<< 4) % 2 ^ 16 ||| d = 16 * val + d := by
      have hshift : val <<< 4 = 16 * val := by rw [Nat.shiftLeft_eq, Nat.mul_comm]
      rw [hshift, Nat.mod_eq_of_lt (by omega), ← hshift,
        ← Nat.shiftLeft_add_eq_or_of_lt (by simpa using hd)]
    rw [map_cons, cons_append, readGroup, if_pos (by omega), unhex_hexDigitLowercase d hd,
      if_neg (by omega), hor, ih hrest _ _ (by omega) ?_, foldl_cons, length_cons]
    · congr 2
      omega
    · rw [Nat.pow_succ]
      omega

/-! ## IPv4 -/

/-- The octets with dots in between. -/
def dotted : List ℕ → Bytes
  | [] => []
  | [octet] => printInteger 10 octet
  | octet :: octets => printInteger 10 octet ++ ch '.' :: dotted octets

/-- The text does not go on with another octet. -/
def EndsOctet (src : Bytes) : Prop := ∀ c ∈ src.head?, isNumericASCII c = false

lemma endsOctet_dot (src : Bytes) : EndsOctet (ch '.' :: src) := by
  rintro c ⟨⟩
  decide

/-- Decimal digits are read as their value, as far as an octet may have them. -/
lemma readOctet_digits (hdigits : ∀ d ∈ digits, d < 10) (hsrc : EndsOctet src) (value len : ℕ)
    (hlen : len + digits.length ≤ 4) :
    readOctet value len (digits.map hexDigitLowercase ++ src) =
      (digits.foldl (fun n d => 10 * n + d) value, len + digits.length, src) := by
  induction digits generalizing value len with
  | nil =>
    cases src with
    | nil => rfl
    | cons c src =>
      rw [map_nil, nil_append, readOctet, hsrc c rfl]
      rfl
  | cons d digits ih =>
    obtain ⟨hd, hrest⟩ := forall_mem_cons.1 hdigits
    obtain ⟨hnumeric, hvalue⟩ := isNumericASCII_hexDigitLowercase d hd
    rw [length_cons] at hlen
    rw [map_cons, cons_append, readOctet, hnumeric, hvalue, if_pos (by simp; omega),
      ih hrest _ _ (by omega), foldl_cons, length_cons, Nat.mul_comm value]
    congr 2
    omega

variable {octet : ℕ}

lemma readOctet_printInteger (h : octet < 256) (hsrc : EndsOctet src) :
    ∃ len, len ≠ 0 ∧ readOctet 0 0 (printInteger 10 octet ++ src) = (octet, len, src) := by
  have hlen := length_integerDigits (n := 3) (by decide : 1 < 10) (by decide) (h.trans (by decide))
  have hpos := length_pos_iff.2 (integerDigits_ne_nil 10 octet)
  refine ⟨(integerDigits 10 octet).length, by omega, ?_⟩
  rw [printInteger, readOctet_digits (fun d hd => integerDigits_lt (by decide) hd) hsrc 0 0
    (by omega),
    foldl_integerDigits, Nat.zero_add]

lemma printInteger_ne_nil : printInteger base value ≠ [] := by
  rw [printInteger, Ne, map_eq_nil_iff]
  exact integerDigits_ne_nil base value

lemma parseOctets_succ (h : octet < 256) (n result : ℕ) (src : Bytes) :
    parseOctets (n + 1) result (printInteger 10 octet ++ ch '.' :: src) =
      parseOctets n (result ||| octet <<< (8 * (n + 1))) src := by
  obtain ⟨len, hlen, hread⟩ := readOctet_printInteger h (endsOctet_dot src)
  rw [parseOctets, if_neg (by simp), hread]
  simp only [hlen, head?_cons, ne_eq, not_true_eq_false, and_false, or_false, false_or]
  rw [if_neg (by omega), tail_cons]

lemma parseOctets_zero (h : octet < 256) (result : ℕ) (hsrc : EndsOctet src) :
    parseOctets 0 result (printInteger 10 octet ++ src) = some (result ||| octet, src) := by
  obtain ⟨len, hlen, hread⟩ := readOctet_printInteger h hsrc
  have hne : printInteger 10 octet ++ src ≠ [] := by simp [printInteger_ne_nil]
  rw [parseOctets, if_neg hne, hread]
  simp only [hlen, Nat.lt_irrefl, false_and, or_false, false_or]
  rw [if_neg (by omega)]
  rfl

/-- The octets that follow one octet are read, and shifted to their places. -/
lemma parseOctets_dotted {a b c : ℕ} (ha : a < 256) (hb : b < 256) (hc : c < 256)
    (hsrc : EndsOctet src) (result : ℕ) :
    parseOctets 2 result (dotted [a, b, c] ++ src) =
      some (((result ||| a <<< 16) ||| b <<< 8) ||| c, src) := by
  have htext : dotted [a, b, c] ++ src =
      printInteger 10 a ++
        ch '.' :: (printInteger 10 b ++ ch '.' :: (printInteger 10 c ++ src)) := by
    simp only [dotted, append_assoc, cons_append]
  rw [htext, parseOctets_succ ha, parseOctets_succ hb, parseOctets_zero hc _ hsrc]

lemma or_eq_add {x y : ℕ} (k : ℕ) (hy : y < 2 ^ k) : x * 2 ^ k ||| y = x * 2 ^ k + y := by
  rw [← Nat.shiftLeft_eq, Nat.shiftLeft_add_eq_or_of_lt hy]

variable {o a b c : ℕ}

/-- The bytes in memory are the octets from the last to the first. -/
lemma bytesOfUInt32_octets (ho : o < 256) (ha : a < 256) (hb : b < 256) (hc : c < 256) :
    bytesOfUInt32 (((o <<< 24 ||| a <<< 16) ||| b <<< 8) ||| c) =
      [ofNat c, ofNat b, ofNat a, ofNat o] := by
  have hsum : ((o <<< 24 ||| a <<< 16) ||| b <<< 8) ||| c =
      ((o * 256 + a) * 256 + b) * 256 + c := by
    have h₁ : o <<< 24 ||| a <<< 16 = (o * 256 + a) * 2 ^ 16 := by
      rw [Nat.shiftLeft_eq, Nat.shiftLeft_eq, or_eq_add 24 (by omega)]
      omega
    have h₂ : (o * 256 + a) * 2 ^ 16 ||| b <<< 8 = ((o * 256 + a) * 256 + b) * 2 ^ 8 := by
      rw [Nat.shiftLeft_eq, or_eq_add 16 (by omega)]
      omega
    rw [h₁, h₂, or_eq_add 8 (by omega)]
    rfl
  rw [hsum, bytesOfUInt32]
  simp only [range_succ, range_zero, nil_append, cons_append, map_cons,
    map_nil, Nat.shiftRight_eq_div_pow]
  refine congr_arg₂ _ (congrArg _ (by omega)) (congr_arg₂ _ (congrArg _ (by omega))
    (congr_arg₂ _ (congrArg _ (by omega)) (congr_arg₂ _ (congrArg _ (by omega)) rfl)))

/-- An IPv4 address after its first octet. -/
lemma parseIPv4_dotted (ho : o < 256) (ha : a < 256) (hb : b < 256) (hc : c < 256)
    (hsrc : EndsOctet src) :
    parseIPv4 (dotted [a, b, c] ++ src) (some o) =
      some ([ofNat c, ofNat b, ofNat a, ofNat o], src) := by
  rw [parseIPv4, if_neg (by omega), parseOctets_dotted ha hb hc hsrc, Option.map_some,
    bytesOfUInt32_octets ho ha hb hc]

lemma ofDigits_digits_succ (n : ℕ) :
    Nat.ofDigits 16 (Nat.digits 10 n) = n % 10 + 16 * Nat.ofDigits 16 (Nat.digits 10 (n / 10)) := by
  rcases Nat.eq_zero_or_pos n with rfl | hn
  · rfl
  · rw [Nat.digits_def' (by decide) hn, Nat.ofDigits_cons]

lemma recodeDecimal_nibbles : ∀ a < 10, ∀ b < 10, ∀ c < 10,
    recodeDecimal (groupBytes (c + 16 * b + 256 * a)) = some (100 * a + 10 * b + c) := by
  decide +kernel

/-- The digits of an octet read as hexadecimal ones, and decoded again. -/
lemma recodeDecimal_groupBytes (h : o < 256) :
    recodeDecimal (groupBytes ((integerDigits 10 o).foldl (fun n d => 16 * n + d) 0)) = some o := by
  have hval : (integerDigits 10 o).foldl (fun n d => 16 * n + d) 0 =
      o % 10 + 16 * (o / 10 % 10) + 256 * (o / 100) := by
    -- the decimal digits, read to the base 16
    have hdigits : (integerDigits 10 o).foldl (fun n d => 16 * n + d) 0 =
        Nat.ofDigits 16 (Nat.digits 10 o) := by
      unfold integerDigits
      split_ifs with hzero
      · rw [hzero]
        rfl
      · rw [Lib.foldl_eq_ofDigits, reverse_reverse]
    rw [hdigits, ofDigits_digits_succ, ofDigits_digits_succ (o / 10),
      ofDigits_digits_succ (o / 10 / 10)]
    have hzero : o / 10 / 10 / 10 = 0 := by omega
    rw [hzero, Nat.digits_zero, Nat.ofDigits_nil]
    omega
  rw [hval, recodeDecimal_nibbles (o / 100) (by omega) (o / 10 % 10) (by omega) (o % 10) (by omega)]
  congr 1
  omega

/-! ## Groups -/

/-- A group has been read. -/
def Parser.push (p : Parser) (val : ℕ) (src : Bytes) : Parser :=
  { p with src := src, groups := p.groups + 1, group_start := false,
           written := p.written ++ groupBytes val }

variable {p : Parser}

/-- The digits of a group. -/
structure IsGroup (digits : List ℕ) : Prop where
  ne_nil : digits ≠ []
  length_le : digits.length ≤ 4
  lt : ∀ d ∈ digits, d < 16

lemma isGroup_integerDigits {base value : ℕ} (hb : 1 < base) (hle : base ≤ 16)
    (h : value < base ^ 4) : IsGroup (integerDigits base value) where
  ne_nil := integerDigits_ne_nil base value
  length_le := length_integerDigits hb (by decide) h
  lt _ hd := (integerDigits_lt hb hd).trans_le hle

/-- A group may start with the text, at once or after a colon. -/
def Parser.Starts (p : Parser) (text : Bytes) : Prop :=
  p.src = text ∧ p.group_start = true ∨ p.src = ch ':' :: text ∧ p.groups ≠ 0

section Group

variable (hdigits : IsGroup digits) (hend : EndsGroup src)
include hdigits hend

lemma parseGroup_digits (hsrc : p.src = digits.map hexDigitLowercase ++ src)
    (hstart : p.group_start = true) :
    parseGroup p = .continue_ (p.push (digits.foldl (fun n d => 16 * n + d) 0) src) := by
  obtain ⟨d, rest, rfl⟩ := exists_cons_of_ne_nil hdigits.ne_nil
  have hread :=
    readGroup_digits hdigits.lt hend 0 0 (by have := hdigits.length_le; omega) (by decide)
  rw [← hsrc, Nat.zero_add] at hread
  have hcons : p.src = hexDigitLowercase d :: (rest.map hexDigitLowercase ++ src) := by
    rw [hsrc, map_cons, cons_append]
  unfold parseGroup
  rw [hcons] at hread ⊢
  have hdot := (hexDigitLowercase_ne d (hdigits.lt d (mem_cons_self ..))).2
  simp only [hdot, hstart, if_false, Bool.not_true, Bool.false_eq_true, hread, length_cons]
  rfl

/-- **A group** is read where it may start. -/
theorem parseIteration_group (hstarts : p.Starts (digits.map hexDigitLowercase ++ src)) :
    parseIteration p = .continue_ (p.push (digits.foldl (fun n d => 16 * n + d) 0) src) := by
  obtain ⟨c, rest, hcons, hcolon⟩ : ∃ c rest,
      digits.map hexDigitLowercase ++ src = c :: rest ∧ c ≠ ch ':' := by
    obtain ⟨d, rest, rfl⟩ := exists_cons_of_ne_nil hdigits.ne_nil
    exact ⟨_, _, rfl, (hexDigitLowercase_ne d (hdigits.lt d (mem_cons_self ..))).1⟩
  rw [parseIteration]
  rcases hstarts with ⟨hsrc, hstart⟩ | ⟨hsrc, hgroups⟩
  · rw [if_neg (by rw [hsrc, hcons]; simpa using hcolon),
      parseGroup_digits hdigits hend hsrc hstart]
  · rw [hsrc, head?_cons, if_pos rfl, tail_cons, hcons, parseColon, if_neg hcolon,
      if_neg hgroups, ← hcons]
    exact parseGroup_digits hdigits hend rfl rfl

end Group

/-- Two colons. -/
lemma parseIteration_doubleColon (hsrc : p.src = ch ':' :: ch ':' :: src)
    (hzptr : p.zptr = none) :
    parseIteration p =
      .continue_ { p with src := src, zptr := some p.written.length, group_start := true } := by
  rw [parseIteration, hsrc, head?_cons, if_pos rfl, tail_cons, parseColon, if_pos rfl, hzptr]
  rfl

lemma Parser.Starts.src_ne_nil {text : Bytes} (h : p.Starts text) (hne : text ≠ []) :
    p.src ≠ [] := by
  rcases h with ⟨h, -⟩ | ⟨h, -⟩
  · rwa [h]
  · rw [h]
    exact cons_ne_nil _ _

lemma parseLoop_continue {p p' : Parser} (hsrc : p.src ≠ []) (hgroups : p.groups < 8)
    (h : parseIteration p = .continue_ p') : parseLoop p = parseLoop p' := by
  rw [parseLoop, if_neg (by simp [hsrc]; omega)]
  split <;> rename_i heq <;> rw [h] at heq <;> cases heq
  rfl

/-! ## Words -/

/-- The bytes of words. -/
def wordBytes (words : List ℕ) : Bytes := words.flatMap groupBytes

/-- Words with a colon in front of each. -/
def colonWords (words : List ℕ) : Bytes := words.flatMap fun word => ch ':' :: printInteger 16 word

/-- Words with colons in between. -/
def joinWords : List ℕ → Bytes
  | [] => []
  | word :: words => printInteger 16 word ++ colonWords words

lemma colonWords_cons (word : ℕ) (words : List ℕ) :
    colonWords (word :: words) = ch ':' :: (printInteger 16 word ++ colonWords words) := rfl

lemma endsGroup_colonWords (hend : EndsGroup src) (words : List ℕ) :
    EndsGroup (colonWords words ++ src) := by
  cases words with
  | nil => exact hend
  | cons word words => exact endsGroup_cons (by decide) _

/-- Words have been read. -/
def Parser.pushWords (p : Parser) (words : List ℕ) (src : Bytes) : Parser :=
  { p with src := src, groups := p.groups + words.length, group_start := false,
           written := p.written ++ wordBytes words }

lemma Parser.push_pushWords (p : Parser) (word : ℕ) (words : List ℕ) (src src' : Bytes) :
    (p.push word src).pushWords words src' = p.pushWords (word :: words) src' := by
  simp only [Parser.push, Parser.pushWords, wordBytes, flatMap_cons, append_assoc, length_cons]
  congr 1
  omega

variable {words : List ℕ}

lemma joinWords_ne_nil (h : words ≠ []) (src : Bytes) : joinWords words ++ src ≠ [] := by
  obtain ⟨word, words, rfl⟩ := exists_cons_of_ne_nil h
  simp [joinWords, printInteger_ne_nil]

/-- **Words** are read where the first one may start. -/
theorem parseLoop_words (hne : words ≠ []) (hstarts : p.Starts (joinWords words ++ src))
    (hcount : p.groups + words.length ≤ 8) (hwords : ∀ w ∈ words, w < 2 ^ 16)
    (hend : EndsGroup src) : parseLoop p = parseLoop (p.pushWords words src) := by
  induction words generalizing p with
  | nil => exact absurd rfl hne
  | cons word words ih =>
    obtain ⟨hword, hrest⟩ := forall_mem_cons.1 hwords
    rw [length_cons] at hcount
    have hsrc := hstarts.src_ne_nil (joinWords_ne_nil hne src)
    rw [joinWords, append_assoc, printInteger] at hstarts
    have hstep := parseIteration_group (isGroup_integerDigits (by decide) le_rfl hword)
      (endsGroup_colonWords hend words) hstarts
    rw [foldl_integerDigits] at hstep
    rw [parseLoop_continue hsrc (by omega) hstep,
      ← Parser.push_pushWords p word words (colonWords words ++ src)]
    cases words with
    | nil => simp [Parser.push, Parser.pushWords, wordBytes, colonWords]
    | cons word' words =>
      exact ih (cons_ne_nil _ _) (.inr ⟨rfl, Nat.succ_ne_zero _⟩)
        (by show p.groups + 1 + _ ≤ 8; omega) hrest

/-! ## The end -/

/-- The end of the buffer, or the zero byte at the end of a text. -/
def EndsText (src : Bytes) : Prop := src = [] ∨ src.head? = some 0

lemma EndsText.forall_head (h : EndsText src) {P : UInt8 → Prop} (hzero : P 0) :
    ∀ c ∈ src.head?, P c := by
  intro c hc
  rcases h with rfl | h
  · cases hc
  · rw [h] at hc
    cases hc
    exact hzero

lemma EndsText.endsGroup (h : EndsText src) : EndsGroup src := h.forall_head (by decide)

/-- At the end of the text the parser stops. -/
lemma parseLoop_end (h : EndsText p.src) : parseLoop p = some p := by
  rw [parseLoop]
  split_ifs with hstop
  · rfl
  -- the text is over, or a zero byte is next
  have hcons : ∃ rest, p.src = 0 :: rest := by
    rcases h with h | h
    · exact absurd (.inl h) hstop
    · exact head?_eq_some_iff.1 h
  obtain ⟨rest, hrest⟩ := hcons
  have hzero : readGroup 0 0 (0 :: rest) = (0, 0, 0 :: rest) :=
    readGroup_of_endsGroup (EndsText.endsGroup (.inr rfl)) 0 0
  have hgroup : parseGroup p = .break_ p := by
    unfold parseGroup
    rw [hrest]
    simp only [hzero]
    rw [if_neg (by decide)]
    split_ifs <;> rfl
  have hiteration : parseIteration p = .break_ p := by
    have hcolon : (0 : UInt8) ≠ ch ':' := by decide
    rw [parseIteration, if_neg (by rw [hrest]; simpa using hcolon), hgroup]
  split <;> rename_i heq <;> rw [hiteration] at heq <;> cases heq
  rfl

/-- The zeros are put where the two colons were. -/
lemma finishIPv6_zptr (p : Parser) {before after : Bytes} (hwritten : p.written = before ++ after)
    (hzptr : p.zptr = some before.length) (hlen : p.written.length ≤ 16) :
    finishIPv6 p =
      some (before ++ List.replicate (16 - p.written.length) 0 ++ after, p.src) := by
  have hlength : p.written.length = before.length + after.length := by
    rw [hwritten, length_append]
  have hmove : (p.written ++ replicate (16 - p.written.length) 0).take
        (16 - (p.written.length - before.length)) ++ p.written.drop before.length =
      (p.written ++ replicate (16 - p.written.length) 0).take (16 - after.length) ++ after := by
    have hdrop : p.written.drop before.length = after := by rw [hwritten, drop_left]
    rw [hdrop, hlength, Nat.add_sub_cancel_left]
  -- what is moved lies behind the zeros
  have hdrop : ((p.written ++ replicate (16 - p.written.length) 0).take (16 - after.length) ++
      after).drop (before.length + (16 - p.written.length)) = after := by
    refine drop_left' ?_
    rw [length_take, length_append, length_replicate]
    omega
  have htake : ((p.written ++ replicate (16 - p.written.length) 0).take (16 - after.length) ++
      after).take before.length = before := by
    rw [take_append_of_le_length (by
      rw [length_take, length_append, length_replicate]; omega), take_take,
      Nat.min_eq_left (by omega), hwritten, append_assoc, take_left]
  unfold finishIPv6
  rw [if_neg (by simp [hzptr]), hzptr]
  simp only [hmove, htake, hdrop]

lemma finishIPv6_full (p : Parser) (hgroups : 8 ≤ p.groups) (hzptr : p.zptr = none)
    (hlen : p.written.length = 16) : finishIPv6 p = some (p.written, p.src) := by
  unfold finishIPv6
  rw [if_neg (by omega), hzptr]
  simp [hlen]

/-- A mixed address: the octets after a group that was the first of them. -/
lemma parseLoop_dotted {src before : Bytes} (hsrc : p.src = ch '.' :: (dotted [a, b, c] ++ src))
    (hgroups : p.groups < 8) (hzptr : p.zptr ≠ none) (hstart : p.group_start = false)
    (hwritten : p.written = before ++
      groupBytes ((integerDigits 10 o).foldl (fun n d => 16 * n + d) 0))
    (ho : o < 256) (ha : a < 256) (hb : b < 256) (hc : c < 256) (hend : EndsText src) :
    parseLoop p = some { p with
      src := src
      groups := p.groups + 1
      written := before ++ [ofNat o, ofNat a, ofNat b, ofNat c] } := by
  -- the octet was read as a group of hexadecimal digits and has to be taken back
  have hlength : p.written.length - 2 = before.length := by
    rw [hwritten, length_append]
    rfl
  have hbefore : p.written.take (p.written.length - 2) = before := by
    rw [hlength, hwritten, take_left]
  have hgroup : p.written.drop (p.written.length - 2) =
      groupBytes ((integerDigits 10 o).foldl (fun n d => 16 * n + d) 0) := by
    rw [hlength, hwritten, drop_left]
  have hdotted : dotted [a, b, c] ++ src ≠ [] := by
    simp [dotted, printInteger_ne_nil]
  have hmixed : parseMixed p (dotted [a, b, c] ++ src) = .break_ { p with
      src := src
      groups := p.groups + 1
      written := before ++ [ofNat o, ofNat a, ofNat b, ofNat c] } := by
    unfold parseMixed
    rw [if_neg (fun h => hzptr h.2), if_neg (by simp [hstart]), if_neg hdotted]
    simp only [hbefore, hgroup, recodeDecimal_groupBytes ho, if_neg (show ¬o > 255 by omega),
      parseIPv4_dotted ho ha hb hc (hend.forall_head (by decide)), reverse_cons, reverse_nil,
      nil_append, cons_append]
  -- the point behind the group leads to the IPv4 branch
  have hiteration : parseIteration p = parseMixed p (dotted [a, b, c] ++ src) := by
    have hcolon : ch '.' ≠ ch ':' := by decide
    rw [parseIteration, if_neg (by rw [hsrc]; simpa using hcolon)]
    unfold parseGroup
    rw [hsrc]
    exact if_pos rfl
  rw [parseLoop, if_neg (by simp [hsrc]; omega)]
  split <;> rename_i heq <;> rw [hiteration, hmixed] at heq <;> cases heq
  rfl

/-! ## The three forms are read -/

lemma length_wordBytes (words : List ℕ) : (wordBytes words).length = 2 * words.length := by
  induction words with
  | nil => rfl
  | cons word words ih =>
    rw [wordBytes, flatMap_cons, length_append, ← wordBytes, ih, length_cons]
    show 2 + _ = _
    omega

/-- Where the reader is after two colons. -/
def afterColons (before : List ℕ) (src : Bytes) : Parser :=
  ⟨src, before.length, wordBytes before, some (wordBytes before).length, true⟩

lemma parseIPv6_eq (hne : src ≠ []) :
    parseIPv6 src none = (parseLoop ⟨src, 0, [], none, true⟩).bind finishIPv6 := by
  rw [parseIPv6, if_neg hne]

/-- Eight words. -/
lemma parseIPv6_words (hcount : words.length = 8) (hwords : ∀ w ∈ words, w < 2 ^ 16)
    (hend : EndsText src) :
    parseIPv6 (joinWords words ++ src) none = some (wordBytes words, src) := by
  have hne : words ≠ [] := by
    rintro rfl
    cases hcount
  rw [parseIPv6_eq (joinWords_ne_nil hne src), parseLoop_words hne (.inl ⟨rfl, rfl⟩)
    (by show 0 + _ ≤ 8; omega) hwords hend.endsGroup, parseLoop_end (by exact hend),
    Option.bind_some, finishIPv6_full]
  · rfl
  · show 8 ≤ 0 + words.length
    omega
  · rfl
  · show (wordBytes words).length = 16
    rw [length_wordBytes, hcount]

/-- Words in front of two colons. -/
lemma parseLoop_before {before : List ℕ} (hcount : before.length < 8)
    (hwords : ∀ w ∈ before, w < 2 ^ 16) (src : Bytes) :
    parseLoop ⟨joinWords before ++ ch ':' :: ch ':' :: src, 0, [], none, true⟩ =
      parseLoop (afterColons before src) := by
  rcases eq_or_ne before [] with rfl | hne
  · exact parseLoop_continue (cons_ne_nil _ _) (Nat.zero_lt_succ 7)
      (parseIteration_doubleColon rfl rfl)
  · rw [parseLoop_words hne (.inl ⟨rfl, rfl⟩) (by show 0 + _ ≤ 8; omega) hwords
        (endsGroup_cons (by decide) _),
      parseLoop_continue (cons_ne_nil _ _) (by show 0 + before.length < 8; omega)
        (parseIteration_doubleColon rfl rfl)]
    simp only [Parser.pushWords, afterColons, Nat.zero_add, nil_append]

variable {before after : List ℕ}

/-- Two colons between words. -/
lemma parseIPv6_run (hcount : before.length + after.length < 8)
    (hbefore : ∀ w ∈ before, w < 2 ^ 16) (hafter : ∀ w ∈ after, w < 2 ^ 16) (hend : EndsText src) :
    parseIPv6 (joinWords before ++ ch ':' :: ch ':' :: (joinWords after ++ src)) none =
      some (wordBytes before ++ List.replicate (2 * (8 - (before.length + after.length))) 0 ++
        wordBytes after, src) := by
  have hread : ∃ p, parseLoop (afterColons before (joinWords after ++ src)) = some p ∧
      p.src = src ∧ p.written = wordBytes before ++ wordBytes after ∧
      p.zptr = some (wordBytes before).length := by
    -- nothing follows the colons, or words that the loop reads
    rcases eq_or_ne after [] with rfl | hne
    · exact ⟨_, parseLoop_end (by exact hend), rfl, (append_nil _).symm, rfl⟩
    · rw [parseLoop_words hne (.inl ⟨rfl, rfl⟩) (by show before.length + _ ≤ 8; omega) hafter
        hend.endsGroup]
      exact ⟨_, parseLoop_end (by exact hend), rfl, rfl, rfl⟩
  obtain ⟨p, hloop, hsrc, hwritten, hzptr⟩ := hread
  have hlen : p.written.length = 2 * (before.length + after.length) := by
    rw [hwritten, length_append, length_wordBytes, length_wordBytes]
    omega
  rw [parseIPv6_eq (by simp), parseLoop_before (by omega) hbefore, hloop, Option.bind_some,
    finishIPv6_zptr p hwritten hzptr (by omega), hlen, hsrc]
  congr 5
  omega

/-- The first octet of an IPv4 address is read as a group, after two colons and perhaps words. -/
lemma parseLoop_firstOctet (hcount : after.length ≤ 5)
    (hafter : ∀ w ∈ after, w < 2 ^ 16) (ho : o < 256) (src : Bytes) :
    parseLoop ⟨ch ':' :: (colonWords after ++ ch ':' :: (printInteger 10 o ++ ch '.' :: src)),
        0, [], none, true⟩ =
      parseLoop ⟨ch '.' :: src, after.length + 1, wordBytes after ++
        groupBytes ((integerDigits 10 o).foldl (fun n d => 16 * n + d) 0), some 0, false⟩ := by
  -- the first octet looks like a group until its point is met
  have hgroup : ∀ p : Parser, p.Starts (printInteger 10 o ++ ch '.' :: src) → p.groups < 8 →
      parseLoop p = parseLoop (p.push ((integerDigits 10 o).foldl (fun n d => 16 * n + d) 0)
        (ch '.' :: src)) := fun p hstarts hgroups =>
    parseLoop_continue (hstarts.src_ne_nil (by simp)) hgroups
      (parseIteration_group (isGroup_integerDigits (by decide) (by decide) (ho.trans (by decide)))
        (endsGroup_cons (by decide) src) hstarts)
  cases after with
  | nil =>
    rw [parseLoop_continue (cons_ne_nil _ _) (Nat.zero_lt_succ 7)
      (parseIteration_doubleColon rfl rfl), hgroup _ (.inl ⟨rfl, rfl⟩) (Nat.zero_lt_succ 7)]
    rfl
  | cons word words =>
    rw [length_cons] at hcount
    -- the words behind the two colons come first
    have hcolons := @parseLoop_before [] (by decide) (by simp)
      (joinWords (word :: words) ++ ch ':' :: (printInteger 10 o ++ ch '.' :: src))
    refine Eq.trans ?_ (hcolons.trans ?_)
    · rw [colonWords_cons, joinWords, joinWords, cons_append, nil_append]
    · rw [parseLoop_words (cons_ne_nil _ _) (.inl ⟨rfl, rfl⟩)
        (by show 0 + (words.length + 1) ≤ 8; omega) hafter (endsGroup_cons (by decide) _),
        hgroup _ (.inr ⟨rfl, Nat.succ_ne_zero _⟩) (by show 0 + (words.length + 1) < 8; omega)]
      simp only [Parser.push, Parser.pushWords, afterColons, Nat.zero_add, length_nil,
        length_cons, wordBytes, flatMap_nil, nil_append]

/-- Two colons in front of an IPv4 address, perhaps with words in between. -/
lemma parseIPv6_mixed (hcount : after.length ≤ 5)
    (hafter : ∀ w ∈ after, w < 2 ^ 16) (ho : o < 256) (ha : a < 256) (hb : b < 256) (hc : c < 256)
    (hend : EndsText src) :
    parseIPv6 (ch ':' :: (colonWords after ++ ch ':' :: (dotted [o, a, b, c] ++ src))) none =
      some (List.replicate (2 * (6 - after.length)) 0 ++ wordBytes after ++
        [ofNat o, ofNat a, ofNat b, ofNat c], src) := by
  have htext : dotted [o, a, b, c] ++ src =
      printInteger 10 o ++ ch '.' :: (dotted [a, b, c] ++ src) := by
    rw [dotted, append_assoc, cons_append]
    exact fun h => cons_ne_nil _ _ h
  have hlen : (wordBytes after ++ [ofNat o, ofNat a, ofNat b, ofNat c]).length =
      2 * after.length + 4 := by
    rw [length_append, length_wordBytes]
    rfl
  rw [parseIPv6_eq (cons_ne_nil _ _), htext, parseLoop_firstOctet hcount hafter ho,
    parseLoop_dotted rfl (by show after.length + 1 < 8; omega) (by simp) rfl rfl ho ha hb hc hend,
    Option.bind_some, @finishIPv6_zptr _ [] _ rfl rfl (by simp only [hlen]; omega)]
  simp only [hlen, nil_append, append_assoc]
  congr 4
  omega

/-! ## The run -/

/-- The words are zero along the run. -/
def IsRun (words : List ℕ) (run : Run) : Prop :=
  ∃ before after, words = before ++ List.replicate run.len 0 ++ after ∧ before.length = run.base

variable {run : Run}

lemma IsRun.append (h : IsRun words run) (more : List ℕ) : IsRun (words ++ more) run := by
  obtain ⟨before, after, rfl, hbase⟩ := h
  exact ⟨before, after ++ more, by rw [append_assoc], hbase⟩

/-- The words end with the run. -/
def EndsWithRun (words : List ℕ) (run : Run) : Prop :=
  ∃ before, words = before ++ List.replicate run.len 0 ∧ before.length = run.base

lemma EndsWithRun.isRun (h : EndsWithRun words run) : IsRun words run := by
  obtain ⟨before, rfl, hbase⟩ := h
  exact ⟨before, [], by rw [append_nil], hbase⟩

lemma isRun_better {best : Option Run} {cur run : Run} (hbest : ∀ run ∈ best, IsRun words run)
    (hcur : IsRun words cur) (h : run ∈ better best cur) : IsRun words run := by
  unfold better at h
  split at h
  · cases h
    exact hcur
  · split_ifs at h <;> cases h
    · exact hcur
    · exact hbest _ rfl

/-- What has been seen of the words has the runs that are remembered. -/
lemma findRun_spec {words seen : List ℕ} {best cur : Option Run}
    (hbest : ∀ run ∈ best, IsRun seen run) (hcur : ∀ run ∈ cur, EndsWithRun seen run)
    (h : run ∈ findRun seen.length best cur words) : IsRun (seen ++ words) run := by
  induction words generalizing seen best cur with
  | nil =>
    rw [append_nil]
    cases cur with
    | none => exact hbest run h
    | some cur => exact isRun_better hbest (hcur cur rfl).isRun h
  | cons word words ih =>
    have hseen : seen ++ word :: words = (seen ++ [word]) ++ words := by
      rw [append_assoc, singleton_append]
    have hbest' : ∀ run ∈ best, IsRun (seen ++ [word]) run := fun run hrun =>
      (hbest run hrun).append _
    have hlength : (seen ++ [word]).length = seen.length + 1 := by
      rw [length_append, length_singleton]
    rw [hseen]
    -- a zero begins a run or makes the current one longer
    by_cases hword : word = 0
    · cases cur with
      | none =>
        simp only [findRun, if_pos hword, ← hlength] at h
        refine ih hbest' ?_ h
        rintro run ⟨⟩
        exact ⟨seen, by rw [hword]; rfl, rfl⟩
      | some cur =>
        simp only [findRun, if_pos hword, ← hlength] at h
        refine ih hbest' ?_ h
        rintro run ⟨⟩
        obtain ⟨before, hbefore, hbase⟩ := hcur cur rfl
        refine ⟨before, ?_, hbase⟩
        rw [hbefore, hword, replicate_succ', append_assoc]
    · -- another word ends the current run, which may be the best so far
      have hnone : ∀ run ∈ (none : Option Run), EndsWithRun (seen ++ [word]) run := by
        rintro run ⟨⟩
      cases cur with
      | none =>
        simp only [findRun, if_neg hword, ← hlength] at h
        exact ih hbest' hnone h
      | some cur =>
        simp only [findRun, if_neg hword, ← hlength] at h
        refine ih (fun run hrun => ?_) hnone h
        exact isRun_better hbest' ((hcur cur rfl).isRun.append _) hrun

lemma bestRun_spec (h : bestRun words = some run) : IsRun words run ∧ 2 ≤ run.len := by
  unfold bestRun at h
  split at h
  · cases h
  · rename_i found hfound
    split_ifs at h with hlen
    cases h
    have hrun := @findRun_spec run words [] none none (by rintro run ⟨⟩) (by rintro run ⟨⟩) hfound
    exact ⟨hrun, by omega⟩

/-! ## The three forms are written -/

section Write

variable {best : Option Run} {encapsulated : Bool} {ipv4 : Bytes}

/-- The word `i` is written as it is. -/
def Plain (best : Option Run) (encapsulated : Bool) (i : ℕ) : Prop :=
  (∀ run ∈ best, i < run.base ∨ run.base + run.len ≤ i) ∧ (encapsulated = true → i ≠ 6)

lemma formatWords_plain {i : ℕ} (h : Plain best encapsulated i) (word : ℕ) (words : List ℕ) :
    formatWords best encapsulated ipv4 i (word :: words) =
      (if i ≠ 0 then [ch ':'] else []) ++ (printInteger 16 word ++
        formatWords best encapsulated ipv4 (i + 1) words) := by
  have hsix : (i == 6 && encapsulated) = false := by
    cases encapsulated with
    | false => simp
    | true => simpa using h.2 rfl
  have hout : inRun best i = false := by
    cases best with
    | none => rfl
    | some run =>
      have := h.1 run rfl
      simp only [inRun, decide_eq_false_iff_not]
      omega
  rw [formatWords, hout, hsix, if_neg Bool.false_ne_true, if_neg Bool.false_ne_true]

lemma formatWords_colonWords {i : ℕ} (hi : i ≠ 0) (words rest : List ℕ)
    (h : ∀ j, i ≤ j → j < i + words.length → Plain best encapsulated j) :
    formatWords best encapsulated ipv4 i (words ++ rest) =
      colonWords words ++ formatWords best encapsulated ipv4 (i + words.length) rest := by
  induction words generalizing i with
  | nil => rfl
  | cons word words ih =>
    rw [length_cons] at h ⊢
    rw [cons_append, formatWords_plain (h i le_rfl (by omega)), if_pos hi,
      ih (Nat.succ_ne_zero i) (fun j hij hj => h j (by omega) (by omega)), colonWords_cons,
      singleton_append, cons_append, append_assoc, Nat.succ_add_eq_add_succ]

lemma formatWords_joinWords (words rest : List ℕ)
    (h : ∀ j < words.length, Plain best encapsulated j) :
    formatWords best encapsulated ipv4 0 (words ++ rest) =
      joinWords words ++ formatWords best encapsulated ipv4 words.length rest := by
  cases words with
  | nil => rfl
  | cons word words =>
    rw [length_cons] at h ⊢
    rw [cons_append, formatWords_plain (h 0 (by omega)), if_neg (by simp),
      formatWords_colonWords (by decide) words rest (fun j _ hj => h j (by omega)), joinWords,
      nil_append, append_assoc, Nat.zero_add, Nat.add_comm 1]

/-- The run is one colon. -/
lemma formatWords_zeros (n i : ℕ) (rest : List ℕ) (hi : run.base ≤ i)
    (hn : i + n = run.base + run.len) :
    formatWords (some run) encapsulated ipv4 i (List.replicate n 0 ++ rest) =
      (if i = run.base ∧ 0 < n then [ch ':'] else []) ++
        formatWords (some run) encapsulated ipv4 (run.base + run.len) rest := by
  induction n generalizing i with
  | zero =>
    rw [if_neg (by omega), ← hn]
    rfl
  | succ n ih =>
    have hin : inRun (some run) i = true := by
      simp only [inRun, decide_eq_true_eq]
      omega
    rw [replicate_succ, cons_append, formatWords, if_pos hin,
      ih (i + 1) (by omega) (by omega), if_neg (by omega : ¬(i + 1 = run.base ∧ 0 < n)), nil_append]
    refine congrArg (· ++ _) (if_congr ?_ rfl rfl)
    simp [startsRun]

end Write

/-- No run: eight words. -/
lemma formatWords_none (ipv4 : Bytes) (words : List ℕ) :
    formatWords none false ipv4 0 words = joinWords words := by
  have h := @formatWords_joinWords none false ipv4 words [] (fun j _ => ⟨by rintro run ⟨⟩, by simp⟩)
  rw [append_nil] at h
  rw [h]
  exact append_nil _

variable (hbase : before.length = run.base) (hlen : 2 ≤ run.len)
  (hcount : run.base + run.len + after.length = 8)

include hbase hlen hcount in
/-- A run that is not in front of an IPv4 address. -/
lemma formatWords_run (ipv4 : Bytes) :
    formatWords (some run) false ipv4 0 (before ++ List.replicate run.len 0 ++ after) =
      joinWords before ++ ch ':' :: ch ':' :: joinWords after := by
  -- the words outside the run are written as they are
  have hplain : ∀ j, j < run.base ∨ run.base + run.len ≤ j → Plain (some run) false j := by
    intro j hj
    refine ⟨?_, by simp⟩
    rintro run ⟨⟩
    exact hj
  have hafter :=
    @formatWords_colonWords (some run) false ipv4 (run.base + run.len) (by omega) after []
    (fun j hj _ => hplain j (.inr hj))
  rw [append_nil] at hafter
  rw [append_assoc, formatWords_joinWords before _ (fun j hj => hplain j (.inl (by omega))),
    hbase, formatWords_zeros run.len run.base after le_rfl rfl, if_pos ⟨rfl, by omega⟩, hafter,
    formatWords]
  cases after with
  | nil =>
    -- the run goes up to the end, so that a second colon is added behind it
    have hends : endsRun (some run) 8 = true := by simpa [endsRun] using hcount
    rw [hends]
    rfl
  | cons word words =>
    rw [length_cons] at hcount
    have hends : endsRun (some run) 8 = false := by
      simp only [endsRun, beq_eq_false_iff_ne]
      omega
    rw [hends, if_neg Bool.false_ne_true, append_nil, colonWords_cons]
    rfl

variable {between last : List ℕ}

/-- A run, perhaps words, and an IPv4 address. -/
lemma formatWords_mixed (hbase : run.base = 0) (hlen : 2 ≤ run.len)
    (hsix : run.len + between.length = 6) (hlast : last ≠ []) (ipv4 : Bytes) :
    formatWords (some run) true ipv4 0 (List.replicate run.len 0 ++ (between ++ last)) =
      ch ':' :: (colonWords between ++ ch ':' :: ipv4) := by
  have hplain : ∀ j, run.len ≤ j → j < run.len + between.length → Plain (some run) true j := by
    intro j hj hlt
    refine ⟨?_, fun _ => by omega⟩
    rintro run ⟨⟩
    exact .inr (by omega)
  obtain ⟨word, words, rfl⟩ := exists_cons_of_ne_nil hlast
  -- from the sixth word on the IPv4 address is written
  have hipv4 : formatWords (some run) true ipv4 6 (word :: words) = ch ':' :: ipv4 := by
    have hout : inRun (some run) 6 = false := by
      simp only [inRun, decide_eq_false_iff_not]
      omega
    rw [formatWords, hout]
    rfl
  rw [formatWords_zeros run.len 0 _ (by omega) (by omega), if_pos ⟨hbase.symm, by omega⟩, hbase,
    Nat.zero_add, formatWords_colonWords (by omega) between _ hplain, hsix, hipv4]
  rfl

/-! ## The words of an address -/

/-- The word of two bytes, as `addressWords` puts it together. -/
def wordOf (high low : UInt8) : ℕ := (0 ||| high.toNat <<< 8) ||| low.toNat <<< 0

lemma wordOf_eq (high low : UInt8) : wordOf high low = high.toNat * 256 + low.toNat := by
  rw [wordOf, Nat.zero_or, Nat.shiftLeft_eq, Nat.shiftLeft_zero, or_eq_add 8 low.toNat_lt]
  rfl

lemma wordOf_lt (high low : UInt8) : wordOf high low < 2 ^ 16 := by
  have hhigh := high.toNat_lt
  have hlow := low.toNat_lt
  rw [wordOf_eq]
  omega

lemma groupBytes_wordOf (high low : UInt8) : groupBytes (wordOf high low) = [high, low] := by
  have hlow := low.toNat_lt
  have hhigh := high.toNat_lt
  have h₁ : ((high.toNat * 256 + low.toNat) >>> 8) % 256 = high.toNat := by
    omega
  have h₂ : (high.toNat * 256 + low.toNat) % 256 = low.toNat := by omega
  rw [groupBytes, wordOf_eq, h₁, h₂, ofNat_toNat, ofNat_toNat]

/-- The words that a list of bytes is cut into. -/
def pairWords : Bytes → List ℕ
  | high :: low :: src => wordOf high low :: pairWords src
  | _ => []

lemma addressWords_eq (h : src.length = 16) : addressWords src 0 = pairWords src := by
  match src, h with
  | [_, _, _, _, _, _, _, _, _, _, _, _, _, _, _, _], _ => rfl

lemma pairWords_spec {n : ℕ} (h : src.length = 2 * n) : (pairWords src).length = n ∧
    wordBytes (pairWords src) = src ∧ ∀ w ∈ pairWords src, w < 2 ^ 16 := by
  induction n generalizing src with
  | zero =>
    obtain rfl := length_eq_zero_iff.1 h
    exact ⟨rfl, rfl, by simp [pairWords]⟩
  | succ n ih =>
    match src, h with
    | high :: low :: src, h =>
      obtain ⟨hlength, hbytes, hlt⟩ := @ih src (by simpa [Nat.mul_succ] using h)
      refine ⟨congrArg (· + 1) hlength, ?_, forall_mem_cons.2 ⟨wordOf_lt high low, hlt⟩⟩
      rw [pairWords, wordBytes, flatMap_cons, groupBytes_wordOf]
      exact congrArg ([high, low] ++ ·) hbytes

lemma wordBytes_append (words more : List ℕ) :
    wordBytes (words ++ more) = wordBytes words ++ wordBytes more := flatMap_append

lemma wordBytes_zeros (n : ℕ) : wordBytes (List.replicate n 0) = List.replicate (2 * n) 0 := by
  induction n with
  | zero => rfl
  | succ n ih =>
    exact congrArg ([0, 0] ++ ·) ih

/-- The last four bytes as an IPv4 address. -/
lemma formatIPv4_last (a b c d : UInt8) (mask_string : Bytes) :
    formatIPv4 [d, c, b, a] 0 mask_string = dotted [a.toNat, b.toNat, c.toNat, d.toNat] := by
  have hoctets : (range (min 4 (4 - 0))).flatMap (fun octet =>
      one_byte_to_string (([d, c, b, a] : Bytes)[4 - octet - 1]!).toNat ++ [ch '.']) =
        dotted [a.toNat, b.toNat, c.toNat, d.toNat] ++ [ch '.'] := by
    show (printInteger 10 a.toNat ++ [ch '.']) ++ ((printInteger 10 b.toNat ++ [ch '.']) ++
      ((printInteger 10 c.toNat ++ [ch '.']) ++ ((printInteger 10 d.toNat ++ [ch '.']) ++ []))) = _
    simp [dotted]
  rw [formatIPv4, hoctets, range_zero, flatMap_nil, append_nil]
  exact dropLast_concat

lemma isEncapsulatedIPv4_some (h : isEncapsulatedIPv4 words (some run) = true) :
    run.base = 0 ∧ (run.len = 6 ∨ run.len = 5 ∧ words[5]! = 0xffff) := by
  simpa [isEncapsulatedIPv4] using h

/-! ## The round trip -/

/-- A text of at most 45 characters that is read as the bytes, whatever ends it. -/
def ReadAs (text src : Bytes) : Prop :=
  text.length ≤ 45 ∧
    ∀ rest, EndsText rest → parseIPv6 (text ++ rest) none = some (src, rest)

lemma length_printInteger {base value n : ℕ} (hb : 1 < base) (hn : 0 < n)
    (h : value < base ^ n) : (printInteger base value).length ≤ n := by
  rw [printInteger, length_map]
  exact length_integerDigits hb hn h

lemma length_colonWords (h : ∀ w ∈ words, w < 2 ^ 16) :
    (colonWords words).length ≤ 5 * words.length := by
  induction words with
  | nil => exact Nat.zero_le _
  | cons word words ih =>
    have hword : (printInteger 16 word).length ≤ 4 :=
      length_printInteger (by decide) (by decide) (h word (mem_cons_self ..))
    have hrest := ih fun w hw => h w (mem_cons_of_mem _ hw)
    rw [colonWords_cons, length_cons, length_append, length_cons]
    omega

lemma length_joinWords (h : ∀ w ∈ words, w < 2 ^ 16) :
    (joinWords words).length ≤ 5 * words.length := by
  cases words with
  | nil => exact Nat.zero_le _
  | cons word words =>
    have hcolon := length_colonWords h
    exact (Nat.le_succ _).trans hcolon

lemma length_dotted {a b c d : ℕ} (ha : a < 256) (hb : b < 256) (hc : c < 256) (hd : d < 256) :
    (dotted [a, b, c, d]).length ≤ 15 := by
  have hoctet : ∀ o < 256, (printInteger 10 o).length ≤ 3 := fun o ho =>
    length_printInteger (by decide) (by decide) (ho.trans (by decide))
  have := hoctet a ha
  have := hoctet b hb
  have := hoctet c hc
  have := hoctet d hd
  simp only [dotted, length_append, length_cons]
  omega

/-- Eight words. -/
lemma readAs_words (hcount : words.length = 8) (hwords : ∀ w ∈ words, w < 2 ^ 16) (ipv4 : Bytes) :
    ReadAs (formatWords none false ipv4 0 words) (wordBytes words) := by
  rw [formatWords_none]
  refine ⟨?_, fun rest hend => parseIPv6_words hcount hwords hend⟩
  have := length_joinWords hwords
  omega

include hbase hlen hcount in
/-- Words, `::` and words. -/
lemma readAs_run (hbefore : ∀ w ∈ before, w < 2 ^ 16)
    (hafter : ∀ w ∈ after, w < 2 ^ 16) (ipv4 : Bytes) :
    ReadAs (formatWords (some run) false ipv4 0 (before ++ List.replicate run.len 0 ++ after))
      (wordBytes (before ++ List.replicate run.len 0 ++ after)) := by
  rw [formatWords_run hbase hlen hcount, wordBytes_append, wordBytes_append, wordBytes_zeros]
  constructor
  · have h₁ := length_joinWords hbefore
    have h₂ := length_joinWords hafter
    rw [length_append, length_cons, length_cons]
    omega
  · intro rest hend
    rw [append_assoc, cons_append, cons_append, parseIPv6_run (by omega) hbefore hafter hend]
    have hzeros : 8 - (before.length + after.length) = run.len := by omega
    rw [hzeros]

/-- `::`, perhaps a word, and an IPv4 address. -/
lemma readAs_mixed {a b c d : UInt8} (hbase : run.base = 0)
    (hlen : 2 ≤ run.len) (hsix : run.len + between.length = 6)
    (hbetween : ∀ w ∈ between, w < 2 ^ 16) (hlast : wordBytes last = [a, b, c, d]) :
    ReadAs (formatWords (some run) true (dotted [a.toNat, b.toNat, c.toNat, d.toNat]) 0
        (List.replicate run.len 0 ++ (between ++ last)))
      (wordBytes (List.replicate run.len 0 ++ (between ++ last))) := by
  have hne : last ≠ [] := by
    rintro rfl
    cases hlast
  rw [formatWords_mixed hbase hlen hsix hne, wordBytes_append, wordBytes_append, wordBytes_zeros,
    hlast]
  constructor
  · have h₁ := length_colonWords hbetween
    have h₂ := length_dotted a.toNat_lt b.toNat_lt c.toNat_lt d.toNat_lt
    rw [length_cons, length_append, length_cons]
    omega
  · intro rest hend
    rw [cons_append, append_assoc, cons_append,
      parseIPv6_mixed (by omega) hbetween a.toNat_lt b.toNat_lt c.toNat_lt d.toNat_lt hend]
    have hzeros : 6 - between.length = run.len := by omega
    simp only [hzeros, ofNat_toNat, append_assoc]

lemma formatIPv4_tail (h : src.length = 16) (mask_string : Bytes) :
    ∃ a b c d : UInt8, src.drop 12 = [a, b, c, d] ∧
      formatIPv4 ((src.drop 12).take 4).reverse (min 0 4) mask_string =
        dotted [a.toNat, b.toNat, c.toNat, d.toNat] := by
  match hdrop : src.drop 12, (by rw [length_drop, h] : (src.drop 12).length = 4) with
  | [a, b, c, d], _ => exact ⟨a, b, c, d, rfl, formatIPv4_last a b c d mask_string⟩

/-- What has been printed is read back. -/
lemma readAs_formatIPv6 (h : src.length = 16) : ReadAs (formatIPv6 src 0) src := by
  obtain ⟨hcount, hbytes, hwords⟩ := @pairWords_spec src 8 h
  obtain ⟨a, b, c, d, hdrop, hipv4⟩ := formatIPv4_tail h [ch '0']
  rw [formatIPv6, addressWords_eq h, hipv4]
  cases hbest : bestRun (pairWords src) with
  | none => simpa only [hbytes, isEncapsulatedIPv4] using readAs_words hcount hwords _
  | some run =>
    obtain ⟨⟨before, after, hsplit, hbase⟩, hlen⟩ := bestRun_spec hbest
    have htotal : run.base + run.len + after.length = 8 := by
      rw [← hcount, hsplit, length_append, length_append, length_replicate, hbase]
    cases hencapsulated : isEncapsulatedIPv4 (pairWords src) (some run) with
    | false =>
      rw [hsplit] at hwords hbytes ⊢
      rw [← hbytes]
      refine readAs_run hbase hlen htotal (fun w hw => hwords w ?_) (fun w hw => hwords w ?_) _
      · exact mem_append_left _ (mem_append_left _ hw)
      · exact mem_append_right _ hw
    | true =>
      obtain ⟨hzero, hsix⟩ := isEncapsulatedIPv4_some hencapsulated
      obtain rfl : before = [] := length_eq_zero_iff.1 (hbase.trans hzero)
      -- what is after the run: perhaps the word `ffff`, and the words of the IPv4 address
      rw [nil_append, ← take_append_drop (6 - run.len) after] at hsplit
      have hlast : wordBytes (after.drop (6 - run.len)) = [a, b, c, d] := by
        rw [← hdrop, ← hbytes, hsplit, ← append_assoc, wordBytes_append, drop_left']
        rw [length_wordBytes, length_append, length_replicate, length_take]
        omega
      rw [hsplit] at hwords hbytes ⊢
      rw [← hbytes]
      refine readAs_mixed hzero hlen ?_ (fun w hw => hwords w ?_) hlast
      · rw [length_take]
        omega
      · exact mem_append_right _ (mem_append_left _ hw)

/-- **The text that `formatIPv6` writes of an address has at most 45 characters, and
`parseIPv6whole` reads the same sixteen bytes back**, from a buffer that ends with the text
and from a text that ends with a zero byte. -/
theorem formatIPv6_parseIPv6whole (address : Vector UInt8 16) :
    parseIPv6whole (formatIPv6 address.toList 0) = some address.toList ∧
      parseIPv6wholeTerminated (formatIPv6 address.toList 0 ++ [0]) = some address.toList ∧
      (formatIPv6 address.toList 0).length ≤ 45 := by
  obtain ⟨hlength, hread⟩ := readAs_formatIPv6 address.length_toList
  refine ⟨?_, ?_, hlength⟩
  · have hbuffer := hread [] (.inl rfl)
    rw [append_nil] at hbuffer
    rw [parseIPv6whole, hbuffer]
  · have hterminated := hread [0] (.inr rfl)
    rw [parseIPv6wholeTerminated, hterminated]
    rfl

end ClickHouse.IPAddress
