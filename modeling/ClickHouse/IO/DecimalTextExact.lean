/-
Which decimal texts `readDecimalText` reads exactly.

A text is its parts: the digits in front of the point, what follows each point, the exponent.
The state of the loop after some digits is a closed expression in them: in front of the point
the significant digits are the ones after the leading zeros; behind it the digits that are
kept are those within the precision, up to the last one that is not zero. One lemma per byte
extends the expression by that byte, and the rest is induction over the text.

What `readDecimalText` then does is one case distinction on three numbers: how many
significant digits there are in front of the point, the exponent, and how many digits behind
the point were kept. Where it gives a number the number is right, and the argument is about
the digits that were cut: after the scaling they are less than one. Where it gives an error
the error is right only if the value is too large, and that is the condition of the result.
-/
import ClickHouse.IO.ReadDecimalText

set_option autoImplicit false

namespace ClickHouse.DecimalText

open List Nat

/-! ## Texts and their values -/

/-- A decimal digit. -/
abbrev Digit := Fin 10

def digitChar (d : Digit) : Char := Nat.digitChar d.val

def digitByte (d : Digit) : UInt8 := ch (digitChar d)

/-- Digits as the text has them. -/
def digitBytes (ds : List Digit) : Bytes := ds.map digitByte

/-- A sign: `-`, `+` or nothing. -/
inductive Sign where
  | none
  | plus
  | minus
  deriving DecidableEq

def Sign.bytes : Sign → Bytes
  | .none => []
  | .plus => [ch '+']
  | .minus => [ch '-']

def Sign.factor : Sign → ℤ
  | .minus => -1
  | _ => 1

/-- The value of digits, the most significant first. -/
def natValue (ds : List Digit) : ℕ := ds.foldl (fun n d => 10 * n + d.val) 0

/-- An exponent: its letter, a sign, and at least one digit. -/
structure Exponent where
  letter : UInt8
  sign : Sign
  digits : List Digit
  letter_eq : letter = ch 'e' ∨ letter = ch 'E'
  digits_ne : digits ≠ []

/-- The letter, the sign and the digits. -/
def Exponent.bytes (e : Exponent) : Bytes := e.letter :: (e.sign.bytes ++ digitBytes e.digits)

def Exponent.value (e : Exponent) : ℤ := e.sign.factor * natValue e.digits

/-- A text of digits and points, with a sign and an exponent. The digits behind each point are
a piece; a number has at most one. -/
structure Text where
  sign : Sign
  integer : List Digit
  pieces : List (List Digit)
  exponent : Option Exponent
  has_digit : integer ≠ [] ∨ pieces.flatten ≠ []

namespace Text

variable (text : Text)

/-- The digits behind the points. -/
def fraction : List Digit := text.pieces.flatten

/-- The text has at most one point. -/
def IsNumber : Prop := text.pieces.length ≤ 1

instance : Decidable text.IsNumber := inferInstanceAs (Decidable (_ ≤ _))

/-- The digits and the points. -/
def mantissaBytes : Bytes :=
  digitBytes text.integer ++ text.pieces.flatMap fun piece => ch '.' :: digitBytes piece

def exponentBytes : Bytes := (text.exponent.map Exponent.bytes).getD []

/-- The text as it is read. -/
def bytes : Bytes := text.sign.bytes ++ (text.mantissaBytes ++ text.exponentBytes)

/-- No exponent is the exponent 0. -/
def exponentValue : ℤ := (text.exponent.map Exponent.value).getD 0

/-- The value of the text. -/
def value : ℚ :=
  text.sign.factor * (natValue (text.integer ++ text.fraction) *
    10 ^ (text.exponentValue - text.fraction.length))

end Text

/-- Truncation toward zero. -/
def truncate (q : ℚ) : ℤ := if 0 ≤ q then ⌊q⌋ else ⌈q⌉

/-! ## Digits -/

lemma digitByte_facts : ∀ d : Digit, digitByte d ≠ ch '.' ∧ (digitByte d = ch '0' ↔ d = 0) ∧
    isNumericASCII (digitByte d) = true ∧ (digitByte d - ch '0').toNat = d ∧
    digitByte d ≠ ch '-' ∧ digitByte d ≠ ch '+' := by
  decide

lemma natValue_snoc (ds : List Digit) (d : Digit) :
    natValue (ds ++ [d]) = 10 * natValue ds + d := by
  rw [natValue, foldl_append]
  rfl

lemma natValue_append (ds es : List Digit) :
    natValue (ds ++ es) = natValue ds * 10 ^ es.length + natValue es := by
  induction es using reverseRecOn with
  | nil => simp [natValue]
  | append_singleton es e ih =>
    rw [← append_assoc, natValue_snoc, ih, natValue_snoc, length_append, length_singleton, pow_succ]
    ring

lemma natValue_lt (ds : List Digit) : natValue ds < 10 ^ ds.length := by
  induction ds using reverseRecOn with
  | nil => exact one_pos
  | append_singleton ds d ih =>
    rw [natValue_snoc, length_append, length_singleton, pow_succ]
    omega

variable {ds : List Digit}

lemma natValue_zeros (h : ∀ d ∈ ds, d = 0) : natValue ds = 0 := by
  induction ds using reverseRecOn with
  | nil => rfl
  | append_singleton ds d ih =>
    rw [natValue_snoc, ih fun x hx => h x (mem_append_left _ hx),
      h d (mem_append_right _ (mem_singleton_self d))]
    rfl

/-- The digits after the leading zeros. -/
def significant (ds : List Digit) : List Digit := ds.dropWhile (· = 0)

lemma natValue_significant (ds : List Digit) : natValue (significant ds) = natValue ds := by
  have hzeros : ∀ d ∈ ds.takeWhile (· = 0), d = 0 := fun d hd => by
    simpa using mem_takeWhile_imp hd
  conv_rhs => rw [← takeWhile_append_dropWhile (p := fun d : Digit => decide (d = 0)) (l := ds),
    natValue_append, natValue_zeros hzeros]
  simp [significant]

/-- The digits behind the point that are within `room` places, up to the last one that is not
zero. -/
def kept (room : ℕ) (ds : List Digit) : List Digit := (ds.take room).rdropWhile (· = 0)

lemma significant_snoc_zero (h : significant ds = []) : significant (ds ++ [0]) = [] := by
  rw [significant, dropWhile_eq_nil_iff] at h ⊢
  intro d hd
  rcases mem_append.1 hd with hd | hd
  · exact h d hd
  · simpa using hd

variable {d : Digit}

lemma significant_snoc (h : d ≠ 0 ∨ significant ds ≠ []) :
    significant (ds ++ [d]) = significant ds ++ [d] := by
  rw [significant, dropWhile_append]
  split_ifs with hnil
  · have hds : significant ds = [] := isEmpty_iff.1 hnil
    simpa [hds] using h
  · rfl

lemma length_significant_le (ds es : List Digit) :
    (significant ds).length ≤ (significant (ds ++ es)).length := by
  rw [significant, significant, dropWhile_append]
  split_ifs with hnil
  · rw [isEmpty_iff.1 hnil]
    exact zero_le _
  · rw [length_append]
    exact le_add_right _ _

variable (room : ℕ)

lemma kept_nil : kept room [] = [] := by
  rw [kept, take_nil, rdropWhile_nil]

lemma length_kept_le (ds : List Digit) :
    (kept room ds).length ≤ room ∧ (kept room ds).length ≤ ds.length := by
  have h :=
    ( rdropWhile_prefix (p := fun d : Digit => decide (d = 0)) (l := ds.take room)).length_le
  rw [length_take] at h
  unfold kept
  omega

/-- The digits that are kept are followed by zeros, as far as the room goes. -/
lemma natValue_take (ds : List Digit) (before : List Digit) :
    natValue (before ++ ds.take room) =
      natValue (before ++ kept room ds) * 10 ^ ((ds.take room).length - (kept room ds).length) := by
  have hzeros : ∀ d ∈ (ds.take room).rtakeWhile (fun d => decide (d = 0)), d = 0 := fun d hd => by
    simpa using mem_rtakeWhile_imp hd
  have hsplit : ds.take room = kept room ds ++ (ds.take room).rtakeWhile fun d => decide (d = 0) :=
    (rdropWhile_append_rtakeWhile ..).symm
  have hlength := congrArg length hsplit
  rw [length_append] at hlength
  have hcount : (ds.take room).length - (kept room ds).length =
      ((ds.take room).rtakeWhile fun d => decide (d = 0)).length := by omega
  rw [hcount]
  nth_rewrite 1 [hsplit]
  rw [← append_assoc, natValue_append, natValue_zeros hzeros, add_zero]

/-- What is lost is the digits behind the room. -/
lemma natValue_kept (ds : List Digit) (before : List Digit) :
    natValue (before ++ ds) =
      natValue (before ++ kept room ds) * 10 ^ (ds.length - (kept room ds).length) +
        natValue (ds.drop room) := by
  have hlength := length_kept_le room ds
  have hexp : ds.length - (kept room ds).length =
      (ds.take room).length - (kept room ds).length + (ds.drop room).length := by
    rw [length_take, length_drop]
    omega
  conv_lhs => rw [← take_append_drop room ds, ← append_assoc]
  rw [natValue_append, natValue_take, hexp, pow_add, mul_assoc]

lemma kept_snoc_zero (ds : List Digit) : kept room (ds ++ [0]) = kept room ds := by
  rcases lt_or_ge ds.length room with h | h
  · rw [kept, kept, take_of_length_le (by simpa using h), take_of_length_le h.le]
    exact rdropWhile_concat_pos _ _ _ (by decide)
  · rw [kept, kept, take_append_of_le_length h]

lemma kept_snoc_of_le {room : ℕ} (h : room ≤ ds.length) (d : Digit) :
    kept room (ds ++ [d]) = kept room ds := by
  rw [kept, kept, take_append_of_le_length h]

lemma kept_snoc_of_lt {room : ℕ} (h : ds.length < room) (hd : d ≠ 0) :
    kept room (ds ++ [d]) = ds ++ [d] := by
  rw [kept, take_of_length_le (by simpa using h), rdropWhile_concat_neg _ _ _ (by simpa using hd)]

/-! ## The native type has room -/

lemma digits10_le (T : NativeType) : T.digits10 ≤ 76 := by
  cases T <;> decide

lemma pow_digits10_lt (T : NativeType) : 10 ^ T.digits10 < 2 ^ (T.bits - 1) := by
  cases T <;> decide

variable {T : NativeType}

lemma wrap_of_lt {z : ℤ} (hneg : -10 ^ T.digits10 < z) (hpos : z < 10 ^ T.digits10) :
    T.wrap z = z := by
  have hroom : (10 : ℤ) ^ T.digits10 < 2 ^ (T.bits - 1) := by exact_mod_cast pow_digits10_lt T
  have hbits : (2 : ℤ) ^ T.bits = 2 * 2 ^ (T.bits - 1) := by
    cases T <;> norm_num [NativeType.bits]
  refine Int.bmod_eq_of_le ?_ ?_
  · push_cast
    omega
  · push_cast
    omega

lemma wrap_natCast {n : ℕ} (h : n < 10 ^ T.digits10) : T.wrap (n : ℤ) = n := by
  have h' : (n : ℤ) < 10 ^ T.digits10 := by exact_mod_cast h
  exact wrap_of_lt (by omega) h'

lemma acceptDigit_x {v places digit : ℕ}
    (h : v * 10 ^ places + digit < 10 ^ T.digits10) (hplaces : places ≤ T.digits10) :
    T.wrap (T.wrap ((v : ℤ) * intExp10OfSize T places) + digit) =
      ((v * 10 ^ places + digit : ℕ) : ℤ) := by
  have hexp : (v : ℤ) * intExp10OfSize T places = ((v * 10 ^ places : ℕ) : ℤ) := by
    rw [intExp10OfSize, if_neg (by omega)]
    rfl
  rw [hexp, wrap_natCast (by omega), ← cast_add, wrap_natCast h]

/-! ## The digits in front of the point -/

section Loop

variable {T : NativeType} {P : ℕ} {digits_only : Bool}

/-- The state after digits in front of the point. -/
def integerState (ds : List Digit) : DigitsState where
  x := natValue ds
  digits := (significant ds).length
  leading_zeroes := (significant ds).isEmpty

variable (buf : Bytes)

/-- A digit that is not skipped. -/
lemma readDigitsLoop_digit {st : DigitsState}
    (h : d ≠ 0 ∨ st.leading_zeroes = false ∧ st.after_point = false) :
    readDigitsLoop T P digits_only st (digitByte d :: buf) =
      if (st.digits + (st.places + 1) % 2 ^ 32) % 2 ^ 32 > P then
        if st.after_point then
          readDigitsLoop T P digits_only
            { st with leading_zeroes := false, places := (st.places + 1) % 2 ^ 32 } buf
        else .error (.error (.tooManyDigits ((st.digits + (st.places + 1) % 2 ^ 32) % 2 ^ 32) P))
      else
        readDigitsLoop T P digits_only (acceptDigit T st ((st.places + 1) % 2 ^ 32) d) buf := by
  obtain ⟨hpoint, hzero, hnumeric, hvalue, -, -⟩ := digitByte_facts d
  have hnot : ∀ flag : Bool, d ≠ 0 ∨ flag = false →
      ¬(decide (digitByte d = ch '0') && flag) = true := by
    intro flag hflag
    rw [Bool.and_eq_true, decide_eq_true_eq, hzero]
    rintro ⟨rfl, rfl⟩
    exact hflag.elim (absurd rfl) (by decide)
  rw [readDigitsLoop, if_neg hpoint, if_neg (hnot _ (h.imp_right And.left)),
    if_neg (hnot _ (h.imp_right And.right)), if_pos hnumeric, hvalue]

/-- One more digit in front of the point. -/
lemma readDigitsLoop_integer_step (hP : P ≤ T.digits10) (hds : (significant ds).length ≤ P) :
    readDigitsLoop T P digits_only (integerState ds) (digitByte d :: buf) =
      if (significant (ds ++ [d])).length ≤ P then
        readDigitsLoop T P digits_only (integerState (ds ++ [d])) buf
      else .error (.error (.tooManyDigits (P + 1) P)) := by
  have hT := digits10_le T
  by_cases hskip : d = 0 ∧ significant ds = []
  · -- a leading zero is skipped
    obtain ⟨rfl, hnil⟩ := hskip
    have hsnoc := significant_snoc_zero hnil
    have hstate : integerState (ds ++ [0]) = integerState ds := by
      rw [integerState, integerState, hsnoc, hnil, ← natValue_significant (ds ++ [0]), hsnoc,
        ← natValue_significant ds, hnil]
    have hleading : (integerState ds).leading_zeroes = true := by
      rw [integerState, hnil]
      rfl
    rw [hsnoc, length_nil, if_pos (zero_le _), hstate, readDigitsLoop, if_neg (digitByte_facts 0).1,
      if_pos (by rw [hleading]; decide)]
  · have hne : d ≠ 0 ∨ significant ds ≠ [] := by
      by_contra hboth
      push Not at hboth
      exact hskip hboth
    have hsnoc := significant_snoc hne
    rw [readDigitsLoop_digit, hsnoc, length_append, length_singleton]
    · have hplaces : ((integerState ds).places + 1) % 2 ^ 32 = 1 := rfl
      have hdigits : ((integerState ds).digits + 1) % 2 ^ 32 = (significant ds).length + 1 :=
        mod_eq_of_lt (by show (significant ds).length + 1 < _; omega)
      rw [hplaces, hdigits]
      by_cases hle : (significant ds).length + 1 ≤ P
      · rw [if_neg (by omega), if_pos hle]
        congr 1
        -- the value has no more digits than the type can hold
        have hlt : natValue ds * 10 ^ 1 + d.val < 10 ^ T.digits10 := by
          have hvalue := natValue_lt (significant (ds ++ [d]))
          rw [natValue_significant, natValue_snoc, hsnoc, length_append, length_singleton] at hvalue
          have hpow : 10 ^ ((significant ds).length + 1) ≤ 10 ^ T.digits10 :=
            Nat.pow_le_pow_right (by decide) (by omega)
          omega
        have hx := acceptDigit_x hlt (by omega)
        refine DigitsState.ext ?_ ?_ rfl rfl ?_ rfl
        · have hvalue : natValue (ds ++ [d]) = natValue ds * 10 ^ 1 + d.val := by
            rw [natValue_snoc, pow_one, mul_comm]
          exact hx.trans (congrArg _ hvalue.symm)
        · have hlength : (significant (ds ++ [d])).length = (significant ds).length + 1 := by
            rw [hsnoc, length_append, length_singleton]
          exact hdigits.trans hlength.symm
        · show false = (significant (ds ++ [d])).isEmpty
          rw [hsnoc]
          simp
      · -- one digit more than the precision
        rw [if_pos (by omega), if_neg hle]
        have hP' : (significant ds).length = P := by omega
        rw [hP']
        rfl
    · exact hne.imp id fun hsome => ⟨isEmpty_eq_false_iff.2 hsome, rfl⟩

/-- **The digits in front of the point.** -/
theorem readDigitsLoop_integer (ds es : List Digit) (buf : Bytes) (hP : P ≤ T.digits10)
    (hds : (significant ds).length ≤ P) :
    readDigitsLoop T P digits_only (integerState ds) (digitBytes es ++ buf) =
      if (significant (ds ++ es)).length ≤ P then
        readDigitsLoop T P digits_only (integerState (ds ++ es)) buf
      else .error (.error (.tooManyDigits (P + 1) P)) := by
  induction es generalizing ds with
  | nil => rw [append_nil, if_pos hds]; rfl
  | cons d es ih =>
    have hbytes : digitBytes (d :: es) ++ buf = digitByte d :: (digitBytes es ++ buf) := rfl
    rw [hbytes, readDigitsLoop_integer_step _ hP hds]
    by_cases hle : (significant (ds ++ [d])).length ≤ P
    · rw [if_pos hle, ih _ hle, append_assoc, singleton_append]
    · have hlong := length_significant_le (ds ++ [d]) es
      rw [append_assoc, singleton_append] at hlong
      rw [if_neg hle, if_neg (by omega)]

/-! ## The digits behind the point -/

/-- The state behind the point: some digits were kept, and others were counted since. -/
def keptState (integer ds : List Digit) (places : ℕ) : DigitsState where
  x := natValue (integer ++ ds)
  digits := (significant integer).length + ds.length
  places := places
  exponent := -ds.length
  leading_zeroes := false
  after_point := true

lemma readDigitsLoop_point {integer : List Digit} :
    readDigitsLoop T P digits_only (integerState integer) (ch '.' :: buf) =
      readDigitsLoop T P digits_only (keptState integer [] 0) buf := by
  rw [readDigitsLoop, if_pos rfl]
  congr 1
  refine DigitsState.ext ?_ rfl rfl rfl rfl rfl
  rw [keptState, append_nil]
  rfl

/-- A point behind the point changes nothing. -/
lemma readDigitsLoop_another_point {integer ds : List Digit} {places : ℕ} :
    readDigitsLoop T P digits_only (keptState integer ds places) (ch '.' :: buf) =
      readDigitsLoop T P digits_only (keptState integer ds places) buf := by
  rfl

variable {integer ds : List Digit} {places : ℕ} {d : Digit}

lemma readDigitsLoop_count (hplaces : places + 1 < 2 ^ 32) :
    readDigitsLoop T P digits_only (keptState integer ds places) (digitByte 0 :: buf) =
      readDigitsLoop T P digits_only (keptState integer ds (places + 1)) buf := by
  have hleading : ¬(decide (digitByte 0 = ch '0') &&
      (keptState integer ds places).leading_zeroes) = true :=
    fun h => Bool.false_ne_true (Bool.and_eq_true_iff.1 h).2
  have hafter : (decide (digitByte 0 = ch '0') &&
      (keptState integer ds places).after_point) = true := rfl
  have hwrap : (places + 1) % 2 ^ 32 = places + 1 := mod_eq_of_lt hplaces
  rw [readDigitsLoop, if_neg (digitByte_facts 0).1, if_neg hleading, if_pos hafter]
  congr 1
  exact DigitsState.ext rfl rfl hwrap rfl rfl rfl

/-- A digit that is not zero is cut if there is no room for it. -/
lemma readDigitsLoop_nonzero (hd : d ≠ 0)
    (hlength : (significant integer).length + ds.length + (places + 1) < 2 ^ 32) :
    readDigitsLoop T P digits_only (keptState integer ds places) (digitByte d :: buf) =
      if P < (significant integer).length + ds.length + (places + 1) then
        readDigitsLoop T P digits_only (keptState integer ds (places + 1)) buf
      else readDigitsLoop T P digits_only
        (acceptDigit T (keptState integer ds places) (places + 1) d) buf := by
  have hwrap : ((keptState integer ds places).places + 1) % 2 ^ 32 = places + 1 :=
    mod_eq_of_lt (by show places + 1 < _; omega)
  have hdigits : ((keptState integer ds places).digits + (places + 1)) % 2 ^ 32 =
      (significant integer).length + ds.length + (places + 1) := mod_eq_of_lt hlength
  rw [readDigitsLoop_digit _ (.inl hd), hwrap, hdigits]
  exact if_congr Iff.rfl (if_pos rfl) rfl

/-- A digit other than 0 is accepted with the zeroes that were held back before it. -/
lemma readDigitsLoop_accept {more : List Digit} (hd : d ≠ 0) (hP : P ≤ T.digits10)
    (hroom : (significant integer).length + ds.length + (places + 1) ≤ P)
    (hlength : more.length = ds.length + (places + 1))
    (hvalue : natValue (integer ++ more) = natValue (integer ++ ds) * 10 ^ (places + 1) + d)
    (hlt : natValue (integer ++ more) < 10 ^ T.digits10) :
    readDigitsLoop T P digits_only (keptState integer ds places) (digitByte d :: buf) =
      readDigitsLoop T P digits_only (keptState integer more 0) buf := by
  have hT := digits10_le T
  rw [readDigitsLoop_nonzero buf hd (by omega), if_neg (by omega)]
  congr 1
  rw [hvalue] at hlt
  refine DigitsState.ext ?_ ?_ rfl ?_ rfl rfl
  · exact (acceptDigit_x hlt (by omega)).trans (congrArg _ hvalue.symm)
  · show ((significant integer).length + ds.length + (places + 1)) % 2 ^ 32 =
      (significant integer).length + more.length
    omega
  · show -(ds.length : ℤ) - ((places + 1 : ℕ) : ℤ) = -(more.length : ℤ)
    omega

/-- The state after digits behind the point. -/
def fractionState (P : ℕ) (integer ds : List Digit) : DigitsState :=
  keptState integer (kept (P - (significant integer).length) ds)
    (ds.length - (kept (P - (significant integer).length) ds).length)

lemma natValue_lt_digits10 (hP : P ≤ T.digits10)
    (hroom : (significant integer).length + ds.length ≤ P) :
    natValue (integer ++ ds) < 10 ^ T.digits10 := by
  have hvalue := natValue_lt (significant integer ++ ds)
  rw [natValue_append, natValue_significant, ← natValue_append, length_append] at hvalue
  exact hvalue.trans_le (Nat.pow_le_pow_right (by decide) (hroom.trans hP))

/-- One more digit behind the point. -/
lemma readDigitsLoop_fraction_step (hP : P ≤ T.digits10)
    (hinteger : (significant integer).length ≤ P)
    (hlength : (significant integer).length + ds.length + 1 < 2 ^ 32) :
    readDigitsLoop T P digits_only (fractionState P integer ds) (digitByte d :: buf) =
      readDigitsLoop T P digits_only (fractionState P integer (ds ++ [d])) buf := by
  have hkept := length_kept_le (P - (significant integer).length) ds
  unfold fractionState
  set room := P - (significant integer).length with hroom
  by_cases hd : d = 0
  · -- a zero is only counted: it is read together with the next other digit
    have hplaces : (ds ++ [0]).length - (kept room ds).length =
        ds.length - (kept room ds).length + 1 := by
      rw [length_append, length_singleton]
      omega
    rw [hd, kept_snoc_zero, hplaces]
    exact readDigitsLoop_count buf (by omega)
  rcases lt_or_ge ds.length room with hlt | hge
  · -- room is left: the digit is read with the zeros before it
    have hsnoc := kept_snoc_of_lt hlt hd
    rw [hsnoc, Nat.sub_self]
    have hvalue := natValue_take room ds integer
    rw [take_of_length_le (by omega)] at hvalue
    refine readDigitsLoop_accept buf hd hP (by omega) ?_ ?_ (natValue_lt_digits10 hP ?_)
    · rw [length_append, length_singleton]
      omega
    · rw [← append_assoc, natValue_snoc, hvalue, pow_succ]
      ring
    · rw [length_append, length_singleton]
      omega
  · -- no room is left, and the digit is counted like a zero
    have hplaces : (ds ++ [d]).length - (kept room ds).length =
        ds.length - (kept room ds).length + 1 := by
      rw [length_append, length_singleton]
      omega
    rw [kept_snoc_of_le hge, hplaces]
    exact (readDigitsLoop_nonzero buf hd (by omega)).trans (if_pos (by omega))

lemma readDigitsLoop_piece (es : List Digit) (buf : Bytes) (hP : P ≤ T.digits10)
    (hinteger : (significant integer).length ≤ P)
    (hlength : (significant integer).length + (ds.length + es.length) < 2 ^ 32) :
    readDigitsLoop T P digits_only (fractionState P integer ds) (digitBytes es ++ buf) =
      readDigitsLoop T P digits_only (fractionState P integer (ds ++ es)) buf := by
  induction es generalizing ds with
  | nil => rw [append_nil]; rfl
  | cons d es ih =>
    rw [length_cons] at hlength
    have hbytes : digitBytes (d :: es) ++ buf = digitByte d :: (digitBytes es ++ buf) := rfl
    rw [hbytes, readDigitsLoop_fraction_step _ hP hinteger (by omega), ih, append_assoc,
      singleton_append]
    rw [length_append, length_singleton]
    omega

/-- **The digits behind the points.** -/
theorem readDigitsLoop_pieces (pieces : List (List Digit)) (buf : Bytes) (hP : P ≤ T.digits10)
    (hinteger : (significant integer).length ≤ P)
    (hlength : (significant integer).length + (ds.length + pieces.flatten.length) < 2 ^ 32) :
    readDigitsLoop T P digits_only (fractionState P integer ds)
        (pieces.flatMap (fun piece => ch '.' :: digitBytes piece) ++ buf) =
      readDigitsLoop T P digits_only (fractionState P integer (ds ++ pieces.flatten)) buf := by
  induction pieces generalizing ds with
  | nil => rw [flatten_nil, append_nil]; rfl
  | cons piece pieces ih =>
    rw [flatten_cons, length_append] at hlength
    rw [flatMap_cons, append_assoc, cons_append, fractionState,
      readDigitsLoop_another_point, ← fractionState,
      readDigitsLoop_piece piece _ hP hinteger (by omega), ih, flatten_cons, append_assoc]
    rw [length_append]
    omega

end Loop

/-! ## The exponent -/

/-- A value of `Int32`. -/
def InInt32 (z : ℤ) : Prop := -2 ^ 31 ≤ z ∧ z < 2 ^ 31

instance (z : ℤ) : Decidable (InInt32 z) := inferInstanceAs (Decidable (_ ∧ _))

lemma digitChar_facts : ∀ d : Digit, (digitChar d).isDigit = true ∧
    (digitChar d).toNat - '0'.toNat = d.val := by
  decide

lemma ofDigitChars_digits (ds : List Digit) (n : ℕ) :
    ofDigitChars 10 (ds.map digitChar) n = ds.foldl (fun n d => 10 * n + d.val) n := by
  induction ds generalizing n with
  | nil => rfl
  | cons d ds ih =>
    rw [map_cons, ofDigitChars_cons, ih, (digitChar_facts d).2]
    rfl

lemma readIntTextLoop_digitBytes (T : IntType) (hne : ds ≠ []) (st : ReadIntState)
    (hst : st.res = 0) :
    readIntTextLoop T st (digitBytes ds) =
      if natValue ds ≤ T.limit st.negative then
        some ({ st with has_number := true, res := natValue ds }, [])
      else none := by
  have hbytes : digitBytes ds = (ds.map digitChar).map ch ++ [] := by
    rw [append_nil, map_map]
    rfl
  have hdigits : ∀ c ∈ ds.map digitChar, c.isDigit = true := fun c hc => by
    obtain ⟨d, -, rfl⟩ := mem_map.1 hc
    exact (digitChar_facts d).1
  rw [hbytes, readIntTextLoop_digits T hdigits (by simpa using hne), ofDigitChars_digits, hst]
  rfl

/-- **An exponent is read if it is a value of `Int32`.** -/
theorem tryReadIntText_exponent (e : Exponent) :
    tryReadIntText int32 (e.sign.bytes ++ digitBytes e.digits) =
      if InInt32 e.value then some (e.value, []) else none := by
  have hne : (e.sign.bytes ++ digitBytes e.digits).isEmpty = false := by
    simp [digitBytes, e.digits_ne]
  -- the loop after the sign
  have hloop : ∃ st : ReadIntState, st.res = 0 ∧ e.sign.factor = (if st.negative then -1 else 1) ∧
      readIntTextLoop int32 {} (e.sign.bytes ++ digitBytes e.digits) =
        readIntTextLoop int32 st (digitBytes e.digits) := by
    cases e.sign with
    | none => exact ⟨{}, rfl, rfl, rfl⟩
    | plus => exact ⟨{ has_sign := true }, rfl, rfl, rfl⟩
    | minus => exact ⟨{ negative := true, has_sign := true }, rfl, rfl, rfl⟩
  obtain ⟨st, hres, hfactor, hloop⟩ := hloop
  have hvalue : e.value = if st.negative then -(natValue e.digits : ℤ) else natValue e.digits := by
    rw [Exponent.value, hfactor]
    split_ifs <;> simp
  have hlimit : natValue e.digits ≤ int32.limit st.negative ↔ InInt32 e.value := by
    rw [hvalue]
    cases st.negative with
    | true =>
      show _ ≤ 2 ^ 31 ↔ InInt32 (-(natValue e.digits : ℤ))
      unfold InInt32
      omega
    | false =>
      show _ ≤ 2 ^ 31 - 1 ↔ InInt32 (natValue e.digits : ℤ)
      unfold InInt32
      omega
  rw [tryReadIntText, hne, if_neg Bool.false_ne_true, hloop,
    readIntTextLoop_digitBytes _ e.digits_ne _ hres]
  by_cases hin : InInt32 e.value
  · rw [if_pos (hlimit.2 hin), if_pos hin, hvalue]
    simp
  · rw [if_neg (hlimit.not.2 hin), if_neg hin]

section Reading

variable {T : NativeType} {P : ℕ} {digits_only : Bool}

lemma checkInt32_eq (z : ℤ) :
    checkInt32 z = if InInt32 z then .ok z else .error .signedOverflow := rfl

/-- The exponent ends the text. -/
lemma readDigitsLoop_exponent {st : DigitsState} (hst : InInt32 st.exponent) (text : Text) :
    readDigitsLoop T P digits_only st text.exponentBytes =
      if InInt32 text.exponentValue then
        if InInt32 (st.exponent + text.exponentValue) then
          .ok ({ st with exponent := st.exponent + text.exponentValue }, [])
        else .error .signedOverflow
      else .error (.error .cannotParseExponent) := by
  unfold Text.exponentBytes Text.exponentValue
  cases text.exponent with
  | none =>
    simp only [Option.map_none, Option.getD_none, Int.add_zero]
    rw [if_pos (by decide), if_pos hst]
    rfl
  | some e =>
    -- the letter is none of the characters that the branches before it test for
    have hletter : e.letter ≠ ch '.' ∧ e.letter ≠ ch '0' ∧ isNumericASCII e.letter = false ∧
        (decide (e.letter = ch 'e') || decide (e.letter = ch 'E')) = true := by
      rcases e.letter_eq with h | h <;> rw [h] <;> decide
    obtain ⟨hpoint, hzero, hnumeric, he⟩ := hletter
    have hread := tryReadIntText_exponent e
    simp only [Option.map_some, Option.getD_some, Exponent.bytes]
    rw [readDigitsLoop, if_neg hpoint, if_neg (by simp [hzero]), if_neg (by simp [hzero]),
      if_neg (by simp [hnumeric]), if_pos he, hread]
    split_ifs with hin hsum
    · simp only [checkInt32_eq, if_pos hsum]
      rfl
    · simp only [checkInt32_eq, if_neg hsum]
      rfl
    · rfl

/-! ## What is read -/

namespace Text

variable (text : Text)

/-- How many digits there are in front of the point, after leading zeros. -/
def integerDigits : ℕ := (significant text.integer).length

/-- The digits behind the point that are read. -/
def keptDigits (P : ℕ) : List Digit := kept (P - text.integerDigits) text.fraction

end Text

variable {text : Text}

lemma length_keptDigits_le (P : ℕ) (text : Text) :
    (text.keptDigits P).length ≤ P - text.integerDigits ∧
      (text.keptDigits P).length ≤ text.fraction.length :=
  length_kept_le _ _

variable (hP : P ≤ T.digits10) (hdigits : text.integerDigits ≤ P)

include hP hdigits in
lemma natValue_keptDigits_lt :
    natValue (text.integer ++ text.keptDigits P) < 10 ^ T.digits10 := by
  have hkept := length_keptDigits_le P text
  refine natValue_lt_digits10 hP ?_
  show text.integerDigits + (text.keptDigits P).length ≤ P
  omega

include hP hdigits in
/-- **The digits and the points.** -/
theorem readDigitsLoop_mantissa (hlength : text.integerDigits + text.fraction.length < 2 ^ 32) :
    ∃ st : DigitsState, st.x = natValue (text.integer ++ text.keptDigits P) ∧
      st.digits = text.integerDigits + (text.keptDigits P).length ∧
      st.exponent = -(text.keptDigits P).length ∧
      ∀ buf, readDigitsLoop T P digits_only {} (text.mantissaBytes ++ buf) =
        readDigitsLoop T P digits_only st buf := by
  have hinteger : ∀ buf, readDigitsLoop T P digits_only {} (digitBytes text.integer ++ buf) =
      readDigitsLoop T P digits_only (integerState text.integer) buf := fun buf =>
    (readDigitsLoop_integer [] text.integer buf hP (zero_le _)).trans (if_pos hdigits)
  cases hpieces : text.pieces with
  | nil =>
    -- no point
    have hkept : text.keptDigits P = [] := by
      rw [Text.keptDigits, Text.fraction, hpieces]
      exact kept_nil _
    refine ⟨integerState text.integer, ?_, ?_, ?_, fun buf => ?_⟩
    · rw [hkept, append_nil]
      rfl
    · rw [hkept]
      rfl
    · rw [hkept]
      rfl
    · rw [Text.mantissaBytes, hpieces, flatMap_nil, append_nil]
      exact hinteger buf
  | cons piece pieces =>
    -- digits behind one or more points
    have hfraction : text.fraction = piece ++ pieces.flatten := by
      rw [Text.fraction, hpieces, flatten_cons]
    rw [hfraction, length_append] at hlength
    refine ⟨fractionState P text.integer text.fraction, rfl, rfl, rfl, fun buf => ?_⟩
    have hstart : keptState text.integer [] 0 = fractionState P text.integer [] := by
      rw [fractionState, kept_nil]
      rfl
    rw [Text.mantissaBytes, hpieces, append_assoc, hinteger, flatMap_cons, append_assoc,
      cons_append, readDigitsLoop_point, hstart, readDigitsLoop_piece piece _ hP hdigits,
      readDigitsLoop_pieces pieces buf hP hdigits, nil_append, hfraction]
    · rw [nil_append]
      exact hlength
    · show text.integerDigits + (0 + piece.length) < _
      omega

lemma readSign_sign (hdigit : text.mantissaBytes ≠ []) (buf : Bytes) :
    readSign (text.sign.bytes ++ (text.mantissaBytes ++ buf)) =
      (text.sign.factor, text.mantissaBytes ++ buf) := by
  cases text.sign with
  | minus => rfl
  | plus => rfl
  | none =>
    -- without a sign the text begins with a digit or a point
    have hhead : ∀ c ∈ text.mantissaBytes.head?, c ≠ ch '-' ∧ c ≠ ch '+' := by
      unfold Text.mantissaBytes
      cases text.integer with
      | cons d ds =>
        rintro c ⟨⟩
        exact (digitByte_facts d).2.2.2.2
      | nil =>
        cases text.pieces with
        | nil => rintro c ⟨⟩
        | cons piece pieces =>
          rintro c ⟨⟩
          decide
    obtain ⟨c, cs, hcons⟩ := exists_cons_of_ne_nil hdigit
    rw [hcons] at hhead ⊢
    obtain ⟨hminus, hplus⟩ := hhead c rfl
    show (if c = ch '-' then _ else if c = ch '+' then _ else _) = _
    rw [if_neg hminus, if_neg hplus]
    rfl

lemma mantissaBytes_ne_nil (text : Text) : text.mantissaBytes ≠ [] := by
  unfold Text.mantissaBytes
  rcases text.has_digit with hinteger | hfraction
  · simp [digitBytes, hinteger]
  have hpieces : text.pieces ≠ [] := by
    intro hnil
    rw [hnil] at hfraction
    exact hfraction rfl
  obtain ⟨piece, pieces, hcons⟩ := exists_cons_of_ne_nil hpieces
  simp [hcons]

lemma bytes_ne_nil (text : Text) : text.bytes ≠ [] := by
  have hmantissa := mantissaBytes_ne_nil text
  intro hnil
  rw [Text.bytes, append_eq_nil_iff, append_eq_nil_iff] at hnil
  exact hmantissa hnil.2.1

include hP in
/-- Too many digits in front of the point. -/
lemma readDigits_tooMany (hdigits : P < text.integerDigits) :
    readDigits T text.bytes P digits_only = .error (.error (.tooManyDigits (P + 1) P)) := by
  have hmany : ¬(significant text.integer).length ≤ P := not_le.2 hdigits
  have hloop := @readDigitsLoop_integer T P digits_only [] text.integer
    (text.pieces.flatMap (fun piece => ch '.' :: digitBytes piece) ++ text.exponentBytes) hP
    (zero_le _)
  rw [nil_append, if_neg hmany, ← append_assoc] at hloop
  rw [readDigits, if_neg (bytes_ne_nil text), Text.bytes, readSign_sign (mantissaBytes_ne_nil text)]
  simp only
  have hstart : readDigitsLoop T P digits_only {} (text.mantissaBytes ++ text.exponentBytes) =
      .error (.error (.tooManyDigits (P + 1) P)) := hloop
  rw [hstart]
  rfl

include hP hdigits in
/-- **What `readDigits` reads.** -/
theorem readDigits_eq (hlength : text.integerDigits + text.fraction.length < 2 ^ 32) :
    readDigits T text.bytes P digits_only =
      if InInt32 text.exponentValue then
        if InInt32 (text.exponentValue - (text.keptDigits P).length) then
          .ok (text.sign.factor * natValue (text.integer ++ text.keptDigits P),
            text.integerDigits + (text.keptDigits P).length,
            text.exponentValue - (text.keptDigits P).length, [])
        else .error .signedOverflow
      else .error (.error .cannotParseExponent) := by
  have hT := digits10_le T
  have hkept := length_keptDigits_le P text
  obtain ⟨st, hx, hst, hexponent, hloop⟩ := @readDigitsLoop_mantissa T P digits_only text hP
    hdigits hlength
  -- the sign is applied at the end, in a type that has room for it
  have hwrap : T.wrap (st.x * text.sign.factor) =
      text.sign.factor * natValue (text.integer ++ text.keptDigits P) := by
    have hlt' : ((natValue (text.integer ++ text.keptDigits P) : ℕ) : ℤ) < 10 ^ T.digits10 := by
      exact_mod_cast natValue_keptDigits_lt hP hdigits
    rw [hx, mul_comm]
    refine wrap_of_lt ?_ ?_
    · cases text.sign <;> simp only [Sign.factor] <;> omega
    · cases text.sign <;> simp only [Sign.factor] <;> omega
  have hin : InInt32 st.exponent := by
    unfold InInt32
    omega
  rw [readDigits, if_neg (bytes_ne_nil text), Text.bytes, readSign_sign (mantissaBytes_ne_nil text)]
  simp only
  have hsum : st.exponent + text.exponentValue =
      text.exponentValue - (text.keptDigits P).length := by
    rw [hexponent]
    ring
  rw [hloop, readDigitsLoop_exponent hin, hsum]
  split_ifs
  · simp only [Except.map, hwrap, hst]
  · rfl
  · rfl

end Reading

/-! ## Exactness -/

/-- The quotient of a number by a power of ten. -/
lemma floor_natCast_div_pow (M t : ℕ) : ⌊(M : ℚ) / 10 ^ t⌋ = ((M / 10 ^ t : ℕ) : ℤ) := by
  have h := Rat.floor_natCast_div_natCast M (10 ^ t)
  exact_mod_cast h

section Exact

variable {P S : ℕ} {text : Text}

/-- The value without its sign, at the scale. -/
def scaled (text : Text) (S : ℕ) : ℚ :=
  natValue (text.integer ++ text.fraction) * 10 ^ (text.exponentValue - text.fraction.length) *
    10 ^ S

/-- **The digits that are cut do not matter**: less than one unit of the last digit that was
read is lost, and less than one at the scale. -/
theorem floor_scaled (hdigits : text.integerDigits ≤ P)
    (hfits : text.integerDigits + text.exponentValue + S ≤ P) :
    ⌊scaled text S⌋ =
      if S + (text.exponentValue - (text.keptDigits P).length) < 0 then
        ((natValue (text.integer ++ text.keptDigits P) /
          10 ^ (-(S + (text.exponentValue - (text.keptDigits P).length))).toNat : ℕ) : ℤ)
      else
        ((natValue (text.integer ++ text.keptDigits P) *
          10 ^ (S + (text.exponentValue - (text.keptDigits P).length)).toNat : ℕ) : ℤ) := by
  have hkept := length_keptDigits_le P text
  have hcut := natValue_lt (text.fraction.drop (P - text.integerDigits))
  rw [length_drop] at hcut
  unfold scaled
  set e := text.exponentValue
  set f := text.fraction.length
  set c := (text.keptDigits P).length
  set x := natValue (text.integer ++ text.keptDigits P)
  set R := natValue (text.fraction.drop (P - text.integerDigits))
  have hvalue : natValue (text.integer ++ text.fraction) = x * 10 ^ (f - c) + R :=
    natValue_kept (P - text.integerDigits) text.fraction text.integer
  have hten : (10 : ℚ) ≠ 0 := by norm_num
  rw [hvalue]
  split_ifs with hneg
  · -- fewer digits are wanted than were read
    have hR : R < 10 ^ (f - c) := hcut.trans_le (Nat.pow_le_pow_right (by decide) (by omega))
    have hpow : (10 : ℚ) ^ (e - f) * 10 ^ S =
        1 / 10 ^ ((f - c) + (-((S : ℤ) + (e - c))).toNat) := by
      rw [← zpow_natCast (10 : ℚ) S, ← zpow_add₀ hten, one_div, ← zpow_natCast, ← zpow_neg]
      congr 1
      omega
    rw [mul_assoc, hpow, mul_one_div, floor_natCast_div_pow, pow_add, ← Nat.div_div_eq_div_mul,
      mul_comm x, mul_add_div (Nat.pow_pos (by decide)), div_eq_of_lt hR, add_zero]
  · -- all that was read is wanted
    set n := ((S : ℤ) + (e - c)).toNat with hn
    have hR : R * 10 ^ n < 10 ^ (f - c) := by
      rcases lt_or_ge f (P - text.integerDigits) with hshort | hlong
      · have hzero : R = 0 := by
          rw [Nat.sub_eq_zero_of_le hshort.le, pow_zero] at hcut
          omega
        rw [hzero, zero_mul]
        exact Nat.pow_pos (by decide)
      · calc R * 10 ^ n ≤ R * 10 ^ (P - text.integerDigits - c) :=
              mul_le_mul_left _ (Nat.pow_le_pow_right (by decide) (by omega))
          _ < 10 ^ (f - (P - text.integerDigits)) * 10 ^ (P - text.integerDigits - c) :=
              mul_lt_mul_of_pos_right hcut (Nat.pow_pos (by decide))
          _ = 10 ^ (f - c) := by
              rw [← pow_add]
              congr 1
              omega
    have hpow : (10 : ℚ) ^ (e - f) * 10 ^ S = 10 ^ n / 10 ^ (f - c) := by
      rw [← zpow_natCast (10 : ℚ) S, ← zpow_add₀ hten, div_eq_mul_inv, ← zpow_natCast,
        ← zpow_natCast,
        ← zpow_neg, ← zpow_add₀ hten]
      congr 1
      omega
    have hcast : ((x * 10 ^ (f - c) + R : ℕ) : ℚ) * (10 ^ n / 10 ^ (f - c)) =
        (((x * 10 ^ (f - c) + R) * 10 ^ n : ℕ) : ℚ) / 10 ^ (f - c) := by
      push_cast
      ring
    have hsplit : (x * 10 ^ (f - c) + R) * 10 ^ n = 10 ^ (f - c) * (x * 10 ^ n) + R * 10 ^ n := by
      ring
    rw [mul_assoc, hpow, hcast, floor_natCast_div_pow, hsplit,
      mul_add_div (Nat.pow_pos (by decide)), div_eq_of_lt hR, add_zero]

lemma value_mul (text : Text) (S : ℕ) : text.value * 10 ^ S = text.sign.factor * scaled text S := by
  rw [Text.value, scaled]
  ring

lemma scaled_nonneg (text : Text) (S : ℕ) : 0 ≤ scaled text S := by
  unfold scaled
  positivity

lemma truncate_sign (sign : Sign) {q : ℚ} (h : 0 ≤ q) :
    truncate (sign.factor * q) = sign.factor * ⌊q⌋ := by
  cases sign with
  | none => simp [Sign.factor, truncate, h]
  | plus => simp [Sign.factor, truncate, h]
  | minus =>
    simp only [Sign.factor, truncate, Int.cast_neg, Int.cast_one, neg_mul, one_mul, Int.ceil_neg]
    split_ifs with hneg
    · have hzero : q = 0 := le_antisymm (by linarith) h
      simp [hzero]
    · rfl

/-- The value is less than its digits in front of the point allow. -/
lemma abs_value_lt (text : Text) :
    |text.value| < (10 : ℚ) ^ (text.integerDigits + text.exponentValue : ℤ) := by
  have hlt := natValue_lt (significant text.integer ++ text.fraction)
  rw [natValue_append, natValue_significant, ← natValue_append, length_append] at hlt
  have hcast : ((natValue (text.integer ++ text.fraction) : ℕ) : ℚ) <
      10 ^ (text.integerDigits + text.fraction.length) := by exact_mod_cast hlt
  have hten : (10 : ℚ) ≠ 0 := by norm_num
  have hfactor : |((text.sign.factor : ℤ) : ℚ)| = 1 := by
    cases text.sign <;> simp [Sign.factor]
  have hpos : (0 : ℚ) < 10 ^ (text.exponentValue - text.fraction.length : ℤ) := by positivity
  have hsum : (10 : ℚ) ^ (text.integerDigits + text.exponentValue : ℤ) =
      10 ^ (text.integerDigits + text.fraction.length) *
        10 ^ (text.exponentValue - text.fraction.length : ℤ) := by
    rw [← zpow_natCast, ← zpow_add₀ hten]
    congr 1
    push_cast
    ring
  rw [Text.value, abs_mul, hfactor, one_mul, abs_of_nonneg (by positivity), hsum]
  exact mul_lt_mul_of_pos_right hcast hpos

variable {T : NativeType} {digits_only : Bool}

lemma tdiv_sign (sign : Sign) (x y : ℕ) :
    (sign.factor * (x : ℤ)).tdiv y = sign.factor * ((x / y : ℕ) : ℤ) := by
  cases sign <;> simp [Sign.factor, Int.neg_tdiv]

/-- The digits of the text are few enough for the counters, its type has the precision, and the
scale is within the precision. -/
structure Readable (T : NativeType) (P S : ℕ) (text : Text) : Prop where
  precision : P ≤ T.digits10
  scale : S ≤ P
  digits : text.integerDigits + text.fraction.length < 2 ^ 32

section

variable (h : Readable T P S text)
include h

lemma Readable.int32_needed : ((P - S : ℕ) : ℤ) < 2 ^ 31 := by
  have hT := digits10_le T
  have := h.precision
  omega

omit h in
/-- The digits that are needed in front of the point. -/
lemma needed_eq : ((text.integerDigits + (text.keptDigits P).length : ℕ) : ℤ) +
    (text.exponentValue - (text.keptDigits P).length) =
      text.integerDigits + text.exponentValue := by
  push_cast
  ring

/-- **A number is exact**, if there is room for the digits in front of the point. -/
theorem readDecimalText_exact (hdigits : text.integerDigits ≤ P)
    (hexponent : InInt32 text.exponentValue)
    (hfits : text.integerDigits + text.exponentValue ≤ (P - S : ℕ))
    (hsmall : -2 ^ 31 < text.exponentValue - (text.keptDigits P).length) :
    ∃ x scale, readDecimalText T text.bytes P S digits_only = .ok (x, scale, []) ∧
      x * 10 ^ scale = truncate (text.value * 10 ^ S) := by
  have hint := h.int32_needed
  have hP := h.precision
  have hS := h.scale
  have hlt : natValue (text.integer ++ text.keptDigits P) < 10 ^ T.digits10 :=
    natValue_keptDigits_lt hP hdigits
  have hfloor := @floor_scaled P S text hdigits (by omega)
  have hread := @readDigits_eq T P digits_only text hP hdigits h.digits
  rw [if_pos hexponent, if_pos (by unfold InInt32 at *; omega)] at hread
  have hneeded : checkInt32 (((text.integerDigits + (text.keptDigits P).length : ℕ) : ℤ) +
      (text.exponentValue - (text.keptDigits P).length)) =
        .ok (text.integerDigits + text.exponentValue) := by
    rw [needed_eq, checkInt32_eq, if_pos (by unfold InInt32 at *; omega)]
  rw [value_mul, truncate_sign _ (scaled_nonneg text S), hfloor]
  unfold readDecimalText
  simp only [hread, hneeded, bind, Except.bind]
  rw [if_neg (by omega)]
  split_ifs with hneg
  · -- more digits were read than the scale has, and the rest is cut
    set e := text.exponentValue - (text.keptDigits P).length
    have hnegated : checkInt32 (-e) = .ok (-e) := by
      rw [checkInt32_eq, if_pos (by unfold InInt32; omega)]
    simp only [hnegated]
    set t := (-(S + e)).toNat with ht
    have hdivisor : -e - S = t := by omega
    rw [hdivisor]
    by_cases hlarge : T.digits10 ≤ t
    · -- all digits that were read are cut
      refine ⟨0, 0, if_pos (by exact_mod_cast hlarge), ?_⟩
      rw [div_eq_of_lt (hlt.trans_le (Nat.pow_le_pow_right (by decide) hlarge))]
      simp
    · refine ⟨_, 0, if_neg (by exact_mod_cast hlarge), ?_⟩
      rw [Int.toNat_natCast, intExp10OfSize, if_neg (by omega), pow_zero, mul_one]
      exact_mod_cast tdiv_sign text.sign (natValue (text.integer ++ text.keptDigits P)) (10 ^ t)
  · refine ⟨_, _, rfl, ?_⟩
    push_cast
    ring

/-- Each way in which nothing is read. -/
lemma readDecimalText_tooMany (hdigits : P < text.integerDigits) :
    ∃ e, readDecimalText T text.bytes P S digits_only = .error (.error e) := by
  refine ⟨.tooManyDigits (P + 1) P, ?_⟩
  rw [readDecimalText, readDigits_tooMany h.precision hdigits]
  rfl

lemma readDecimalText_badExponent (hdigits : text.integerDigits ≤ P)
    (hexponent : ¬InInt32 text.exponentValue) :
    ∃ e, readDecimalText T text.bytes P S digits_only = .error (.error e) := by
  refine ⟨.cannotParseExponent, ?_⟩
  rw [readDecimalText, readDigits_eq h.precision hdigits h.digits, if_neg hexponent]
  rfl

lemma readDecimalText_overflow (hdigits : text.integerDigits ≤ P)
    (hexponent : InInt32 text.exponentValue)
    (hover : ¬InInt32 (text.exponentValue - (text.keptDigits P).length)) :
    readDecimalText T text.bytes P S digits_only = .error .signedOverflow := by
  rw [readDecimalText, readDigits_eq h.precision hdigits h.digits, if_pos hexponent, if_neg hover]
  rfl

end

/-- What is left of `readDecimalText` after the digits are read. -/
lemma readDecimalText_checks (h : Readable T P S text) (hdigits : text.integerDigits ≤ P)
    (hexponent : InInt32 text.exponentValue)
    (hin : InInt32 (text.exponentValue - (text.keptDigits P).length)) :
    (2 ^ 31 ≤ text.integerDigits + text.exponentValue →
      readDecimalText T text.bytes P S digits_only = .error .signedOverflow) ∧
    (text.integerDigits + text.exponentValue < 2 ^ 31 →
      (P - S : ℕ) < text.integerDigits + text.exponentValue →
      ∃ e, readDecimalText T text.bytes P S digits_only = .error (.error e)) ∧
    (text.integerDigits + text.exponentValue ≤ (P - S : ℕ) →
      text.exponentValue - (text.keptDigits P).length = -2 ^ 31 →
      readDecimalText T text.bytes P S digits_only = .error .signedOverflow) := by
  have hP := h.precision
  have hT := digits10_le T
  have hread := @readDigits_eq T P digits_only text hP hdigits h.digits
  rw [if_pos hexponent, if_pos hin] at hread
  unfold readDecimalText
  simp only [hread, needed_eq, checkInt32_eq, bind, Except.bind]
  refine ⟨fun hbig => ?_, fun hlt hgt => ?_, fun hle heq => ?_⟩
  · rw [if_neg (by unfold InInt32; omega)]
  · rw [if_pos (by unfold InInt32 at *; omega)]
    simp only
    rw [if_pos hgt]
    exact ⟨_, rfl⟩
  · rw [if_pos (by unfold InInt32 at *; omega)]
    simp only
    rw [if_neg (by omega), if_pos (by have := h.scale; omega), heq, if_neg (by decide)]

/-- The value has more digits in front of the point than the precision and the scale leave. -/
def TooBig (P S : ℕ) (text : Text) : Prop := (10 : ℚ) ^ (P - S) ≤ |text.value|

lemma TooBig.lt (hbig : TooBig P S text) :
    ((P - S : ℕ) : ℤ) < text.integerDigits + text.exponentValue := by
  have hlt := lt_of_le_of_lt hbig (abs_value_lt text)
  exact (zpow_lt_zpow_iff_right₀ (by norm_num : (1 : ℚ) < 10)).1 hlt

/-- A number is read exactly or refused because it is too large; a text with a second point
is refused. -/
def ReadCorrectly (T : NativeType) (P S : ℕ) (digits_only : Bool) (text : Text) : Prop :=
  if text.IsNumber then
    (∃ e, readDecimalText T text.bytes P S digits_only = .error (.error e) ∧ TooBig P S text) ∨
      ∃ x scale, readDecimalText T text.bytes P S digits_only = .ok (x, scale, []) ∧
        x * 10 ^ scale = truncate (text.value * 10 ^ S)
  else ∃ e, readDecimalText T text.bytes P S digits_only = .error (.error e)

/-- A text is refused. -/
def Refused (P S : ℕ) (text : Text) : Prop :=
  P < text.integerDigits ∨ ¬InInt32 text.exponentValue ∨
    (P - S : ℕ) < text.integerDigits + text.exponentValue ∧
      text.integerDigits + text.exponentValue < 2 ^ 31

/-- A text is read. -/
def Accepted (P S : ℕ) (text : Text) : Prop :=
  text.integerDigits ≤ P ∧ InInt32 text.exponentValue ∧
    text.integerDigits + text.exponentValue ≤ (P - S : ℕ) ∧
    -2 ^ 31 < text.exponentValue - (text.keptDigits P).length

/-- When it is so: a number that is too large must be refused before a sum overflows. -/
def CorrectCondition (P S : ℕ) (text : Text) : Prop :=
  if text.IsNumber then
    TooBig P S text ∧ (text.integerDigits ≤ P → InInt32 text.exponentValue →
        text.integerDigits + text.exponentValue < 2 ^ 31) ∨
      Accepted P S text
  else Refused P S text

/-- A sum overflows. -/
def Overflows (P S : ℕ) (text : Text) : Prop :=
  text.integerDigits ≤ P ∧ InInt32 text.exponentValue ∧
    (2 ^ 31 ≤ text.integerDigits + text.exponentValue ∨
      text.integerDigits + text.exponentValue ≤ (P - S : ℕ) ∧
        text.exponentValue - (text.keptDigits P).length ≤ -2 ^ 31)

lemma Accepted.not_refused (h : Accepted P S text) : ¬Refused P S text := by
  unfold Accepted Refused at *
  unfold InInt32 at *
  omega

lemma Overflows.not_refused (h : Overflows P S text) : ¬Refused P S text := by
  unfold Overflows Refused at *
  unfold InInt32 at *
  omega

lemma Overflows.not_accepted (h : Overflows P S text) (hint : ((P - S : ℕ) : ℤ) < 2 ^ 31) :
    ¬Accepted P S text := by
  unfold Overflows Accepted at *
  omega

/-- What `readDecimalText` can do with a text, and when. -/
lemma readDecimalText_cases (h : Readable T P S text) (digits_only : Bool) :
    ((∃ e, readDecimalText T text.bytes P S digits_only = .error (.error e)) ∧ Refused P S text) ∨
    ((∃ x scale, readDecimalText T text.bytes P S digits_only = .ok (x, scale, []) ∧
        x * 10 ^ scale = truncate (text.value * 10 ^ S)) ∧ Accepted P S text) ∨
    (readDecimalText T text.bytes P S digits_only = .error .signedOverflow ∧
      Overflows P S text) := by
  have hT := digits10_le T
  have hP := h.precision
  have hkept := length_keptDigits_le P text
  -- the checks in the order in which the code makes them
  rcases lt_or_ge P text.integerDigits with hmany | hdigits
  · exact .inl ⟨readDecimalText_tooMany h hmany, .inl hmany⟩
  by_cases hexponent : InInt32 text.exponentValue
  swap
  · exact .inl ⟨readDecimalText_badExponent h hdigits hexponent, .inr (.inl hexponent)⟩
  by_cases hin : InInt32 (text.exponentValue - (text.keptDigits P).length)
  swap
  · refine .inr (.inr ⟨readDecimalText_overflow h hdigits hexponent hin, hdigits, hexponent,
      .inr ?_⟩)
    unfold InInt32 at *
    omega
  obtain ⟨hbig, herror, hsmall⟩ :=
    @readDecimalText_checks P S text T digits_only h hdigits hexponent hin
  rcases lt_or_ge (text.integerDigits + text.exponentValue) (2 ^ 31) with hlt | hge
  swap
  · exact .inr (.inr ⟨hbig hge, hdigits, hexponent, .inl hge⟩)
  rcases lt_or_ge ((P - S : ℕ) : ℤ) (text.integerDigits + text.exponentValue) with hgt | hle
  · exact .inl ⟨herror hlt hgt, .inr (.inr ⟨hgt, hlt⟩)⟩
  by_cases heq : text.exponentValue - (text.keptDigits P).length = -2 ^ 31
  · exact .inr (.inr ⟨hsmall hle heq, hdigits, hexponent, .inr ⟨hle, heq.le⟩⟩)
  · have hneg : -2 ^ 31 < text.exponentValue - (text.keptDigits P).length := by
      unfold InInt32 at hin
      omega
    exact .inr (.inl ⟨readDecimalText_exact h hdigits hexponent hle hneg, hdigits, hexponent,
      hle, hneg⟩)

/-- **When `readDecimalText` is right.** For every native type, precision, scale and text: a
number is read exactly, or refused because it is too large, and a text with a second point is
refused, exactly if the condition holds. -/
theorem readDecimalText_correct_iff (T : NativeType) (P S : ℕ) (digits_only : Bool) (text : Text)
    (h : Readable T P S text) :
    ReadCorrectly T P S digits_only text ↔ CorrectCondition P S text := by
  unfold ReadCorrectly CorrectCondition
  rcases readDecimalText_cases h digits_only with
    ⟨⟨e, herror⟩, hrefused⟩ | ⟨⟨x, scale, hok, hexact⟩, haccepted⟩ | ⟨hover, hwhen⟩
  · rw [herror]
    split_ifs with hnumber
    · constructor
      · rintro (⟨e', -, hbig⟩ | ⟨x, scale, heq, -⟩)
        · refine .inl ⟨hbig, fun hdigits hexponent => ?_⟩
          rcases hrefused with hmany | hbad | ⟨-, hlt⟩
          · omega
          · exact absurd hexponent hbad
          · exact hlt
        · cases heq
      · rintro (⟨hbig, -⟩ | haccepted)
        · exact .inl ⟨e, rfl, hbig⟩
        · exact absurd hrefused (Accepted.not_refused haccepted)
    · exact ⟨fun _ => hrefused, fun _ => ⟨e, rfl⟩⟩
  · rw [hok]
    split_ifs with hnumber
    · exact ⟨fun _ => .inr haccepted, fun _ => .inr ⟨x, scale, rfl, hexact⟩⟩
    · refine ⟨?_, fun hrefused => absurd hrefused haccepted.not_refused⟩
      rintro ⟨e, ⟨⟩⟩
  · rw [hover]
    split_ifs with hnumber
    · constructor
      · rintro (⟨e, ⟨⟩, -⟩ | ⟨x, scale, ⟨⟩, -⟩)
      · rintro (⟨hbig, hlt⟩ | haccepted)
        · -- a value that is too large needs more digits than there are
          exact absurd (.inr (.inr ⟨hbig.lt, hlt hwhen.1 hwhen.2.1⟩)) hwhen.not_refused
        · exact absurd haccepted (hwhen.not_accepted h.int32_needed)
    · refine ⟨?_, fun hrefused => absurd hrefused hwhen.not_refused⟩
      rintro ⟨e, ⟨⟩⟩

/-- `-12.345` at precision 9 and scale 2. -/
theorem readDecimalText_correct_at_negative :
    Readable .Int32 9 2 ⟨.minus, [1, 2], [[3, 4, 5]], none, by decide⟩ ∧
      ReadCorrectly .Int32 9 2 true ⟨.minus, [1, 2], [[3, 4, 5]], none, by decide⟩ := by
  have hreadable : Readable .Int32 9 2 ⟨.minus, [1, 2], [[3, 4, 5]], none, by decide⟩ :=
    ⟨by decide, by decide, by decide⟩
  refine ⟨hreadable, (readDecimalText_correct_iff .Int32 9 2 true _ hreadable).2 ?_⟩
  exact (if_pos (by decide)).mpr (.inr ⟨by decide, by decide, by decide, by decide⟩)

/-- `1.2.3` is read as 1.23, and `0e9` is refused as too large a number for the precision 9 and
the scale 2. -/
theorem readDecimalText_second_point_and_zero :
    readDecimalText .Int32 (Text.mk .none [1] [[2], [3]] none (by decide)).bytes 9 2 true =
        .ok (123, 0, []) ∧
      ¬ReadCorrectly .Int32 9 2 true ⟨.none, [1], [[2], [3]], none, by decide⟩ ∧
      readDecimalText .Int32 (Text.mk .none [0] [] (some ⟨ch 'e', .none, [9], .inl rfl, by decide⟩)
          (by decide)).bytes 9 2 true = .error (.error (.tooBig 0 0 9 2 9)) ∧
      ¬ReadCorrectly .Int32 9 2 true
        ⟨.none, [0], [], some ⟨ch 'e', .none, [9], .inl rfl, by decide⟩, by decide⟩ := by
  have hpoint :
      readDecimalText .Int32 (Text.mk .none [1] [[2], [3]] none (by decide)).bytes 9 2 true =
      .ok (123, 0, []) := rfl
  have hzero : readDecimalText .Int32 (Text.mk .none [0] []
      (some ⟨ch 'e', .none, [9], .inl rfl, by decide⟩) (by decide)).bytes 9 2 true =
        .error (.error (.tooBig 0 0 9 2 9)) := by decide
  refine ⟨hpoint, fun h => ?_, hzero, fun h => ?_⟩
  · obtain ⟨e, herror⟩ := (if_neg (by decide)).mp h
    cases herror
  rcases (if_pos (by decide)).mp h with ⟨e, -, hbig⟩ | ⟨x, scale, hok, -⟩
  · have hvalue : (Text.mk .none [0] [] (some ⟨ch 'e', .none, [9], .inl rfl, by decide⟩)
        (by decide)).value = 0 := by
      simp [Text.value, natValue, Text.fraction]
    rw [TooBig, hvalue, abs_zero] at hbig
    norm_num at hbig
  · rw [hzero] at hok
    cases hok

end Exact

end ClickHouse.DecimalText
