/-
Conversion between radices in a buffer of digits, and reversal in place.

The buffer holds the digits of a number, the least significant first, with no zero at the
end: it is `Nat.digits` of the number. To multiply by `m` and to add a carry is to walk the
buffer once and to push what is left of the carry, and the result is again `Nat.digits`,
of the new number. So a whole conversion is one equation, and that two conversions are
inverse is what Mathlib has about `Nat.digits` and `Nat.ofDigits`.

A reversal in place exchanges the two ends and works inwards. After `n` exchanges the outer
`n` places at either end are final, which is an invariant about each place.
-/
import Mathlib

set_option autoImplicit false

namespace ClickHouse.Lib

open List Nat

/-! ## Radix conversion -/

/-- Multiply the digits by `m` in radix `b`, and add the carry. -/
def mulAdd (b m : ℕ) : List ℕ → ℕ → List ℕ
  | [], carry => Nat.digits b carry
  | d :: digits, carry => (carry + m * d) % b :: mulAdd b m digits ((carry + m * d) / b)

variable {b m : ℕ}

/-- The buffer of a number becomes the buffer of the new number. -/
lemma mulAdd_digits (hb : 1 < b) (hm : 0 < m) (n carry : ℕ) :
    mulAdd b m (digits b n) carry = digits b (m * n + carry) := by
  induction n using Nat.strongRecOn generalizing carry with
  | ind n ih =>
    rcases Nat.eq_zero_or_pos n with rfl | hn
    · rw [digits_zero, mulAdd, mul_zero, zero_add]
    have hpos : 0 < m * n + carry := Nat.add_pos_left (mul_pos hm hn) _
    -- the lowest digit and the rest of the new number
    have hsplit : m * n + carry = carry + m * (n % b) + b * (m * (n / b)) := by
      conv_lhs => rw [← mod_add_div n b]
      ring
    rw [digits_def' hb hn, mulAdd, ih (n / b) (div_lt_self hn hb), digits_def' hb hpos,
      hsplit, add_mul_mod_self_left, add_mul_div_left _ _ (zero_lt_of_lt hb)]
    rw [add_comm (m * (n / b))]

/-- The digits of a number, most significant first, in radix `m` are turned into its buffer in
radix `b`. -/
lemma foldl_mulAdd (hb : 1 < b) (hm : 0 < m) (digits : List ℕ) (n : ℕ) :
    digits.foldl (mulAdd b m) (Nat.digits b n) =
      Nat.digits b (digits.foldl (fun n d => m * n + d) n) := by
  induction digits generalizing n with
  | nil => rfl
  | cons d digits ih => rw [foldl_cons, mulAdd_digits hb hm, ih, foldl_cons]

lemma foldl_eq_ofDigits (m : ℕ) (digits : List ℕ) :
    digits.foldl (fun n d => m * n + d) 0 = ofDigits m digits.reverse := by
  induction digits using reverseRecOn with
  | nil => rfl
  | append_singleton digits d ih =>
    rw [foldl_append, ih, reverse_append, reverse_singleton, singleton_append,
      ofDigits_cons, foldl_cons, foldl_nil, add_comm]

/-- The buffer in radix `b` of the number with the given digits in radix `m`. -/
def convertRadix (b m : ℕ) (digits : List ℕ) : List ℕ := digits.foldl (mulAdd b m) []

lemma convertRadix_eq (hb : 1 < b) (hm : 0 < m) (digits : List ℕ) :
    convertRadix b m digits = Nat.digits b (ofDigits m digits.reverse) := by
  rw [convertRadix, ← foldl_eq_ofDigits, ← foldl_mulAdd hb hm digits 0, digits_zero]

/-- **There and back.** Digits without a leading zero are found again, least significant
first. -/
theorem convertRadix_convertRadix (hb : 1 < b) (hm : 1 < m) {digits : List ℕ}
    (hlt : ∀ d ∈ digits, d < m) (hhead : ∀ d, digits.head? = some d → d ≠ 0) :
    convertRadix m b (convertRadix b m digits).reverse = digits.reverse := by
  rw [convertRadix_eq hm (zero_lt_of_lt hb), reverse_reverse,
    convertRadix_eq hb (zero_lt_of_lt hm), ofDigits_digits]
  apply digits_ofDigits m hm
  · intro d hd
    exact hlt d (mem_reverse.1 hd)
  · intro hne
    rw [getLast_reverse]
    exact hhead _ (head?_eq_some_head _)

/-- The buffer does not start with a zero when it is read from its other end. -/
lemma convertRadix_head (hb : 1 < b) (hm : 0 < m) (digits : List ℕ) (d : ℕ)
    (h : (convertRadix b m digits).reverse.head? = some d) : d ≠ 0 := by
  rw [convertRadix_eq hb hm, head?_reverse] at h
  have hne : Nat.digits b (ofDigits m digits.reverse) ≠ [] := by
    intro hnil
    rw [hnil] at h
    cases h
  rw [getLast?_eq_some_getLast hne, Option.some.injEq] at h
  rw [← h]
  exact getLast_digit_ne_zero b (digits_ne_nil_iff_ne_zero.1 hne)

lemma convertRadix_lt (hb : 1 < b) (hm : 0 < m) {digits : List ℕ} {d : ℕ}
    (h : d ∈ convertRadix b m digits) : d < b := by
  rw [convertRadix_eq hb hm] at h
  exact digits_lt_base hb h

/-! ## Reversal in place -/

variable {β : Type*}

/-- Exchange the places `i` and `length - (i + 1)`, with `f` applied to both. -/
def exchange [Inhabited β] (f : β → β) (buffer : List β) (i : ℕ) : List β :=
  let j := buffer.length - (i + 1)
  (buffer.set i (f buffer[j]!)).set j (f buffer[i]!)

lemma getElem!_set [Inhabited β] (buffer : List β) (i k : ℕ) (x : β)
    (hi : i < buffer.length) : (buffer.set i x)[k]! = if i = k then x else buffer[k]! := by
  rw [getElem!_eq_getElem?_getD, getElem!_eq_getElem?_getD, getElem?_set]
  split_ifs <;> rfl

lemma exchange_getElem! [Inhabited β] (f : β → β) (buffer : List β) {i : ℕ}
    (hi : i < buffer.length) (k : ℕ) :
    (exchange f buffer i)[k]! =
      if buffer.length - (i + 1) = k then f buffer[i]!
      else if i = k then f buffer[buffer.length - (i + 1)]! else buffer[k]! := by
  rw [exchange, getElem!_set _ _ _ _ (by rw [length_set]; omega), getElem!_set _ _ _ _ hi]

/-- The exchanges of the first `n` places. -/
def exchanges [Inhabited β] (f : β → β) (buffer : List β) (n : ℕ) : List β :=
  (List.range n).foldl (exchange f) buffer

lemma exchanges_succ [Inhabited β] (f : β → β) (buffer : List β) (n : ℕ) :
    exchanges f buffer (n + 1) = exchange f (exchanges f buffer n) n := by
  rw [exchanges, range_succ, foldl_append]
  rfl

/-- After `n` exchanges the outer `n` places at either end are final. -/
lemma exchanges_spec [Inhabited β] (f : β → β) (buffer : List β) {n : ℕ}
    (hn : 2 * n ≤ buffer.length) :
    (exchanges f buffer n).length = buffer.length ∧
      ∀ k < buffer.length, (exchanges f buffer n)[k]! =
        if k < n ∨ buffer.length ≤ k + n then f buffer[buffer.length - (k + 1)]!
        else buffer[k]! := by
  induction n with
  | zero =>
    refine ⟨rfl, fun k hk => ?_⟩
    rw [if_neg (by omega)]
    rfl
  | succ n ih =>
    obtain ⟨hlen, hplaces⟩ := ih (by omega)
    rw [exchanges_succ]
    refine ⟨by simp [exchange, hlen], fun k hk => ?_⟩
    -- the two places that are exchanged now have not been touched before
    have hleft : (exchanges f buffer n)[n]! = buffer[n]! := by
      rw [hplaces n (by omega), if_neg (by omega)]
    have hright : (exchanges f buffer n)[buffer.length - (n + 1)]! =
        buffer[buffer.length - (n + 1)]! := by
      rw [hplaces _ (by omega), if_neg (by omega)]
    rw [exchange_getElem! f _ (by omega), hlen, hleft, hright]
    by_cases hk₁ : buffer.length - (n + 1) = k
    · rw [if_pos hk₁, if_pos (by omega)]
      congr 2
      omega
    by_cases hk₂ : n = k
    · rw [if_neg hk₁, if_pos hk₂, if_pos (by omega), hk₂]
    · rw [if_neg hk₁, if_neg hk₂, hplaces k hk]
      exact if_congr (by omega) rfl rfl

lemma eq_map_reverse [Inhabited β] {f : β → β} {buffer result : List β}
    (hlen : result.length = buffer.length)
    (hplaces : ∀ k < buffer.length, result[k]! = f buffer[buffer.length - (k + 1)]!) :
    result = (buffer.map f).reverse := by
  apply ext_getElem
  · rw [hlen, length_reverse, length_map]
  intro k hk _
  have hk' : k < buffer.length := hlen ▸ hk
  have hplace := hplaces k hk'
  rw [getElem!_pos result k hk, getElem!_pos buffer _ (by omega)] at hplace
  rw [hplace, getElem_reverse, getElem_map]
  congr 2
  rw [length_map]
  omega

/-- **Reversal in place.** -/
theorem exchanges_id [Inhabited β] (buffer : List β) :
    exchanges id buffer (buffer.length / 2) = buffer.reverse := by
  obtain ⟨hlen, hplaces⟩ := exchanges_spec id buffer (n := buffer.length / 2) (by omega)
  conv_rhs => rw [← map_id buffer]
  refine eq_map_reverse hlen fun k hk => ?_
  rw [hplaces k hk]
  split_ifs with h
  · rfl
  · have hmiddle : buffer.length - (k + 1) = k := by omega
    rw [hmiddle]
    rfl

/-- The same with `f` applied on the way; the middle of a buffer of odd length is not
exchanged, and gets its `f` at the end. -/
lemma exchanges_eq_reverse [Inhabited β] (f : β → β) (buffer : List β) :
    (let swapped := exchanges f buffer (buffer.length / 2)
     if buffer.length % 2 = 1 then swapped.set (buffer.length / 2) (f swapped[buffer.length / 2]!)
     else swapped) = (buffer.map f).reverse := by
  obtain ⟨hlen, hplaces⟩ := exchanges_spec f buffer (n := buffer.length / 2) (by omega)
  split_ifs with hodd
  · refine eq_map_reverse (by rw [length_set, hlen]) fun k hk => ?_
    rw [getElem!_set _ _ _ _ (by omega)]
    by_cases hmiddle : buffer.length / 2 = k
    · have hself : buffer.length - (k + 1) = k := by omega
      rw [if_pos hmiddle, hplaces _ (by omega), if_neg (by omega), hself, hmiddle]
    · rw [if_neg hmiddle, hplaces k hk, if_pos (by omega)]
  · refine eq_map_reverse hlen fun k hk => ?_
    rw [hplaces k hk, if_pos (by omega)]

end ClickHouse.Lib
