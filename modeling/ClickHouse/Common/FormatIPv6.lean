/-
IP addresses as text (`src/Common/formatIPv6.h`, `src/Common/formatIPv6.cpp`): `formatIPv6`,
`formatIPv4`, `parseIPv6` and `parseIPv4`.

A pointer into a text is the text that is left, and `eof()` is that nothing is left. A text
that ends with a zero byte is one with that byte in what is left. A buffer that is written
through a moving pointer is the list of the bytes written. What is written ends where the
code puts a zero byte. The machine is little-endian.
-/
import ClickHouse.IO.Text

set_option autoImplicit false

namespace ClickHouse.IPAddress

open List

/-! ## Digits -/

/-- `hexDigitLowercase`. -/
def hexDigitLowercase (c : ℕ) : UInt8 := ("0123456789abcdef".toList.map ch)[c]!

/-- `unhex`. -/
def unhex (c : UInt8) : ℕ :=
  if ch '0' ≤ c && c ≤ ch '9' then c.toNat - (ch '0').toNat
  else if ch 'A' ≤ c && c ≤ ch 'F' then c.toNat - (ch 'A').toNat + 10
  else if ch 'a' ≤ c && c ≤ ch 'f' then c.toNat - (ch 'a').toNat + 10
  else 0xFF

/-- The digits that are written, the most significant first. -/
def integerDigits (base value : ℕ) : List ℕ :=
  if value = 0 then [0] else (Nat.digits base value).reverse

/-- `printInteger`. -/
def printInteger (base value : ℕ) : Bytes := (integerDigits base value).map hexDigitLowercase

/-- `one_byte_to_string_lookup_table`, whose texts are made by repeated division by 10. -/
def one_byte_to_string (value : ℕ) : Bytes := printInteger 10 value

/-! ## Writing -/

variable (src : Bytes)

/-- `formatIPv4`. The last dot is overwritten by the zero byte. -/
def formatIPv4 (mask_tail_octets : ℕ) (mask_string : Bytes) : Bytes :=
  let limit := min 4 (4 - mask_tail_octets)
  let octets := (List.range limit).flatMap fun octet =>
    one_byte_to_string (src[4 - octet - 1]!).toNat ++ [ch '.']
  let masks := (List.range mask_tail_octets).flatMap fun _ => mask_string ++ [ch '.']
  (octets ++ masks).dropLast

/-- A run of zero words. -/
structure Run where
  base : ℕ
  len : ℕ
  deriving DecidableEq, Repr

/-- The longer of two runs, and the first of two runs of one length. -/
def better (best : Option Run) (cur : Run) : Option Run :=
  match best with
  | none => some cur
  | some run => if cur.len > run.len then some cur else some run

/-- The loop that looks for the longest run, at the word `i`. A run with base -1 is none. -/
def findRun : ℕ → Option Run → Option Run → List ℕ → Option Run
  | _, best, none, [] => best
  | _, best, some cur, [] => better best cur
  | i, best, cur, word :: words =>
    if word = 0 then
      match cur with
      | none => findRun (i + 1) best (some ⟨i, 1⟩) words
      | some cur => findRun (i + 1) best (some ⟨cur.base, cur.len + 1⟩) words
    else
      match cur with
      | none => findRun (i + 1) best none words
      | some cur => findRun (i + 1) (better best cur) none words

/-- The run that is written as `::`, if there is one of at least two words. -/
def bestRun (words : List ℕ) : Option Run :=
  match findRun 0 none none words with
  | none => none
  | some run => if run.len < 2 then none else some run

/-- The words of an address, without the bytes of the tail. -/
def addressWords (zeroed_tail_bytes_count : ℕ) : List ℕ :=
  (List.range (16 - zeroed_tail_bytes_count)).foldl
    (fun words i => words.modify (i / 2) fun word =>
      word ||| (src[i]!).toNat <<< ((1 - i % 2) <<< 3)) (List.replicate 8 0)

/-- Whether the last four bytes are written as an IPv4 address. -/
def isEncapsulatedIPv4 (words : List ℕ) (best : Option Run) : Bool :=
  match best with
  | none => false
  | some run => run.base == 0 && (run.len == 6 || (run.len == 5 && words[5]! == 0xffff))

/-- Whether the word `i` is in the run. -/
def inRun (best : Option Run) (i : ℕ) : Bool :=
  match best with
  | none => false
  | some run => decide (run.base ≤ i ∧ i < run.base + run.len)

/-- Whether the run starts with the word `i`. -/
def startsRun (best : Option Run) (i : ℕ) : Bool :=
  match best with
  | none => false
  | some run => i == run.base

/-- Whether the run ends in front of the word `i`. -/
def endsRun (best : Option Run) (i : ℕ) : Bool :=
  match best with
  | none => false
  | some run => run.base + run.len == i

/-- The loop that writes the words, at the word `i`. -/
def formatWords (best : Option Run) (encapsulated : Bool) (ipv4 : Bytes) : ℕ → List ℕ → Bytes
  | _, [] => if endsRun best 8 then [ch ':'] else []
  | i, word :: words =>
    if inRun best i then
      (if startsRun best i then [ch ':'] else []) ++
        formatWords best encapsulated ipv4 (i + 1) words
    else
      (if i ≠ 0 then [ch ':'] else []) ++
        if i == 6 && encapsulated then ipv4
        else printInteger 16 word ++ formatWords best encapsulated ipv4 (i + 1) words

/-- `formatIPv6`. -/
def formatIPv6 (zeroed_tail_bytes_count : ℕ) : Bytes :=
  let words := addressWords src zeroed_tail_bytes_count
  let best := bestRun words
  let ipv4 := formatIPv4 ((src.drop 12).take 4).reverse (min zeroed_tail_bytes_count 4) [ch '0']
  formatWords best (isEncapsulatedIPv4 words best) ipv4 0 words

/-! ## Reading IPv4 -/

/-- The digits of an octet: its value, how many there were, and what is left. -/
def readOctet : ℕ → ℕ → Bytes → ℕ × ℕ × Bytes
  | value, len, [] => (value, len, [])
  | value, len, c :: src =>
    if isNumericASCII c && len ≤ 3 then
      readOctet (value * 10 + (c.toNat - (ch '0').toNat)) (len + 1) src
    else (value, len, c :: src)

/-- The loop of `parseIPv4` with `n + 1` octets to read; the offset is `8 * n`. -/
def parseOctets : ℕ → ℕ → Bytes → Option (ℕ × Bytes)
  | n, result, src =>
    if src = [] then none
    else
      let (value, len, src) := readOctet 0 0 src
      if len = 0 ∨ value > 255 ∨ (n > 0 ∧ src.head? ≠ some (ch '.')) then none
      else
        let result := result ||| value <<< (8 * n)
        match n with
        | 0 => some (result, src)
        | n + 1 => parseOctets n result src.tail

/-- `memcpy` of a `UInt32`. -/
def bytesOfUInt32 (result : ℕ) : Bytes :=
  (List.range 4).map fun i => UInt8.ofNat ((result >>> (8 * i)) % 256)

/-- `parseIPv4`: what is written, and what is left. -/
def parseIPv4 (first_octet : Option ℕ) : Option (Bytes × Bytes) :=
  match first_octet with
  | none => (parseOctets 3 0 src).map fun r => (bytesOfUInt32 r.1, r.2)
  | some octet =>
    if octet > 255 then none
    else (parseOctets 2 (octet <<< 24) src).map fun r => (bytesOfUInt32 r.1, r.2)

/-! ## Reading IPv6 -/

/-- The locals of `parseIPv6`: what is written up to `iter`, and where in it `zptr` is. -/
structure Parser where
  src : Bytes
  groups : ℕ
  written : Bytes
  zptr : Option ℕ
  group_start : Bool

/-- How an iteration of the loop ends. -/
inductive Iteration where
  | clear_dst
  | break_ (p : Parser)
  | continue_ (p : Parser)

/-- The hexadecimal digits of a group: its value, how many there were, and what is left. -/
def readGroup : ℕ → ℕ → Bytes → ℕ × ℕ × Bytes
  | val, xdigits, [] => (val, xdigits, [])
  | val, xdigits, c :: src =>
    if xdigits < 4 then
      if unhex c = 0xFF then (val, xdigits, c :: src)
      else readGroup ((val <<< 4) % 2 ^ 16 ||| unhex c) (xdigits + 1) src
    else (val, xdigits, c :: src)

/-- The two bytes of a group. -/
def groupBytes (val : ℕ) : Bytes := [UInt8.ofNat ((val >>> 8) % 256), UInt8.ofNat (val % 256)]

/-- A byte read as two decimal digits. -/
def recodeByte (num : ℕ) (byte : UInt8) : Option ℕ :=
  let first := (byte.toNat >>> 4) % 16
  let second := byte.toNat % 16
  if first > 9 ∨ second > 9 then none else some (num * 100 + (first * 10 + second))

/-- Two bytes read as four decimal digits. -/
def recodeDecimal (bytes : Bytes) : Option ℕ := bytes.foldlM recodeByte 0

/-- The dot of a mixed address, with what follows it: the group in front of it is taken back
and read as a decimal number. -/
def parseMixed (p : Parser) (src : Bytes) : Iteration :=
  -- an IPv4 part cannot come first
  if p.groups ≤ 1 ∧ p.zptr = none then .clear_dst
  -- its first octet has been read as a group already
  else if p.group_start then .clear_dst
  else if src = [] then .clear_dst
  else
    let before := p.written.take (p.written.length - 2)
    match recodeDecimal (p.written.drop (p.written.length - 2)) with
    | none => .clear_dst
    | some num =>
      if num > 255 then .clear_dst
      else
        match parseIPv4 src (some num) with
        | none => .clear_dst
        | some (ipv4, src) =>
          .break_ { p with src := src, groups := p.groups + 1, written := before ++ ipv4.reverse }

/-- The part of an iteration after the colons. -/
def parseGroup (p : Parser) : Iteration :=
  match p.src with
  | [] => .break_ p
  | c :: src =>
    if c = ch '.' then parseMixed p src
    else if !p.group_start then .break_ p
    else
      match readGroup 0 0 p.src with
      | (_, 0, _) => .break_ p
      | (val, _, src) =>
        .continue_ { p with src := src, groups := p.groups + 1, group_start := false,
                            written := p.written ++ groupBytes val }

/-- What follows a colon. -/
def parseColon (p : Parser) : Bytes → Iteration
  | [] => .clear_dst
  | c :: src =>
    if c = ch ':' then
      if p.zptr.isSome then .clear_dst
      else .continue_ { p with src := src, zptr := some p.written.length, group_start := true }
    else if p.groups = 0 then .clear_dst
    else parseGroup { p with src := c :: src, group_start := true }

/-- An iteration of the loop, with something left to read. -/
def parseIteration (p : Parser) : Iteration :=
  if p.src.head? = some (ch ':') then parseColon p p.src.tail else parseGroup p

/-! ### The loop ends -/

lemma length_readGroup (val xdigits : ℕ) (src : Bytes) :
    (readGroup val xdigits src).2.2.length + (readGroup val xdigits src).2.1 =
      src.length + xdigits := by
  induction src generalizing val xdigits with
  | nil => rfl
  | cons c src ih =>
    rw [readGroup]
    split_ifs
    · rfl
    · rw [ih, length_cons]
      omega
    · rfl

/-- A group takes at least one byte. -/
lemma length_parseGroup {p p' : Parser} (h : parseGroup p = .continue_ p') :
    p'.src.length < p.src.length := by
  unfold parseGroup at h
  split at h
  · cases h
  rename_i c src hsrc
  split_ifs at h
  · -- a point ends the loop, whatever comes of it
    unfold parseMixed at h
    split_ifs at h
    split at h
    · cases h
    · split_ifs at h
      split at h <;> cases h
  · have hlength := length_readGroup 0 0 p.src
    split at h
    · cases h
    rename_i val xdigits rest hne hread
    rw [hread] at hlength
    cases h
    -- a group without a digit has ended the loop too
    have hpos : xdigits ≠ 0 := by
      rintro rfl
      exact hne rfl
    show rest.length < p.src.length
    simp only at hlength
    omega

lemma length_parseIteration {p p' : Parser} (h : parseIteration p = .continue_ p') :
    p'.src.length < p.src.length := by
  unfold parseIteration at h
  by_cases hcolon : p.src.head? = some (ch ':')
  · rw [if_pos hcolon] at h
    obtain ⟨tail, hsrc⟩ := head?_eq_some_iff.1 hcolon
    rw [hsrc, tail_cons] at h
    rw [hsrc, length_cons]
    cases tail with
    | nil => cases h
    | cons c src =>
      rw [parseColon] at h
      split_ifs at h
      · cases h
        exact Nat.lt_succ_of_lt (Nat.lt_succ_self _)
      · exact (length_parseGroup h).trans (Nat.lt_succ_self _)
  · rw [if_neg hcolon] at h
    exact length_parseGroup h

/-- The loop of `parseIPv6`. -/
def parseLoop (p : Parser) : Option Parser :=
  if p.src = [] ∨ 8 ≤ p.groups then some p
  else
    match _h : parseIteration p with
    | .clear_dst => none
    | .break_ p' => some p'
    | .continue_ p' => parseLoop p'
termination_by p.src.length
decreasing_by exact length_parseIteration _h

/-- What is done after the loop: the bytes from `zptr` on are moved to the end. -/
def finishIPv6 (p : Parser) : Option (Bytes × Bytes) :=
  if p.groups < 8 ∧ p.zptr = none then none
  else
    let iter := p.written.length
    let dst := p.written ++ List.replicate (16 - iter) 0
    match p.zptr with
    | none => some (dst, p.src)
    | some zptr =>
      let msize := iter - zptr
      -- `memmove`, then `memset`
      let dst := dst.take (16 - msize) ++ p.written.drop zptr
      some (dst.take zptr ++ List.replicate (16 - iter) 0 ++ dst.drop (zptr + (16 - iter)), p.src)

/-- `parseIPv6`: the sixteen bytes, and what is left. -/
def parseIPv6 (first_block : Option ℕ) : Option (Bytes × Bytes) :=
  if src = [] then none
  else
    let p : Parser :=
      match first_block with
      | none => ⟨src, 0, [], none, true⟩
      | some block =>
        if src.head? = some (ch ':') then ⟨src.tail, 1, groupBytes block, some 2, true⟩
        else ⟨src, 1, groupBytes block, none, true⟩
    (parseLoop p).bind finishIPv6

/-- `parseIPv6whole` of a text between two pointers. -/
def parseIPv6whole : Option Bytes :=
  match parseIPv6 src none with
  | some (dst, []) => some dst
  | _ => none

/-- `parseIPv6whole` of a text that ends with a zero byte, which is never at its end. -/
def parseIPv6wholeTerminated : Option Bytes :=
  match parseIPv6 src none with
  | some (dst, 0 :: _) => some dst
  | _ => none

end ClickHouse.IPAddress
