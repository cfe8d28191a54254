/-
The FPC codec (`src/src/Compression/CompressionCodecFPC.cpp`).

`VALUE_SIZE` is 4 or 8, and a value is a bit vector of that many bytes, the least significant one
first. What is written to `result` is the list that a function returns. A predictor's `hash` is
an index of its table.

A value is coded as what it differs by from a prediction, with the number of its leading zero
bytes in half of a byte in front. The decoder makes the same predictions: from the same
predictors `decompressValue` gives the value back and leaves the predictors as `compressValue` does.
So every statement is about any predictors and any bytes that follow, and pairs, chunks and the
whole input follow by induction.
-/
import ClickHouse.Core.Types

set_option autoImplicit false

namespace ClickHouse.FPC

open Nat hiding count
open List

/-! ## Predictors -/

/-- A value of `V` bytes. -/
abbrev TUInt (V : ℕ) : Type := BitVec (8 * V)

/-- `hash` after `recalculateHash`: it is masked with the size of the table. -/
def recalculateHash {n w : ℕ} [NeZero n] (shift drop : ℕ) (hash : Fin n) (value : BitVec w) :
    Fin n :=
  ⟨(hash.val <<< shift ^^^ (value >>> drop).toNat) &&& (n - 1),
    Nat.and_le_right.trans_lt (Nat.sub_one_lt (NeZero.ne n))⟩

/-- `DfcmPredictor`: the table holds differences of neighbours. -/
structure DfcmPredictor (n V : ℕ) where
  table : Fin n → TUInt V
  prev_value : TUInt V
  hash : Fin n

/-- `FcmPredictor`: the table holds values. -/
structure FcmPredictor (n V : ℕ) where
  table : Fin n → TUInt V
  hash : Fin n

section Model

variable {n V : ℕ}

def DfcmPredictor.predict (p : DfcmPredictor n V) : TUInt V := p.table p.hash + p.prev_value

def FcmPredictor.predict (p : FcmPredictor n V) : TUInt V := p.table p.hash

variable [NeZero n]

def DfcmPredictor.add (p : DfcmPredictor n V) (value : TUInt V) : DfcmPredictor n V where
  table := Function.update p.table p.hash (value - p.prev_value)
  hash := if 8 ≤ V then recalculateHash 2 40 p.hash (value - p.prev_value)
    else recalculateHash 4 23 p.hash (value - p.prev_value)
  prev_value := value

def FcmPredictor.add (p : FcmPredictor n V) (value : TUInt V) : FcmPredictor n V where
  table := Function.update p.table p.hash value
  hash := if 8 ≤ V then recalculateHash 6 48 p.hash value else recalculateHash 1 22 p.hash value

/-- The state of an `FPCOperation`. -/
structure Predictors (n V : ℕ) where
  dfcm_predictor : DfcmPredictor n V
  fcm_predictor : FcmPredictor n V

/-- Both predictors see each value. -/
def Predictors.add (p : Predictors n V) (value : TUInt V) : Predictors n V :=
  ⟨p.dfcm_predictor.add value, p.fcm_predictor.add value⟩

def Predictors.initial : Predictors n V := ⟨⟨fun _ => 0, 0, 0⟩, ⟨fun _ => 0, 0⟩⟩

/-! ## Encoder -/

/-- The first `size` bytes of a value. -/
def valueTail : ℕ → ℕ → Bytes
  | 0, _ => []
  | size + 1, value => UInt8.ofNat value :: valueTail size (value / 256)

/-- The number that bytes hold, the least significant first. -/
def ofBytes : Bytes → ℕ
  | [] => 0
  | byte :: bytes => byte.toNat + 256 * ofBytes bytes

/-- The values that a span of bytes holds. -/
def values (V : ℕ) : ℕ → Bytes → List (TUInt V)
  | 0, _ => []
  | count + 1, bytes => BitVec.ofNat _ (ofBytes (bytes.take V)) :: values V count (bytes.drop V)

/-- Three bits for the count: of 8 bytes, 4 is written as 3 and the larger counts move down. -/
def encodeCompressedZeroByteCount (V compressed : ℕ) : ℕ :=
  min (if V = 8 ∧ 4 ≤ compressed then compressed - 1 else compressed) 7

/-- The count that the three bits stand for. -/
def decodeCompressedZeroByteCount (V encoded_size : ℕ) : ℕ :=
  if V = 8 ∧ 3 < encoded_size then encoded_size + 1 else encoded_size

/-- A value without its predictable bits, with the predictor that was closer. -/
structure CompressedValue (V : ℕ) where
  value : TUInt V
  compressed_size : ℕ
  is_dfcm : Bool

/-- The predictor that leaves more leading zero bytes is taken. -/
def compressValue (p : Predictors n V) (value : TUInt V) : CompressedValue V :=
  let compressed_dfcm := p.dfcm_predictor.predict ^^^ value
  let compressed_fcm := p.fcm_predictor.predict ^^^ value
  let zeroes_dfcm := compressed_dfcm.clz.toNat
  let zeroes_fcm := compressed_fcm.clz.toNat
  if zeroes_dfcm > zeroes_fcm then
    ⟨compressed_dfcm, encodeCompressedZeroByteCount V (zeroes_dfcm / 8), true⟩
  else ⟨compressed_fcm, encodeCompressedZeroByteCount V (zeroes_fcm / 8), false⟩

/-- The byte in front of a pair, with `DFCM_BIT_1` and `DFCM_BIT_2`. -/
def header (count1 count2 : ℕ) (is_dfcm1 is_dfcm2 : Bool) : ℕ :=
  (if is_dfcm1 then 0x80 else 0) ||| (if is_dfcm2 then 8 else 0) ||| (count1 <<< 4 ||| count2)

/-- The bytes of the value that are written. -/
def CompressedValue.tail (c : CompressedValue V) : Bytes :=
  valueTail (V - decodeCompressedZeroByteCount V c.compressed_size) c.value.toNat

/-- One byte of header, then the tails of the two values. -/
def encodePair (p : Predictors n V) (first second : TUInt V) : Bytes :=
  let c1 := compressValue p first
  let c2 := compressValue (p.add first) second
  UInt8.ofNat (header c1.compressed_size c2.compressed_size c1.is_dfcm c2.is_dfcm) ::
    (c1.tail ++ c2.tail)

/-- The pairs of a chunk, one after another. -/
def encodeChunk (p : Predictors n V) : List (TUInt V) → Bytes × Predictors n V
  | first :: second :: sequence =>
    let rest := encodeChunk ((p.add first).add second) sequence
    (encodePair p first second ++ rest.1, rest.2)
  | _ => ([], p)

/-- The number of values, rounded up to pairs. -/
def ceilBytesToEvenValues (V bytes_count : ℕ) : ℕ :=
  let values_count := (bytes_count + V - 1) / V
  if values_count % 2 = 0 then values_count else values_count + 1

/-- The number of values of a chunk, with the bytes that are left. -/
def chunkCount (V left : ℕ) : ℕ := if 64 * V ≤ left then 64 else ceilBytesToEvenValues V left

/-- A chunk as values, with zeroes in place of the bytes that are missing. -/
def importChunk (V : ℕ) (data : Bytes) : List (TUInt V) :=
  values V (chunkCount V data.length) (data ++ List.replicate (64 * V - data.length) 0)

/-- The loop over the chunks, with the bytes that are left. -/
def encodeLoop : ℕ → Predictors n V → Bytes → Bytes
  | 0, _, _ => []
  | fuel + 1, p, data =>
    if data = [] then []
    else
      let chunk := encodeChunk p (importChunk V data)
      chunk.1 ++ encodeLoop fuel chunk.2 (data.drop (64 * V))

/-! ## Decoder -/

/-- `decompressValue`: the prediction and the stored bits. -/
def decompressValue (p : Predictors n V) (value : TUInt V) (is_dfcm : Bool) : TUInt V :=
  (if is_dfcm then p.dfcm_predictor.predict else p.fcm_predictor.predict) ^^^ value

def cannotDecompress {β : Type} (message : String) : Eval β :=
  throwException .CANNOT_DECOMPRESS (str message)

/-- The two values, and what is left of the bytes. -/
def decodePair (p : Predictors n V) : Bytes → Eval (TUInt V × TUInt V × Bytes)
  | [] => cannotDecompress "Unexpected end of encoded sequence"
  | front :: bytes =>
    let zero_byte_count1 := decodeCompressedZeroByteCount V (front.toNat >>> 4 &&& 7)
    let zero_byte_count2 := decodeCompressedZeroByteCount V (front.toNat &&& 7)
    if zero_byte_count1 > V ∨ zero_byte_count2 > V then
      cannotDecompress s!"Invalid zero byte count(s): {zero_byte_count1} and {zero_byte_count2}"
    else
      let tail_size1 := V - zero_byte_count1
      let tail_size2 := V - zero_byte_count2
      if bytes.length < tail_size1 + tail_size2 then
        cannotDecompress "Unexpected end of encoded sequence"
      else
        let value1 := BitVec.ofNat _ (ofBytes (bytes.take tail_size1))
        let value2 := BitVec.ofNat _ (ofBytes ((bytes.drop tail_size1).take tail_size2))
        let first := decompressValue p value1 (front.toNat &&& 0x80 ≠ 0)
        -- the first value is in the tables when the second one is predicted
        let second := decompressValue (p.add first) value2 (front.toNat &&& 8 ≠ 0)
        .ok (first, second, bytes.drop (tail_size1 + tail_size2))

/-- The values of a chunk, of which there are twice as many as pairs. -/
def decodeChunk : ℕ → Predictors n V → Bytes → Eval (List (TUInt V) × Predictors n V × Bytes)
  | 0, p, bytes => .ok ([], p, bytes)
  | pairs + 1, p, bytes => do
    let (first, second, bytes) ← decodePair p bytes
    let (sequence, rest) ← decodeChunk pairs ((p.add first).add second) bytes
    pure (first :: second :: sequence, rest)

/-- The loop over the chunks, with the number of bytes that are left to decode. -/
def decodeLoop : ℕ → Predictors n V → Bytes → ℕ → Eval Bytes
  | 0, _, _, _ => .ok []
  | fuel + 1, p, bytes, left =>
    if left = 0 then .ok []
    else do
      let (sequence, p, bytes) ← decodeChunk (chunkCount V left / 2) p bytes
      let rest ← decodeLoop fuel p bytes (left - 64 * V)
      pure ((sequence.flatMap fun value => valueTail V value.toNat).take left ++ rest)

end Model

/-! ## The codec -/

/-- `FPCOperation` for the values of a given width, with tables of `2 ^ level` entries. -/
def encode (V level : ℕ) (data : Bytes) : Bytes :=
  encodeLoop data.length (.initial : Predictors (2 ^ level) V) data

/-- `FPCOperation::decode`, from fresh predictors. -/
def decode (V level : ℕ) (bytes : Bytes) (decoded_size : ℕ) : Eval Bytes :=
  decodeLoop decoded_size (.initial : Predictors (2 ^ level) V) bytes decoded_size

/-- Two bytes of header and, for each pair, one byte and two values; in `UInt32`. -/
def getMaxCompressedDataSize (float_width uncompressed_size : ℕ) : ℕ :=
  let float_count := (uncompressed_size + float_width - 1) % 2 ^ 32 / float_width
  let float_count := if float_count % 2 ≠ 0 then float_count + 1 else float_count
  (2 + float_count * float_width + float_count / 2) % 2 ^ 32

/-- The bytes of `dest`, and the `UInt32` that is returned. -/
def doCompressData (float_width level : ℕ) (source : Bytes) : Eval (Bytes × ℕ) :=
  if float_width = 8 ∨ float_width = 4 then
    let dest := UInt8.ofNat float_width :: UInt8.ofNat level :: encode float_width level source
    -- the encoder does not compare what it writes with the size of its span
    if dest.length ≤ getMaxCompressedDataSize float_width source.length then
      .ok (dest, dest.length % 2 ^ 32)
    else .error .undefined_behaviour
  else throwException .CANNOT_COMPRESS
    (str "Cannot compress with FPC codec. File has incorrect float width")

/-- `CompressionCodecFPC::doDecompressData`. The two bytes of the header are checked before use. -/
def doDecompressData (uncompressed_size : ℕ) : Bytes → Eval Bytes
  | float_width :: level :: src =>
    let compressed_float_width := float_width.toNat
    let compressed_level := level.toNat
    if compressed_level = 0 ∨ compressed_level > 28 then
      cannotDecompress "Cannot decompress FPC-encoded data. File has incorrect level"
    else if compressed_float_width = 8 ∨ compressed_float_width = 4 then
      decode compressed_float_width compressed_level src uncompressed_size
    else cannotDecompress "Cannot decompress FPC-encoded data. File has incorrect float width"
  | _ => cannotDecompress "Cannot decompress FPC-encoded data. File has wrong header"

/-! ## Bytes of values -/

variable {n V : ℕ}

lemma length_valueTail (size value : ℕ) : (valueTail size value).length = size := by
  induction size generalizing value with
  | zero => rfl
  | succ size ih => rw [valueTail, length_cons, ih]

lemma ofBytes_valueTail {size value : ℕ} (h : value < 2 ^ (8 * size)) :
    ofBytes (valueTail size value) = value := by
  induction size generalizing value with
  | zero => exact (lt_one_iff.1 h).symm
  | succ size ih =>
    rw [mul_succ, pow_add] at h
    rw [valueTail, ofBytes, ih (by omega), UInt8.toNat_ofNat']
    exact mod_add_div value 256

lemma ofBytes_lt (bytes : Bytes) : ofBytes bytes < 2 ^ (8 * bytes.length) := by
  induction bytes with
  | nil => exact one_pos
  | cons byte bytes ih =>
    have hbyte := byte.toNat_lt
    rw [ofBytes, length_cons, mul_succ, pow_add]
    omega

lemma valueTail_ofBytes (bytes : Bytes) : valueTail bytes.length (ofBytes bytes) = bytes := by
  induction bytes with
  | nil => rfl
  | cons byte bytes ih =>
    have hbyte := byte.toNat_lt
    have hdiv : (byte.toNat + 256 * ofBytes bytes) / 256 = ofBytes bytes := by omega
    have hmod : UInt8.ofNat (byte.toNat + 256 * ofBytes bytes) = byte := by
      rw [← UInt8.toNat_inj, UInt8.toNat_ofNat']
      omega
    rw [length_cons, ofBytes, valueTail, hdiv, hmod, ih]

lemma flatMap_values {count : ℕ} {bytes : Bytes} (h : count * V ≤ bytes.length) :
    (values V count bytes).flatMap (fun value => valueTail V value.toNat) =
      bytes.take (count * V) := by
  induction count generalizing bytes with
  | zero => rw [Nat.zero_mul, take_zero, values, flatMap_nil]
  | succ count ih =>
    rw [Nat.succ_mul] at h
    have htake : (bytes.take V).length = V := by rw [length_take]; omega
    have hlt := ofBytes_lt (bytes.take V)
    have hfirst := valueTail_ofBytes (bytes.take V)
    rw [htake] at hlt hfirst
    rw [values, flatMap_cons, BitVec.toNat_ofNat, Nat.mod_eq_of_lt hlt, hfirst,
      ih (by rw [length_drop]; omega), Nat.succ_mul, Nat.add_comm, take_add]

lemma length_values (count : ℕ) (bytes : Bytes) : (values V count bytes).length = count := by
  induction count generalizing bytes with
  | zero => rfl
  | succ count ih => rw [values, length_cons, ih]

lemma length_tail_le (c : CompressedValue V) : c.tail.length ≤ V :=
  (length_valueTail _ _).trans_le (sub_le _ _)

lemma forall_mem_iff_take_drop (i : ℕ) {bytes : Bytes} : (∀ byte ∈ bytes, byte = 0) ↔
    (∀ byte ∈ bytes.take i, byte = 0) ∧ ∀ byte ∈ bytes.drop i, byte = 0 := by
  rw [← forall_mem_append, take_append_drop]

/-! ## Values and chunks -/

/-- What is read from the byte in front of a pair. -/
lemma header_spec : ∀ count1 count2 : Fin 8, ∀ is_dfcm1 is_dfcm2 : Bool,
    let front := (UInt8.ofNat (header count1 count2 is_dfcm1 is_dfcm2)).toNat
    front >>> 4 &&& 7 = count1 ∧ front &&& 7 = count2 ∧
      decide (front &&& 0x80 ≠ 0) = is_dfcm1 ∧ decide (front &&& 8 ≠ 0) = is_dfcm2 := by
  decide +kernel

section

variable (hV : V = 4 ∨ V = 8)
include hV

/-- The bytes that are left out are zero. -/
lemma zeroByteCount_spec (x : TUInt V) :
    let count := encodeCompressedZeroByteCount V (x.clz.toNat / 8)
    count < 8 ∧ decodeCompressedZeroByteCount V count ≤ V ∧
      x.toNat < 2 ^ (8 * (V - decodeCompressedZeroByteCount V count)) := by
  intro count
  have hclz := BitVec.clz_le (x := x)
  rw [BitVec.le_def, BitVec.natCast_eq_ofNat, BitVec.toNat_ofNat,
    mod_eq_of_lt Nat.lt_two_pow_self] at hclz
  have hcount : decodeCompressedZeroByteCount V count ≤ V ∧
      8 * decodeCompressedZeroByteCount V count ≤ x.clz.toNat := by
    simp only [count, decodeCompressedZeroByteCount, encodeCompressedZeroByteCount]
    rcases hV with rfl | rfl <;> split_ifs <;> omega
  refine ⟨lt_succ_of_le (min_le_right _ _), hcount.1, x.toNat_lt_two_pow_sub_clz.trans_le ?_⟩
  exact Nat.pow_le_pow_right two_pos (by omega)

lemma compressValue_spec (p : Predictors n V) (value : TUInt V) :
    let c := compressValue p value
    decompressValue p c.value c.is_dfcm = value ∧ c.compressed_size < 8 ∧
      decodeCompressedZeroByteCount V c.compressed_size ≤ V ∧
      BitVec.ofNat (8 * V) (ofBytes c.tail) = c.value := by
  have hxor (x : TUInt V) : x ^^^ (x ^^^ value) = value := by
    rw [← BitVec.xor_assoc, BitVec.xor_self, BitVec.zero_xor]
  have htail (x : TUInt V) := zeroByteCount_spec hV x
  rw [compressValue]
  split_ifs
  all_goals
    refine ⟨hxor _, (htail _).1, (htail _).2.1, ?_⟩
    rw [CompressedValue.tail, ofBytes_valueTail (htail _).2.2, BitVec.ofNat_toNat,
      BitVec.setWidth_eq]

/-- A chunk is whole pairs that hold the bytes which are left, or all 64 values. -/
lemma chunkCount_spec (left : ℕ) : chunkCount V left = 2 * (chunkCount V left / 2) ∧
    min left (64 * V) ≤ chunkCount V left * V ∧ chunkCount V left ≤ 64 ∧
    ceilBytesToEvenValues V left = chunkCount V left + ceilBytesToEvenValues V (left - 64 * V) := by
  rw [chunkCount, ceilBytesToEvenValues, ceilBytesToEvenValues]
  rcases hV with rfl | rfl <;> split_ifs <;> omega

lemma exportChunk_importChunk (data : Bytes) :
    ((importChunk V data).flatMap fun value => valueTail V value.toNat).take data.length =
      data.take (64 * V) := by
  obtain ⟨-, hmin, hle, -⟩ := chunkCount_spec hV data.length
  have hmul := mul_le_mul_right V hle
  rw [importChunk, flatMap_values (by rw [length_append, length_replicate]; omega),
    take_take, take_append_of_le_length (min_le_left _ _), take_eq_take_iff]
  omega

/-- The size that is reserved, where it does not wrap. -/
lemma getMaxCompressedDataSize_eq {size : ℕ} (h : 2 + ceilBytesToEvenValues V size * V +
    ceilBytesToEvenValues V size / 2 < 2 ^ 32) : getMaxCompressedDataSize V size =
      2 + ceilBytesToEvenValues V size / 2 * (2 * V + 1) := by
  have hlt : size + V - 1 < 2 ^ 32 := by
    rw [ceilBytesToEvenValues] at h
    rcases hV with rfl | rfl <;> split_ifs at h <;> omega
  have heven : ceilBytesToEvenValues V size % 2 = 0 := by
    rw [ceilBytesToEvenValues]
    split_ifs <;> omega
  rw [getMaxCompressedDataSize, mod_eq_of_lt hlt, ite_not, ← ceilBytesToEvenValues, mod_eq_of_lt h]
  rcases hV with rfl | rfl <;> omega

/-! ## The shortest encoding

A pair takes at least the byte in front of it. It takes no more exactly if both of its values are
predicted, and the predictors, which start with nothing but zeros, predict zeros until they have
seen another value. -/

omit hV in
/-- A value is zero if its bytes are. -/
lemma forall_values_iff {count : ℕ} {bytes : Bytes} (h : count * V ≤ bytes.length) :
    (∀ value ∈ values V count bytes, value = 0) ↔ ∀ byte ∈ bytes.take (count * V), byte = 0 := by
  have hzero (value : TUInt V) : value = 0 ↔ ∀ byte ∈ valueTail V value.toNat, byte = 0 := by
    have hreplicate (size : ℕ) : valueTail size 0 = replicate size 0 := by
      induction size with
      | zero => rfl
      | succ size ih => rw [valueTail, Nat.zero_div, ih, replicate_succ]; rfl
    have hofBytes (size : ℕ) : ofBytes (replicate size 0) = 0 := by
      rw [← hreplicate, ofBytes_valueTail (Nat.two_pow_pos _)]
    refine ⟨fun hvalue byte hbyte => ?_, fun hbytes => ?_⟩
    · rw [hvalue, BitVec.ofNat_eq_ofNat, BitVec.toNat_zero, hreplicate] at hbyte
      exact eq_of_mem_replicate hbyte
    · have hlist := eq_replicate_of_mem hbytes
      have hvalue := ofBytes_valueTail value.isLt
      rw [hlist, hofBytes] at hvalue
      exact BitVec.eq_of_toNat_eq hvalue.symm
  rw [← flatMap_values h]
  simp only [hzero, mem_flatMap, forall_exists_index, and_imp]
  exact ⟨fun hall byte value hvalue => hall value hvalue byte,
    fun hall value hvalue byte => hall byte value hvalue⟩

lemma forall_importChunk_iff (data : Bytes) :
    (∀ value ∈ importChunk V data, value = 0) ↔ ∀ byte ∈ data.take (64 * V), byte = 0 := by
  obtain ⟨-, hmin, hle, -⟩ := chunkCount_spec hV data.length
  have hmul := mul_le_mul_right V hle
  have htake : data.take (chunkCount V data.length * V) = data.take (64 * V) := by
    rw [take_eq_take_iff]
    omega
  rw [importChunk, forall_values_iff (by rw [length_append, length_replicate]; omega),
    take_append, htake, forall_mem_append, and_iff_left]
  exact fun byte hbyte => eq_of_mem_replicate (mem_of_mem_take hbyte)

variable [NeZero n]

omit hV in
lemma initial_add_zero : (Predictors.initial : Predictors n V).add 0 = .initial := by
  have hhash (shift drop : ℕ) : recalculateHash shift drop (0 : Fin n) 0#(8 * V) = 0 :=
    Fin.ext (by simp [recalculateHash])
  simp [Predictors.add, Predictors.initial, DfcmPredictor.add, FcmPredictor.add, hhash]

lemma tail_eq_nil_iff (value : TUInt V) :
    (compressValue (.initial : Predictors n V) value).tail.length = 0 ↔ value = 0 := by
  have hvalue : compressValue (.initial : Predictors n V) value =
      ⟨value, encodeCompressedZeroByteCount V (value.clz.toNat / 8), false⟩ := by
    simp [compressValue, Predictors.initial, DfcmPredictor.predict, FcmPredictor.predict]
  obtain ⟨-, hle, hlt⟩ := zeroByteCount_spec hV value
  rw [hvalue, CompressedValue.tail, length_valueTail]
  refine ⟨fun hsize => ?_, fun hzero => ?_⟩
  · rw [hsize] at hlt
    exact BitVec.eq_of_toNat_eq (lt_one_iff.1 hlt)
  · subst hzero
    rcases hV with rfl | rfl <;> rfl

lemma length_encodePair_eq_one_iff (first second : TUInt V) :
    (encodePair (.initial : Predictors n V) first second).length = 1 ↔ first = 0 ∧ second = 0 := by
  rw [encodePair, length_cons, length_append]
  have hfirst := tail_eq_nil_iff (n := n) hV first
  by_cases h : first = 0
  · have hzero := hfirst.2 h
    rw [and_iff_right h, ← tail_eq_nil_iff (n := n) hV second, h, initial_add_zero]
    rw [h] at hzero
    omega
  · have hpos := mt hfirst.1 h
    exact iff_of_false (by omega) fun hzero => h hzero.1

/-! ## Decoding -/

lemma decodePair_encodePair (p : Predictors n V) (first second : TUInt V) (rest : Bytes) :
    decodePair p (encodePair p first second ++ rest) = .ok (first, second, rest) := by
  rw [encodePair, cons_append, decodePair, append_assoc]
  obtain ⟨hfirst, hcount1, hle1, htail1⟩ := compressValue_spec hV p first
  obtain ⟨hsecond, hcount2, hle2, htail2⟩ := compressValue_spec hV (p.add first) second
  generalize compressValue p first = c1 at *
  generalize compressValue (p.add first) second = c2 at *
  obtain ⟨h1, h2, h3, h4⟩ := header_spec ⟨_, hcount1⟩ ⟨_, hcount2⟩ c1.is_dfcm c2.is_dfcm
  have hlength1 : c1.tail.length = _ := length_valueTail _ _
  have hlength2 : c2.tail.length = _ := length_valueTail _ _
  simp only [h1, h2, h3, h4]
  rw [if_neg (by omega), if_neg (by rw [length_append, length_append]; omega),
    take_left' hlength1, ← drop_drop, drop_left' hlength1, take_left' hlength2,
    drop_left' hlength2, htail1, htail2, hfirst, hsecond]

/-- The values of whole pairs are read back, and a pair takes a byte and at most its values. -/
lemma decodeChunk_encodeChunk (pairs : ℕ) (p : Predictors n V) {sequence : List (TUInt V)}
    (hlength : sequence.length = 2 * pairs) :
    (∀ rest, decodeChunk pairs p ((encodeChunk p sequence).1 ++ rest) =
      .ok (sequence, (encodeChunk p sequence).2, rest)) ∧
    pairs ≤ (encodeChunk p sequence).1.length ∧
    (encodeChunk p sequence).1.length ≤ pairs * (2 * V + 1) := by
  induction pairs generalizing p sequence with
  | zero =>
    obtain rfl := length_eq_zero_iff.1 hlength
    exact ⟨fun rest => rfl, zero_le _, zero_le _⟩
  | succ pairs ih =>
    match sequence, hlength with
    | first :: second :: sequence, hlength =>
      simp only [length_cons] at hlength
      -- both sides have put the two values into their tables
      obtain ⟨hread, hmin, hmax⟩ := @ih ((p.add first).add second) sequence (by omega)
      rw [encodeChunk]
      refine ⟨fun rest => ?_, ?_⟩
      · rw [append_assoc, decodeChunk, decodePair_encodePair hV]
        change (decodeChunk pairs _ _ >>= _) = _
        rw [hread]
        rfl
      · have h1 := length_tail_le (compressValue p first)
        have h2 := length_tail_le (compressValue (p.add first) second)
        rw [length_append, encodePair, length_cons, length_append, succ_mul]
        omega

/-- **The loop over the chunks.** -/
theorem decodeLoop_encodeLoop (fuel : ℕ) (p : Predictors n V) {data : Bytes}
    (h : data.length ≤ fuel) :
    decodeLoop fuel p (encodeLoop fuel p data) data.length = .ok data ∧
      ceilBytesToEvenValues V data.length / 2 ≤ (encodeLoop fuel p data).length ∧
      (encodeLoop fuel p data).length ≤ ceilBytesToEvenValues V data.length / 2 * (2 * V + 1) := by
  have hzero : ceilBytesToEvenValues V 0 / 2 = 0 := by rcases hV with rfl | rfl <;> rfl
  induction fuel generalizing p data with
  | zero =>
    obtain rfl := length_eq_zero_iff.1 (le_zero.1 h)
    exact ⟨rfl, hzero.le, zero_le _⟩
  | succ fuel ih =>
    by_cases hnil : data = []
    · subst hnil
      exact ⟨rfl, hzero.le, zero_le _⟩
    -- a chunk is encoded with the predictors that the chunks before it have left
    obtain ⟨heven, -, -, hceil⟩ := chunkCount_spec hV data.length
    obtain ⟨hread, hmin, hmax⟩ := decodeChunk_encodeChunk hV _ p
      ((length_values _ (data ++ replicate (64 * V - data.length) 0)).trans heven)
    rw [← importChunk] at hread hmin hmax
    obtain ⟨hrest, hmin', hmax'⟩ := @ih (encodeChunk p (importChunk V data)).2 (data.drop (64 * V))
      (by rw [length_drop]; omega)
    rw [length_drop] at hrest hmin' hmax'
    have hhalf : ceilBytesToEvenValues V data.length / 2 = chunkCount V data.length / 2 +
        ceilBytesToEvenValues V (data.length - 64 * V) / 2 := by omega
    rw [hhalf, encodeLoop, if_neg hnil, decodeLoop, if_neg (mt length_eq_zero_iff.1 hnil)]
    refine ⟨?_, ?_⟩
    · rw [hread]
      change (decodeLoop fuel _ _ _ >>= _) = _
      rw [hrest]
      change Except.ok _ = _
      rw [exportChunk_importChunk hV, take_append_drop]
    · rw [length_append, add_mul]
      omega

/-- Whole pairs take one byte each exactly if all values are zero. -/
lemma length_encodeChunk_eq_iff (pairs : ℕ) {sequence : List (TUInt V)}
    (hlength : sequence.length = 2 * pairs) :
    (encodeChunk (.initial : Predictors n V) sequence).1.length = pairs ↔
      ∀ value ∈ sequence, value = 0 := by
  induction pairs generalizing sequence with
  | zero =>
    obtain rfl := length_eq_zero_iff.1 hlength
    exact iff_of_true rfl (by simp)
  | succ pairs ih =>
    match sequence, hlength with
    | first :: second :: sequence, hlength =>
      simp only [length_cons] at hlength
      have hpair := length_encodePair_eq_one_iff (n := n) hV first second
      have hhalf : sequence.length = 2 * pairs := by omega
      have hmin := (decodeChunk_encodeChunk hV pairs
        (((.initial : Predictors n V).add first).add second) hhalf).2.1
      rw [encodeChunk, length_append, forall_mem_cons, forall_mem_cons, ← and_assoc]
      by_cases hzero : first = 0 ∧ second = 0
      · -- two zeros take one byte and leave the tables as they are
        rw [and_iff_right hzero, hpair.2 hzero, hzero.1, hzero.2, initial_add_zero,
          initial_add_zero, ← ih hhalf]
        omega
      · -- any other pair takes more than its first byte
        have hpos : 0 < (encodePair (.initial : Predictors n V) first second).length :=
          length_pos_of_ne_nil (cons_ne_nil _ _)
        have := mt hpair.1 hzero
        exact iff_of_false (by omega) fun h => hzero h.1

omit hV in
/-- The predictors have not changed after zeros. -/
lemma encodeChunk_zeros {sequence : List (TUInt V)} (h : ∀ value ∈ sequence, value = 0) :
    (encodeChunk (.initial : Predictors n V) sequence).2 = .initial := by
  match sequence with
  | [] | [_] => rfl
  | first :: second :: sequence =>
    rw [forall_mem_cons, forall_mem_cons] at h
    rw [encodeChunk, h.1, h.2.1, initial_add_zero, initial_add_zero]
    exact encodeChunk_zeros h.2.2

/-- **The shortest encoding** is that of zeros. -/
theorem length_encodeLoop_eq_iff (fuel : ℕ) {data : Bytes} (h : data.length ≤ fuel) :
    (encodeLoop fuel (.initial : Predictors n V) data).length =
      ceilBytesToEvenValues V data.length / 2 ↔ ∀ byte ∈ data, byte = 0 := by
  have hnone : ceilBytesToEvenValues V 0 / 2 = 0 := by rcases hV with rfl | rfl <;> rfl
  induction fuel generalizing data with
  | zero =>
    obtain rfl := length_eq_zero_iff.1 (le_zero.1 h)
    exact iff_of_true hnone.symm (by simp)
  | succ fuel ih =>
    by_cases hnil : data = []
    · subst hnil
      exact iff_of_true hnone.symm (by simp)
    obtain ⟨heven, -, -, hceil⟩ := chunkCount_spec hV data.length
    have hcount := (length_values (V := V) _ (data ++ replicate (64 * V - data.length) 0)).trans
      heven
    have hmin := (decodeChunk_encodeChunk hV _ (.initial : Predictors n V) hcount).2.1
    have hchunk := length_encodeChunk_eq_iff (n := n) hV _ hcount
    rw [← importChunk] at hmin hchunk
    rw [forall_importChunk_iff hV] at hchunk
    have hdrop : (data.drop (64 * V)).length ≤ fuel := by
      have := length_pos_of_ne_nil hnil
      rcases hV with rfl | rfl <;> rw [length_drop] <;> omega
    have hmin' := (decodeLoop_encodeLoop hV fuel
      (encodeChunk (.initial : Predictors n V) (importChunk V data)).2 hdrop).2.1
    rw [length_drop] at hmin'
    rw [encodeLoop, if_neg hnil, length_append, forall_mem_iff_take_drop (64 * V)]
    -- zeros leave the predictors as they were, so the rest begins as the whole did
    by_cases hzero : ∀ byte ∈ data.take (64 * V), byte = 0
    · have hrest := ih hdrop
      rw [length_drop] at hrest
      rw [and_iff_right hzero, hchunk.2 hzero,
        encodeChunk_zeros ((forall_importChunk_iff hV data).2 hzero)]
      exact Iff.trans (by omega) hrest
    · have := mt hchunk.1 hzero
      exact iff_of_false (by omega) fun hall => hzero hall.1

end

/-- The destination has room for the encoding: its size does not wrap, or it wraps to one byte
for each pair, which is enough for zeros. -/
def Fits (V : ℕ) (source : Bytes) : Prop :=
  2 + ceilBytesToEvenValues V source.length * V +
      ceilBytesToEvenValues V source.length / 2 < 2 ^ 32 ∨
    (ceilBytesToEvenValues V source.length * V = 2 ^ 32 ∧ source.length + V ≤ 2 ^ 32 ∧
      ∀ byte ∈ source, byte = 0)

/-- The size that is reserved, where it does wrap: that of the last pairs alone, or of none. -/
lemma getMaxCompressedDataSize_of_wraps (hV : V = 4 ∨ V = 8) {size : ℕ} (hsize : size < 2 ^ 32)
    (h : 2 ^ 32 ≤ 2 + ceilBytesToEvenValues V size * V + ceilBytesToEvenValues V size / 2) :
    0 < ceilBytesToEvenValues V size / 2 ∧
      if ceilBytesToEvenValues V size * V = 2 ^ 32 ∧ size + V ≤ 2 ^ 32 then
        getMaxCompressedDataSize V size = 2 + ceilBytesToEvenValues V size / 2
      else getMaxCompressedDataSize V size < 2 + ceilBytesToEvenValues V size / 2 := by
  by_cases hsum : size + V ≤ 2 ^ 32
  · -- the number of values does not wrap, only the size that is made of it
    have heven : ceilBytesToEvenValues V size % 2 = 0 ∧
        ceilBytesToEvenValues V size * V ≤ 2 ^ 32 := by
      rw [ceilBytesToEvenValues]
      rcases hV with rfl | rfl <;> split_ifs <;> omega
    have hlt : (size + V - 1) % 2 ^ 32 = size + V - 1 := mod_eq_of_lt (by omega)
    rw [getMaxCompressedDataSize, hlt, ite_not, ← ceilBytesToEvenValues]
    generalize ceilBytesToEvenValues V size = count at *
    have hcount : count / 2 < 2 ^ 30 := by rcases hV with rfl | rfl <;> omega
    rw [mod_eq_sub_mod h, mod_eq_of_lt (by omega)]
    rcases hV with rfl | rfl <;> refine ⟨by omega, ?_⟩ <;> split_ifs <;> omega
  · -- already the number of values wraps, to none
    have hnone : (size + V - 1) % 2 ^ 32 / V = 0 := by
      rcases hV with rfl | rfl <;> omega
    have hpos : 0 < ceilBytesToEvenValues V size / 2 := by
      rw [ceilBytesToEvenValues]
      rcases hV with rfl | rfl <;> split_ifs <;> omega
    have hmax : getMaxCompressedDataSize V size = 2 := by
      rw [getMaxCompressedDataSize, hnone]
      simp
    rw [if_neg fun hexact => hsum hexact.2, hmax]
    exact ⟨hpos, Nat.lt_add_of_pos_right hpos⟩

/-- The encoder stays within its destination exactly if the source fits. -/
lemma length_encode_le_iff (hV : V = 4 ∨ V = 8) (level : ℕ) {source : Bytes}
    (hsize : source.length < 2 ^ 32) :
    2 + (encode V level source).length ≤ getMaxCompressedDataSize V source.length ↔
      Fits V source := by
  obtain ⟨-, hmin, hmax⟩ := decodeLoop_encodeLoop hV source.length
    (.initial : Predictors (2 ^ level) V) le_rfl
  have hzero := length_encodeLoop_eq_iff (n := 2 ^ level) hV source.length (le_refl source.length)
  rw [← encode] at hmin hmax hzero
  rw [Fits]
  by_cases hsmall : 2 + ceilBytesToEvenValues V source.length * V +
      ceilBytesToEvenValues V source.length / 2 < 2 ^ 32
  · -- the computed size is right, and large enough
    rw [getMaxCompressedDataSize_eq hV hsmall]
    exact iff_of_true (by omega) (.inl hsmall)
  · rw [or_iff_right hsmall]
    -- the computed size has wrapped
    obtain ⟨hpos, hwraps⟩ := getMaxCompressedDataSize_of_wraps hV hsize (not_lt.1 hsmall)
    rw [← and_assoc, ← hzero]
    split_ifs at hwraps with hexact
    · rw [and_iff_right hexact, hwraps]
      omega
    · exact iff_of_false (by omega) fun h => hexact h.1

/-- **Compressed data are decompressed to the source**, within the size that is reserved for
them, exactly if the source fits. -/
theorem doDecompressData_doCompressData {float_width level : ℕ}
    (hwidth : float_width = 4 ∨ float_width = 8) (hlevel : 1 ≤ level ∧ level ≤ 28)
    {source : Bytes} (hsize : source.length < 2 ^ 32) :
    (∃ dest, doCompressData float_width level source = .ok (dest, dest.length) ∧
      dest.length ≤ getMaxCompressedDataSize float_width source.length ∧
      doDecompressData source.length dest = .ok source) ↔ Fits float_width source := by
  have hread := (decodeLoop_encodeLoop hwidth source.length
    (.initial : Predictors (2 ^ level) float_width) le_rfl).1
  rw [← length_encode_le_iff hwidth level hsize, doCompressData, if_pos hwidth.symm]
  have hlength : (UInt8.ofNat float_width :: UInt8.ofNat level ::
      encode float_width level source).length = 2 + (encode float_width level source).length := by
    rw [length_cons, length_cons]
    omega
  constructor
  · -- what does not fit is written past the destination
    rintro ⟨dest, hdest, -⟩
    by_contra hlong
    rw [if_neg (by rwa [hlength])] at hdest
    cases hdest
  · intro hfits
    have hlt : getMaxCompressedDataSize float_width source.length < 2 ^ 32 :=
      mod_lt _ (Nat.two_pow_pos 32)
    refine ⟨UInt8.ofNat float_width :: UInt8.ofNat level :: encode float_width level source,
      ?_, by rwa [hlength], ?_⟩
    · rw [if_pos (by rwa [hlength]), mod_eq_of_lt (by rw [hlength]; omega)]
    · -- the header gives the width and the level back
      have hbyte (k : ℕ) (hk : k ≤ 28) : (UInt8.ofNat k).toNat = k := by
        rw [UInt8.toNat_ofNat']
        omega
      rw [doDecompressData, hbyte level hlevel.2, hbyte float_width (by omega)]
      rw [if_neg (by omega), if_pos hwidth.symm]
      exact hread

theorem doDecompressData_doCompressData_three : ∃ dest,
    doCompressData 4 12 [1, 2, 3] = .ok (dest, dest.length) ∧
      dest.length ≤ getMaxCompressedDataSize 4 3 ∧ doDecompressData 3 dest = .ok [1, 2, 3] :=
  (doDecompressData_doCompressData (.inl rfl) (by decide : 1 ≤ 12 ∧ 12 ≤ 28)
    (by decide : [1, 2, 3].length < 2 ^ 32)).2 (.inl (by decide))

/-- Two bytes are reserved for a source of four gigabytes less one. -/
theorem getMaxCompressedDataSize_wraps : getMaxCompressedDataSize 8 (2 ^ 32 - 1) = 2 ∧
    doCompressData 8 12 (List.replicate (2 ^ 32 - 1) 0) = .error .undefined_behaviour := by
  have hmax : getMaxCompressedDataSize 8 (2 ^ 32 - 1) = 2 := by decide
  have hmin := (decodeLoop_encodeLoop (.inr rfl) _ (.initial : Predictors (2 ^ 12) 8)
    (le_refl (replicate (2 ^ 32 - 1) (0 : UInt8)).length)).2.1
  have hceil : ceilBytesToEvenValues 8 (2 ^ 32 - 1) / 2 = 2 ^ 28 := by decide
  refine ⟨hmax, (if_pos (.inl rfl)).trans (if_neg ?_)⟩
  rw [length_cons, length_cons, encode]
  rw [length_replicate] at *
  omega

end ClickHouse.FPC
