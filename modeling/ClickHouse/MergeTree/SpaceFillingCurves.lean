/-
Conditions on the arguments of a space-filling curve: the evaluation of
`FUNCTION_ARGS_IN_HYPERRECTANGLE` in `KeyCondition::checkInHyperrectangle`
(`src/Storages/MergeTree/KeyCondition.cpp`).

The interval of codes that the key is in is unpacked to rectangles of arguments, and the
answers for the rectangles are joined by `mask | current_intersection`, from
`(false, true)` on.

Each rectangle is answered exactly in `can_be_false` and with an allowance in
`can_be_true` (`rectangleMask_can_be_false`, `rectangleMask_can_be_true`), and the
rectangles are the images of blocks of codes, so the joined mask is a statement about
blocks: `can_be_true` allows for every code of the blocks, but `can_be_false` is kept only
if every block has a code outside of the condition, where one block with such a code is
enough to need it. `argsInHyperrectangle_sound_iff` says for which intervals and
conditions that difference does no harm. It also says where the Hilbert partition fails:
it has no rectangle for the code zero alone, and wide shifts are undefined.
-/
import ClickHouse.Common.HilbertUtils
import ClickHouse.Common.MortonUtils
import ClickHouse.MergeTree.KeyCondition

set_option autoImplicit false

namespace ClickHouse

open Lib Range Option
open DataType (uint64)
open Block (Rectangle Unpacks)

namespace KeyCondition

/-! ## The evaluation -/

/-- The lambda `curve_type`. -/
def curve_type (curves : List SpaceFillingCurveDescription) (key_column_pos : ℕ) :
    SpaceFillingCurveType :=
  match curves.find? (fun curve => curve.key_column_pos = key_column_pos) with
  | some curve => curve.type
  | none => .Unknown

/-- A side of a rectangle of the curve, as a range. -/
def sideRange (side : ℕ × ℕ) : Range ℕ :=
  Range.bounded ⟨.value side.1, true⟩ true ⟨.value side.2, true⟩ true

/-- `current_intersection`: one rectangle against the two ranges of the condition. -/
def rectangleMask (x_range y_range : Range ℕ) (rect : Block.Rectangle) : BoolMask :=
  [(x_range, rect.1), (y_range, rect.2)].foldl
    (fun current_intersection (condition_arg_range, side) =>
      current_intersection.and (atomMask condition_arg_range (sideRange side))) ⟨true, false⟩

/-- The rectangles one by one. -/
def rectanglesMask (x_range y_range : Range ℕ) (rects : List Block.Rectangle) : BoolMask :=
  rects.foldl (fun mask rect => mask.or (rectangleMask x_range y_range rect)) ⟨false, true⟩

/-- The mask of an interval of codes, by the rectangles that it is made of. -/
def curveMask (curve : SpaceFillingCurveType) (x_range y_range : Range ℕ) (left right : ℕ) :
    Eval BoolMask :=
  match curve with
  | .Hilbert => (hilbertIntervalToHyperrectangles2D left right).map (rectanglesMask x_range y_range)
  | .Morton => (mortonIntervalToHyperrectangles left right).map (rectanglesMask x_range y_range)
  | .Unknown => throwException .LOGICAL_ERROR (str "curve_type is `Unknown`. It is a bug.")

/-- The ends of a bounded range of codes, closed where that is possible. -/
def closedEnds (key_range : Range ℕ) : Option (ℕ × ℕ) :=
  -- closing an end does not change its type, so the test may come after it
  let key_range := key_range.shrinkToIncludedIfPossible
  match key_range.left.field, key_range.right.field with
  | .value left, .value right => some (left, right)
  | _, _ => none

/-- `FUNCTION_ARGS_IN_HYPERRECTANGLE`. -/
def argsInHyperrectangle (curves : List SpaceFillingCurveDescription)
    (hyperrectangle : Hyperrectangle ℕ) (element : RPNElement ℕ) : Eval BoolMask :=
  match hyperrectangle[element.key_column]? with
  | none => .error .undefined_behaviour
  | some key_range =>
    match closedEnds key_range, element.space_filling_curve_args_hyperrectangle with
    | some (left, right), [x_range, y_range] =>
      curveMask (curve_type curves element.key_column) x_range y_range left right
    -- only two dimensions are supported, and bounded ranges
    | _, _ => .ok ⟨true, true⟩

/-! ## The masks -/

/-- A point is in the rectangle of the condition. -/
def InRectangle (x_range y_range : Range ℕ) (p : ℕ × ℕ) : Prop :=
  x_range.Mem (.value p.1) ∧ y_range.Mem (.value p.2)

lemma sideRange_mem {side : ℕ × ℕ} {x : ℕ} :
    (sideRange side).Mem (.value x) ↔ side.1 ≤ x ∧ x ≤ side.2 := by
  show Range.Mem ⟨⟨.value side.1, true⟩, ⟨.value side.2, true⟩, true, true⟩ _ ↔ _
  rw [Range.Mem, aboveLeft_iff, belowRight_iff]
  simp

/-- A condition that contains both ends of a side contains the side. -/
lemma containsRange_sideRange {condition : Range ℕ} (side : ℕ × ℕ)
    (hleft : condition.Mem (.value side.1)) (hright : condition.Mem (.value side.2)) :
    condition.containsRange (sideRange side) = true := by
  have hl := aboveLeft_iff.1 hleft.1
  have hr := belowRight_iff.1 hright.2
  rw [containsRange_iff]
  exact ⟨⟨hl.1, fun heq _ => hl.2 heq⟩, hr.1, fun heq _ => hr.2 heq⟩

lemma rectangleMask_eq (x_range y_range : Range ℕ) (rect : Rectangle) :
    rectangleMask x_range y_range rect =
      ⟨x_range.intersectsRange (sideRange rect.1) && y_range.intersectsRange (sideRange rect.2),
        !x_range.containsRange (sideRange rect.1) ||
          !y_range.containsRange (sideRange rect.2)⟩ := by
  simp [rectangleMask, atomMask, BoolMask.and]

variable {x_range y_range : Range ℕ} {rect : Block.Rectangle}

/-- A rectangle with a point in the condition can be true. -/
lemma rectangleMask_can_be_true {p : ℕ × ℕ} (hrect : rect.Mem p)
    (hp : InRectangle x_range y_range p) :
    (rectangleMask x_range y_range rect).can_be_true = true := by
  rw [rectangleMask_eq, Bool.and_eq_true]
  exact ⟨intersectsRange_of_mem hp.1 (sideRange_mem.2 hrect.1),
    intersectsRange_of_mem hp.2 (sideRange_mem.2 hrect.2)⟩

/-- A rectangle can be false exactly if it has a point outside of the condition. -/
lemma rectangleMask_can_be_false (hne : ∃ p, rect.Mem p) :
    (rectangleMask x_range y_range rect).can_be_false = true ↔
      ∃ p, rect.Mem p ∧ ¬ InRectangle x_range y_range p := by
  rw [rectangleMask_eq]
  constructor
  · intro h
    by_contra hall
    have hin : ∀ p, rect.Mem p → InRectangle x_range y_range p := fun p hp =>
      not_not.1 fun hout => hall ⟨p, hp, hout⟩
    obtain ⟨p, ⟨hx, hx'⟩, hy, hy'⟩ := hne
    -- a rectangle lies in the condition if two opposite corners do
    have hfirst := hin (rect.1.1, rect.2.1) ⟨⟨le_rfl, hx.trans hx'⟩, le_rfl, hy.trans hy'⟩
    have hlast := hin (rect.1.2, rect.2.2) ⟨⟨hx.trans hx', le_rfl⟩, hy.trans hy', le_rfl⟩
    rw [containsRange_sideRange rect.1 hfirst.1 hlast.1,
      containsRange_sideRange rect.2 hfirst.2 hlast.2] at h
    exact Bool.false_ne_true h
  · rintro ⟨p, hrect, hout⟩
    by_contra h
    simp only [Bool.or_eq_true, Bool.not_eq_true', not_or, Bool.not_eq_false] at h
    exact hout ⟨mem_of_containsRange h.1 (sideRange_mem.2 hrect.1),
      mem_of_containsRange h.2 (sideRange_mem.2 hrect.2)⟩

lemma foldl_or (f : Rectangle → BoolMask) (rects : List Rectangle) (mask : BoolMask) :
    rects.foldl (fun mask rect => mask.or (f rect)) mask =
      ⟨mask.can_be_true || rects.any fun rect => (f rect).can_be_true,
        mask.can_be_false && rects.all fun rect => (f rect).can_be_false⟩ := by
  induction rects generalizing mask with
  | nil => simp
  | cons rect rects ih =>
    rw [List.foldl_cons, ih]
    simp [BoolMask.or, Bool.or_assoc, Bool.and_assoc]

variable {rects : List Block.Rectangle}

/-- `can_be_false` is lost with the first rectangle that cannot be false. -/
lemma rectanglesMask_spec :
    ((rectanglesMask x_range y_range rects).can_be_true = true ↔
      ∃ rect ∈ rects, (rectangleMask x_range y_range rect).can_be_true = true) ∧
    ((rectanglesMask x_range y_range rects).can_be_false = true ↔
      ∀ rect ∈ rects, (rectangleMask x_range y_range rect).can_be_false = true) := by
  rw [rectanglesMask, foldl_or]
  simp

section Blocks

variable {decode : ℕ → ℕ × ℕ} {B : ℕ} {V : ℕ → ℕ → Prop} {rects : List Block.Rectangle}
  {x_range y_range : Range ℕ}

/-- The joined mask allows for a code of the blocks that is in the condition. -/
lemma can_be_true_of_unpacks (h : Unpacks decode B V rects) {c j : ℕ}
    (hc : V j (c / B ^ j)) (hin : InRectangle x_range y_range (decode c)) :
    (rectanglesMask x_range y_range rects).can_be_true = true := by
  obtain ⟨rect, hrect, himage⟩ := h.complete j _ hc
  exact rectanglesMask_spec.1.2
    ⟨rect, hrect, rectangleMask_can_be_true ((himage _).2 ⟨c, rfl, rfl⟩) hin⟩

/-- **The joined mask in `can_be_false`**: every block has a code outside of the condition. -/
theorem can_be_false_iff_of_unpacks (hB : 0 < B) (h : Unpacks decode B V rects) :
    (rectanglesMask x_range y_range rects).can_be_false = true ↔
      ∀ j m, V j m → ∃ c, c / B ^ j = m ∧ ¬ InRectangle x_range y_range (decode c) := by
  -- a rectangle and its block say the same
  have hrect : ∀ {rect j m}, Block.Image decode B j m rect →
      ((rectangleMask x_range y_range rect).can_be_false = true ↔
        ∃ c, c / B ^ j = m ∧ ¬ InRectangle x_range y_range (decode c)) := by
    intro rect j m himage
    rw [rectangleMask_can_be_false ⟨_, (himage _).2 ⟨_, Block.first_mem hB j m, rfl⟩⟩]
    constructor
    · rintro ⟨p, hp, hout⟩
      obtain ⟨c, hc, rfl⟩ := (himage p).1 hp
      exact ⟨c, hc, hout⟩
    · rintro ⟨c, hc, hout⟩
      exact ⟨decode c, (himage _).2 ⟨c, hc, rfl⟩, hout⟩
  rw [rectanglesMask_spec.2]
  constructor
  · intro hall j m hV
    obtain ⟨rect, hmem, himage⟩ := h.complete j m hV
    exact (hrect himage).1 (hall rect hmem)
  · intro hall rect hmem
    obtain ⟨j, m, hV, himage⟩ := h.sound rect hmem
    exact (hrect himage).2 (hall j m hV)

/-- The joined mask is right about codes that are covered by the blocks exactly if all of
them are in the condition, or no block is. -/
lemma sound_iff_of_unpacks (x_range y_range : Range ℕ) (hB : 0 < B)
    (h : Unpacks decode B V rects) {S : ℕ → Prop} (hcover : ∀ c, S c → ∃ j, V j (c / B ^ j)) :
    (∀ c, S c →
      (InRectangle x_range y_range (decode c) →
        (rectanglesMask x_range y_range rects).can_be_true = true) ∧
      (¬ InRectangle x_range y_range (decode c) →
        (rectanglesMask x_range y_range rects).can_be_false = true)) ↔
    (∀ c, S c → InRectangle x_range y_range (decode c)) ∨
      ∀ j m, V j m → ∃ c, c / B ^ j = m ∧ ¬ InRectangle x_range y_range (decode c) := by
  rw [← can_be_false_iff_of_unpacks hB h]
  constructor
  · intro hsound
    by_cases hall : ∀ c, S c → InRectangle x_range y_range (decode c)
    · exact .inl hall
    · -- a code outside of the condition makes the mask allow for false
      push Not at hall
      obtain ⟨c, hc, hout⟩ := hall
      exact .inr ((hsound c hc).2 hout)
  · intro hwhen c hc
    obtain ⟨j, hV⟩ := hcover c hc
    refine ⟨can_be_true_of_unpacks h hV, fun hout => ?_⟩
    rcases hwhen with hall | hfalse
    · exact absurd (hall c hc) hout
    · exact hfalse

end Blocks

/-! ## Soundness -/

/-- The arguments that a code decodes to. -/
def decodeArgs (curve : SpaceFillingCurveType) (num_dimensions code dim : ℕ) : ℕ :=
  match curve with
  | .Morton => unpacked num_dimensions dim code
  | .Hilbert => if dim = 0 then (hilbertDecode code).1 else (hilbertDecode code).2
  | .Unknown => 0

/-- A code decodes into the rectangle of a condition. -/
def CodeSatisfies (curve : SpaceFillingCurveType) (condition : Hyperrectangle ℕ) (code : ℕ) :
    Prop :=
  condition.Mem fun dim => .value (decodeArgs curve condition.length code dim)

/-- The evaluation allows for what every code in the key's range decodes to. -/
def CurveSound (curves : List SpaceFillingCurveDescription) (hyperrectangle : Hyperrectangle ℕ)
    (element : RPNElement ℕ) : Prop :=
  ∀ key_range code, hyperrectangle[element.key_column]? = some key_range →
    (DataType.uint64 false).Holds (.value code) → key_range.Mem (.value code) →
    ∃ mask, argsInHyperrectangle curves hyperrectangle element = .ok mask ∧
      (CodeSatisfies (curve_type curves element.key_column)
        element.space_filling_curve_args_hyperrectangle code → mask.can_be_true = true) ∧
      (¬ CodeSatisfies (curve_type curves element.key_column)
        element.space_filling_curve_args_hyperrectangle code → mask.can_be_false = true)

/-- The blocks that an interval of codes is split into, and their base. -/
def CurveBlock (curve : SpaceFillingCurveType) (left right j m : ℕ) : Prop :=
  match curve with
  | .Morton => Block.Maximal 2 left right j m
  | .Hilbert => HilbertBlock left right j m
  | .Unknown => False

def curveBase : SpaceFillingCurveType → ℕ
  | .Hilbert => 4
  | _ => 2

/-- What an interval of codes has to satisfy for a condition: on the Hilbert curve no wide
shift is made, and the code zero alone is not in the condition; all codes of the key's
range are in the condition, or no block is. -/
structure SoundWhen (curve : SpaceFillingCurveType) (condition : Hyperrectangle ℕ)
    (key_range : Range ℕ) (left right : ℕ) : Prop where
  shifts : curve = .Hilbert → NoWideShift left right
  zero : curve = .Hilbert → right = 0 → ¬ CodeSatisfies curve condition 0
  blocks :
    (∀ code, (DataType.uint64 false).Holds (.value code) → key_range.Mem (.value code) →
      CodeSatisfies curve condition code) ∨
    ∀ j m, CurveBlock curve left right j m →
      ∃ code, code / curveBase curve ^ j = m ∧ ¬ CodeSatisfies curve condition code

variable {curve : SpaceFillingCurveType}

lemma codeSatisfies_pair {code : ℕ} :
    CodeSatisfies curve [x_range, y_range] code ↔
      InRectangle x_range y_range (decodeArgs curve 2 code 0, decodeArgs curve 2 code 1) := by
  constructor
  · intro h
    exact ⟨h 0 x_range rfl, h 1 y_range rfl⟩
  · rintro ⟨hx, hy⟩ i r hr
    match i with
    | 0 => obtain rfl := some.inj hr; exact hx
    | 1 => obtain rfl := some.inj hr; exact hy
    | i + 2 => exact absurd hr (by simp)

variable {key_range : Range ℕ}

/-- The codes of a key range are between its closed ends. -/
lemma le_of_closedEnds {left right code : ℕ} (hends : closedEnds key_range = some (left, right))
    (hleft : (uint64 false).Bounds key_range.left.field)
    (hright : (uint64 false).Bounds key_range.right.field)
    (hcode : (uint64 false).Holds (.value code)) (hmem : key_range.Mem (.value code)) :
    left ≤ code ∧ code ≤ right := by
  have hshrunk := (mem_shrinkToIncludedIfPossible _ hcode hleft hright).2 hmem
  unfold closedEnds at hends
  dsimp only at hends
  split at hends
  next l r hl hr =>
    obtain ⟨rfl, rfl⟩ := Prod.mk.inj (some.inj hends)
    have habove := (aboveLeft_iff.1 hshrunk.1).1
    have hbelow := (belowRight_iff.1 hshrunk.2).1
    rw [hl, Field.value_le_value] at habove
    rw [hr, Field.value_le_value] at hbelow
    exact ⟨habove, hbelow⟩
  next => cases hends

lemma lt_of_closedEnds {left right : ℕ} (hends : closedEnds key_range = some (left, right))
    (hright : (uint64 false).Bounds key_range.right.field) : right < 2 ^ 64 := by
  -- excluding the right end moves it down by one at most
  have hshrunk : (uint64 false).Bounds key_range.shrinkToIncludedIfPossible.right.field := by
    rw [shrinkToIncludedIfPossible, shrinkRight, shrinkLeft_right]
    split
    next a hr _ =>
      rw [hr] at hright
      have hlt : a < 2 ^ 64 := hright
      split
      next b hprev =>
        simp only [LooseField.prev?, ite_none_left_eq_some, some.injEq] at hprev
        show b < 2 ^ 64
        omega
      next => rw [shrinkLeft_right, hr]; exact hright
    next => rw [shrinkLeft_right]; exact hright
  unfold closedEnds at hends
  dsimp only at hends
  split at hends
  next l r _ hr =>
    obtain ⟨rfl, rfl⟩ := Prod.mk.inj (some.inj hends)
    rw [hr] at hshrunk
    exact hshrunk
  next => cases hends

section Curve

variable {x_range y_range key_range : Range ℕ} {left right : ℕ}

/-- The mask of a curve is right about the codes of the key's range. -/
def MaskSound (curve : SpaceFillingCurveType) (x_range y_range key_range : Range ℕ)
    (m : Eval BoolMask) : Prop :=
  ∀ code, (DataType.uint64 false).Holds (.value code) → key_range.Mem (.value code) →
    ∃ mask, m = .ok mask ∧
      (CodeSatisfies curve [x_range, y_range] code → mask.can_be_true = true) ∧
      (¬ CodeSatisfies curve [x_range, y_range] code → mask.can_be_false = true)

lemma maskSound_iff {V : ℕ → ℕ → Prop} {B : ℕ} (hB : 0 < B)
    (hunpacks : Unpacks (fun code => (decodeArgs curve 2 code 0, decodeArgs curve 2 code 1))
      B V rects)
    (hcover : ∀ code, (uint64 false).Holds (.value code) → key_range.Mem (.value code) →
      ∃ j, V j (code / B ^ j)) :
    MaskSound curve x_range y_range key_range (.ok (rectanglesMask x_range y_range rects)) ↔
      (∀ code, (uint64 false).Holds (.value code) → key_range.Mem (.value code) →
        CodeSatisfies curve [x_range, y_range] code) ∨
      ∀ j m, V j m → ∃ code, code / B ^ j = m ∧
        ¬ CodeSatisfies curve [x_range, y_range] code := by
  simp only [MaskSound, codeSatisfies_pair, Except.ok.injEq, exists_eq_left']
  have hiff := sound_iff_of_unpacks x_range y_range hB hunpacks
    (S := fun code => (uint64 false).Holds (.value code) ∧ key_range.Mem (.value code))
    fun code hcode => hcover code hcode.1 hcode.2
  simpa only [and_imp] using hiff

section

variable (hle : left ≤ right) (hright : right < 2 ^ 64)
  (hends : ∀ code, (DataType.uint64 false).Holds (.value code) → key_range.Mem (.value code) →
    left ≤ code ∧ code ≤ right)
include hle hright hends

/-- The Morton curve. -/
lemma morton_sound_iff :
    MaskSound .Morton x_range y_range key_range (curveMask .Morton x_range y_range left right) ↔
      SoundWhen .Morton [x_range, y_range] key_range left right := by
  obtain ⟨rects, hrects, hunpacks⟩ := mortonIntervalToHyperrectangles_unpacks hle hright
  have hmask : curveMask .Morton x_range y_range left right =
      .ok (rectanglesMask x_range y_range rects) := by
    rw [curveMask, hrects]
    rfl
  have hdecode : Unpacks (fun code => (decodeArgs .Morton 2 code 0, decodeArgs .Morton 2 code 1))
      2 (Block.Maximal 2 left right) rects := hunpacks
  rw [hmask, maskSound_iff two_pos hdecode fun code hcode hmem =>
    Block.exists_maximal one_lt_two (hends code hcode hmem).1 (hends code hcode hmem).2]
  exact ⟨fun h => ⟨nofun, nofun, h⟩, fun h => h.blocks⟩

/-- The Hilbert curve. -/
lemma hilbert_sound_iff
    (hne : ∃ code, (uint64 false).Holds (.value code) ∧ key_range.Mem (.value code)) :
    MaskSound .Hilbert x_range y_range key_range (curveMask .Hilbert x_range y_range left right) ↔
      SoundWhen .Hilbert [x_range, y_range] key_range left right := by
  obtain ⟨code, hcode, hmem⟩ := hne
  by_cases hshift : NoWideShift left right
  · obtain ⟨rects, hrects⟩ :=
      (hilbertIntervalToHyperrectangles2D_returns_iff hle hright).2 hshift
    have hunpacks := hilbertIntervalToHyperrectangles2D_unpacks hle hright hrects
    have hdecode : Unpacks
        (fun code => (decodeArgs .Hilbert 2 code 0, decodeArgs .Hilbert 2 code 1)) 4
        (HilbertBlock left right) rects := hunpacks
    have hmask : curveMask .Hilbert x_range y_range left right =
        .ok (rectanglesMask x_range y_range rects) := by
      rw [curveMask, hrects]
      rfl
    rw [hmask]
    by_cases hzero : right = 0
    · -- the code zero alone has no rectangle
      subst hzero
      have hcodes : ∀ code, (uint64 false).Holds (.value code) →
          key_range.Mem (.value code) → code = 0 :=
        fun code hcode hmem => Nat.le_zero.1 (hends code hcode hmem).2
      obtain rfl : left = 0 := Nat.le_zero.1 hle
      obtain rfl := Except.ok.inj (hilbertIntervalToHyperrectangles2D_zero.symm.trans hrects)
      constructor
      · intro h
        obtain ⟨mask, hok, htrue, -⟩ := h code hcode hmem
        rw [hcodes code hcode hmem, ← Except.ok.inj hok] at htrue
        refine ⟨fun _ => hshift, fun _ _ hin => Bool.false_ne_true (htrue hin), .inr ?_⟩
        intro j m hblock
        obtain ⟨rect, hrect, -⟩ := hdecode.complete j m hblock
        exact absurd hrect (by simp)
      · intro h code hcode hmem
        obtain rfl := hcodes code hcode hmem
        exact ⟨_, rfl, fun hin => absurd hin (h.zero rfl rfl), fun _ => rfl⟩
    · -- each code lies in a block, so that the blocks decide
      rw [maskSound_iff (by omega) hdecode fun code hcode hmem =>
        exists_hilbertBlock hzero (hends code hcode hmem).1 (hends code hcode hmem).2]
      exact ⟨fun h => ⟨fun _ => hshift, fun _ h0 => absurd h0 hzero, h⟩, fun h => h.blocks⟩
  · -- a shift is too wide, and the code gives no mask at all
    refine ⟨fun h => ?_, fun h => absurd (h.shifts rfl) hshift⟩
    obtain ⟨mask, hmask, -⟩ := h code hcode hmem
    refine absurd ?_ hshift
    rw [← hilbertIntervalToHyperrectangles2D_returns_iff hle hright]
    obtain ⟨rects, hrects, -⟩ := bind_eq_ok.1 hmask
    exact ⟨rects, hrects⟩

end

lemma curve_sound_iff (hcurve : curve ≠ .Unknown)
    (hends : closedEnds key_range = some (left, right))
    (hleft : (uint64 false).Bounds key_range.left.field)
    (hright : (uint64 false).Bounds key_range.right.field)
    (hne : ∃ code, (uint64 false).Holds (.value code) ∧ key_range.Mem (.value code)) :
    MaskSound curve x_range y_range key_range (curveMask curve x_range y_range left right) ↔
      SoundWhen curve [x_range, y_range] key_range left right := by
  have hcodes : ∀ code, (uint64 false).Holds (.value code) →
      key_range.Mem (.value code) → left ≤ code ∧ code ≤ right :=
    fun code => le_of_closedEnds hends hleft hright
  have hlt := lt_of_closedEnds hends hright
  have hle : left ≤ right := by
    obtain ⟨code, hcode, hmem⟩ := hne
    exact (hcodes code hcode hmem).1.trans (hcodes code hcode hmem).2
  cases curve with
  | Unknown => exact absurd rfl hcurve
  | Morton => exact morton_sound_iff hle hlt hcodes
  | Hilbert => exact hilbert_sound_iff hle hlt hcodes hne

end Curve

section Evaluation

variable {curves : List SpaceFillingCurveDescription} {hyperrectangle : Hyperrectangle ℕ}
  {element : RPNElement ℕ} {key_range : Range ℕ}

variable (hkey : hyperrectangle[element.key_column]? = some key_range)

include hkey in
lemma argsInHyperrectangle_of_pair {left right : ℕ}
    (hends : closedEnds key_range = some (left, right))
    (hcondition : element.space_filling_curve_args_hyperrectangle = [x_range, y_range]) :
    argsInHyperrectangle curves hyperrectangle element =
      curveMask (curve_type curves element.key_column) x_range y_range left right := by
  rw [argsInHyperrectangle, hkey]
  dsimp only
  rw [hends, hcondition]

include hkey in
lemma argsInHyperrectangle_of_not_pair (h : closedEnds key_range = none ∨
      element.space_filling_curve_args_hyperrectangle.length ≠ 2) :
    argsInHyperrectangle curves hyperrectangle element = .ok ⟨true, true⟩ := by
  rw [argsInHyperrectangle, hkey]
  dsimp only
  split
  next hends hcondition =>
    rw [hends, hcondition] at h
    exact absurd h (by simp)
  next => rfl

lemma curveSound_of_full
    (h : argsInHyperrectangle curves hyperrectangle element = .ok ⟨true, true⟩) :
    CurveSound curves hyperrectangle element :=
  fun _ _ _ _ _ => ⟨_, h, fun _ => rfl, fun _ => rfl⟩

end Evaluation

/-- **Curve atoms are sound** exactly where, for every bounded key range with codes in it
and every two-dimensional condition, all the codes are in the condition or no block of
the partition is, and the Hilbert partition is defined. -/
theorem argsInHyperrectangle_sound_iff (curves : List SpaceFillingCurveDescription)
    (hyperrectangle : Hyperrectangle ℕ) (element : RPNElement ℕ)
    (hcurve : curve_type curves element.key_column ≠ .Unknown)
    (hbounds : ∀ r, hyperrectangle[element.key_column]? = some r →
      (DataType.uint64 false).Bounds r.left.field ∧ (DataType.uint64 false).Bounds r.right.field) :
    CurveSound curves hyperrectangle element ↔
      ∀ key_range left right, hyperrectangle[element.key_column]? = some key_range →
        closedEnds key_range = some (left, right) →
        element.space_filling_curve_args_hyperrectangle.length = 2 →
        (∃ code, (DataType.uint64 false).Holds (.value code) ∧ key_range.Mem (.value code)) →
        SoundWhen (curve_type curves element.key_column)
          element.space_filling_curve_args_hyperrectangle key_range left right := by
  cases hkey : hyperrectangle[element.key_column]? with
  | none => exact ⟨nofun, fun _ _ _ h => absurd (hkey.symm.trans h) nofun⟩
  | some key_range =>
    obtain ⟨hleft, hright⟩ := hbounds key_range hkey
    cases hends : closedEnds key_range with
    | none =>
      -- without two finite ends the mask allows for both
      refine ⟨fun _ _ _ _ h h' => ?_, fun _ => curveSound_of_full
        (argsInHyperrectangle_of_not_pair hkey (.inl hends))⟩
      obtain rfl := some.inj h
      exact absurd (hends.symm.trans h') nofun
    | some ends =>
      obtain ⟨left, right⟩ := ends
      by_cases hlength : element.space_filling_curve_args_hyperrectangle.length = 2
      · obtain ⟨x_range, y_range, hcondition⟩ := List.length_eq_two.1 hlength
        have hmask : argsInHyperrectangle curves hyperrectangle element =
            curveMask (curve_type curves element.key_column) x_range y_range left right :=
          argsInHyperrectangle_of_pair hkey hends hcondition
        constructor
        · rintro h _ _ _ ⟨⟩ hends' - hne
          obtain ⟨rfl, rfl⟩ := Prod.mk.inj (some.inj (hends.symm.trans hends'))
          rw [hcondition, ← curve_sound_iff hcurve hends hleft hright hne]
          intro code hcode hmem
          have hcode := h key_range code hkey hcode hmem
          rwa [hmask, hcondition] at hcode
        · intro h key_range' code hkey' hcode hmem
          obtain rfl := some.inj (hkey.symm.trans hkey')
          have hwhen := h key_range left right rfl hends hlength ⟨code, hcode, hmem⟩
          rw [hcondition, ← curve_sound_iff hcurve hends hleft hright ⟨code, hcode, hmem⟩] at hwhen
          rw [hmask, hcondition]
          exact hwhen code hcode hmem
      · -- a condition on another number of arguments is not looked at
        exact ⟨fun _ _ _ _ _ _ h => absurd h hlength, fun _ => curveSound_of_full
          (argsInHyperrectangle_of_not_pair hkey (.inr hlength))⟩

/-! ## Two codes -/

/-- `mortonEncode(x, y)` as the only key column. -/
def mortonKey : List SpaceFillingCurveDescription := [⟨0, 2, .Morton⟩]

/-- The codes 1 and 2, of the points (1, 0) and (0, 1). -/
def twoCodes : Hyperrectangle ℕ := [⟨⟨.value 1, true⟩, ⟨.value 2, true⟩, true, true⟩]

/-- `x = a AND y = b`. -/
def pointCondition (a b : ℕ) : RPNElement ℕ where
  function := .FUNCTION_ARGS_IN_HYPERRECTANGLE
  key_column := 0
  space_filling_curve_args_hyperrectangle := [.point ⟨.value a, true⟩, .point ⟨.value b, true⟩]

lemma codeSatisfies_pointCondition {a b code : ℕ} :
    CodeSatisfies curve (pointCondition a b).space_filling_curve_args_hyperrectangle code ↔
      decodeArgs curve 2 code 0 = a ∧ decodeArgs curve 2 code 1 = b := by
  rw [pointCondition, codeSatisfies_pair, InRectangle, mem_point, mem_point,
    Field.value.injEq, Field.value.injEq]

/-- A condition that is false on both codes. -/
theorem argsInHyperrectangle_sound_iff_at_two_codes :
    CurveSound mortonKey twoCodes (pointCondition 5 5) := by
  refine (argsInHyperrectangle_sound_iff mortonKey twoCodes (pointCondition 5 5) (by decide)
    ?_).2 ?_
  · intro r hr
    obtain rfl := some.inj hr
    exact ⟨show 1 < 2 ^ 64 by norm_num, show 2 < 2 ^ 64 by norm_num⟩
  intro key_range left right hkey hends _ _
  obtain rfl := some.inj hkey
  obtain ⟨rfl, rfl⟩ := Prod.mk.inj (some.inj hends)
  refine ⟨nofun, nofun, .inr fun j m hblock => ?_⟩
  have hmem := hblock.1 _ (Block.first_mem two_pos j m)
  refine ⟨m * 2 ^ j, Block.first_mem two_pos j m, ?_⟩
  rw [codeSatisfies_pointCondition]
  obtain hc | hc : m * 2 ^ j = 1 ∨ m * 2 ^ j = 2 := by omega
  · rw [hc]
    decide
  · rw [hc]
    decide

/-- `x = 1 AND y = 0` is true on the code 1 and false on the code 2; the evaluation says
that it cannot be false. -/
theorem not_curveSound_twoCodes : ¬ CurveSound mortonKey twoCodes (pointCondition 1 0) := by
  intro h
  obtain ⟨mask, hmask, -, hfalse⟩ := h _ 2 rfl (show 2 < 2 ^ 64 by norm_num) (by decide)
  have hvalue : argsInHyperrectangle mortonKey twoCodes (pointCondition 1 0) = .ok ⟨true, false⟩ :=
    rfl
  obtain rfl := Except.ok.inj (hvalue.symm.trans hmask)
  refine Bool.false_ne_true (hfalse fun hin => ?_)
  rw [codeSatisfies_pointCondition] at hin
  exact absurd hin (by decide)

end KeyCondition

end ClickHouse
