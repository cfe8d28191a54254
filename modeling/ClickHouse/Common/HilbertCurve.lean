/-
Which intervals of Hilbert codes are unpacked to the points that have them
(`hilbertIntervalToHyperrectangles2D` in `src/Common/HilbertUtils.h`).

If the partition returns, its squares are the images of the blocks of the interval, and
decoding is a bijection between codes and points, so they have the right points. Two kinds
of intervals are left: those where a shift is too wide, and the code zero alone, for which
there are no bits to part.
-/
import ClickHouse.Common.HilbertUtils
import ClickHouse.Functions.HilbertEncode

set_option autoImplicit false

namespace ClickHouse

open Lib HilbertWidth

/-- The points of decoded codes are those whose codes they are. -/
lemma exists_hilbertDecode_iff {first last : ℕ} (hlast : last < 2 ^ 64) (x y : ℕ) :
    (∃ c, (first ≤ c ∧ c ≤ last) ∧ hilbertDecode c = (x, y)) ↔
      (x < 2 ^ 32 ∧ y < 2 ^ 32) ∧ first ≤ encode 3 x y ∧ encode 3 x y ≤ last := by
  have hwidth : Supported 3 := ⟨by omega, le_rfl⟩
  simp only [hilbertDecode]
  constructor
  · rintro ⟨c, hc, hpoint⟩
    have hlt := decode_lt hwidth (hc.2.trans_lt hlast)
    have hcode := encode_decode hwidth hwidth (hc.2.trans_lt hlast)
    rw [hpoint] at hlt hcode
    rw [hcode]
    exact ⟨hlt, hc⟩
  · rintro ⟨⟨hx, hy⟩, hcode⟩
    exact ⟨encode 3 x y, hcode, decode_encode hwidth hwidth hx hy⟩

/-- The squares of an interval have the points of its codes. -/
lemma exists_mem_iff {first last : ℕ} {rects : List Block.Rectangle} (hle : first ≤ last)
    (hlast : last < 2 ^ 64) (hne : last ≠ 0)
    (h : hilbertIntervalToHyperrectangles2D first last = .ok rects) (p : ℕ × ℕ) :
    (∃ rect ∈ rects, rect.Mem p) ↔ ∃ c, (first ≤ c ∧ c ≤ last) ∧ hilbertDecode c = p := by
  have hunpacks := hilbertIntervalToHyperrectangles2D_unpacks hle hlast h
  constructor
  · rintro ⟨rect, hrect, hmem⟩
    obtain ⟨j, m, hblock, himage⟩ := hunpacks.sound rect hrect
    obtain ⟨c, hc, hpoint⟩ := (himage p).1 hmem
    exact ⟨c, hblock.inside c hc, hpoint⟩
  · rintro ⟨c, ⟨hl, hr⟩, hpoint⟩
    obtain ⟨j, hblock⟩ := exists_hilbertBlock hne hl hr
    obtain ⟨rect, hrect, himage⟩ := hunpacks.complete j _ hblock
    exact ⟨rect, hrect, (himage p).2 ⟨c, rfl, hpoint⟩⟩

/-- **The Hilbert curve on an interval of codes** is unpacked to the points with these
codes exactly if no shift is too wide and the interval is not the code zero alone. -/
theorem hilbertIntervalToHyperrectangles2D_exact_iff {first last : ℕ} (hle : first ≤ last)
    (hlast : last < 2 ^ 64) :
    (∃ rects, hilbertIntervalToHyperrectangles2D first last = .ok rects ∧
      ∀ x y, (∃ rect ∈ rects, rect.Mem (x, y)) ↔
        (x < 2 ^ 32 ∧ y < 2 ^ 32) ∧ first ≤ encode 3 x y ∧ encode 3 x y ≤ last) ↔
      NoWideShift first last ∧ last ≠ 0 := by
  constructor
  · rintro ⟨rects, hrects, hexact⟩
    refine ⟨(hilbertIntervalToHyperrectangles2D_returns_iff hle hlast).1 ⟨rects, hrects⟩, ?_⟩
    rintro rfl
    obtain rfl := Nat.le_zero.1 hle
    -- nothing is called back for the code zero, which is that of the origin
    obtain rfl := Except.ok.inj hrects
    obtain ⟨rect, hrect, -⟩ := (hexact 0 0).2 ⟨by decide, by decide, by decide⟩
    exact absurd hrect List.not_mem_nil
  · rintro ⟨hshift, hne⟩
    obtain ⟨rects, hrects⟩ := (hilbertIntervalToHyperrectangles2D_returns_iff hle hlast).2 hshift
    refine ⟨rects, hrects, fun x y => ?_⟩
    rw [exists_mem_iff hle hlast hne hrects, exists_hilbertDecode_iff hlast]

/-- The codes from 6 to 13. -/
theorem hilbertIntervalToHyperrectangles2D_exact_at_small_codes :
    ∃ rects, hilbertIntervalToHyperrectangles2D 6 13 = .ok rects ∧
      ∀ x y, (∃ rect ∈ rects, rect.Mem (x, y)) ↔
        (x < 2 ^ 32 ∧ y < 2 ^ 32) ∧ 6 ≤ encode 3 x y ∧ encode 3 x y ≤ 13 := by
  have hsmall : ∀ e, 16 ≤ e → ¬ 4 ^ e ≤ 13 := by
    intro e he h
    have hpow : 4 ^ 16 ≤ 4 ^ e := Nat.pow_le_pow_right (by decide) he
    omega
  refine (hilbertIntervalToHyperrectangles2D_exact_iff (by decide) (by decide)).2
    ⟨⟨fun e he h => absurd h (hsmall e he), fun e he h => ?_⟩, by decide⟩
  exact absurd h (hsmall (e + 1) (by omega))

/-- The origin, whose code is zero, is missing; and one code beyond the first `2 ^ 34` is
shifted for too far. -/
theorem hilbertIntervalToHyperrectangles2D_misses_origin :
    hilbertIntervalToHyperrectangles2D 0 0 = .ok [] ∧ encode 3 0 0 = 0 ∧
      hilbertIntervalToHyperrectangles2D (2 ^ 34) (2 ^ 34) = .error .undefined_behaviour := by
  refine ⟨rfl, by decide, ?_⟩
  decide +kernel

end ClickHouse
