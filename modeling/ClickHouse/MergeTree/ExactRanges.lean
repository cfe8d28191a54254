/-
The exact ranges of `markRangesFromPKRange`
(`src/Storages/MergeTree/MergeTreeDataSelectExecutor.cpp`): marks whose rows are
counted without being read, so every one of their rows has to match.

Both searches put marks into the exact ranges that they have not looked at. The
exclusion search extends the last exact range over a gap of up to
`min_marks_for_seek` marks, as it does for the ranges to read, where reading a few
marks too many costs time only. The binary search takes the interior of its
range as matching, having asked about the two end marks.

`exclusionSearch_exact` and `binarySearchResult_exact` say exactly which marks
end up in the exact ranges, and `exactOutput_iff` is what the rows of these marks
have to satisfy for the output to be exact.
-/
import ClickHouse.MergeTree.MarkRanges

set_option autoImplicit false

namespace ClickHouse.MarkRanges

/-- Asked about this mark alone, the index answers that the condition holds on
all of its rows. -/
def ExactMark (check : MarkRange → BoolMask → BoolMask) (a : ℕ) : Prop :=
  (check ⟨a, a + 1⟩ {}).can_be_true = true ∧ (check ⟨a, a + 1⟩ {}).can_be_false = false

/-! ## The exclusion search -/

/-- What the exact ranges are when the marks before `pos` are done: the marks
between two exact ones with at most `m` marks in between. -/
structure ExactInv (E : ℕ → Prop) (m pos : ℕ) (ex : MarkRanges) : Prop where
  upto : Upto ex pos
  lt_last : ∀ a, a < pos → E a → ∃ last, ex.getLast? = some last ∧ a < last.end_
  last_exact : ∀ last, ex.getLast? = some last → 0 < last.end_ ∧ E (last.end_ - 1)
  covers : ∀ i, Covers ex i ↔ ∃ a b, a ≤ i ∧ i ≤ b ∧ b < pos ∧ b - a - 1 ≤ m ∧ E a ∧ E b

lemma exactInv_nil (E : ℕ → Prop) (m : ℕ) : ExactInv E m 0 [] := by
  refine ⟨upto_nil 0, ?_, ?_, ?_⟩
  · intro a ha
    omega
  · intro last hlast
    simp at hlast
  · intro i
    constructor
    · intro hi
      exact absurd hi (not_covers_nil i)
    · rintro ⟨a, b, -, -, hb, -⟩
      omega

variable {ex : MarkRanges} {E : ℕ → Prop}

lemma ExactInv.skip {m pos pos' : ℕ} (h : ExactInv E m pos ex)
    (hle : pos ≤ pos') (hnone : ∀ a, pos ≤ a → a < pos' → ¬ E a) : ExactInv E m pos' ex := by
  have hbefore : ∀ a, a < pos' → E a → a < pos := by
    intro a ha hEa
    by_contra hge
    exact hnone a (not_lt.1 hge) ha hEa
  refine ⟨h.upto.mono hle, ?_, h.last_exact, ?_⟩
  · intro a ha hEa
    exact h.lt_last a (hbefore a ha hEa) hEa
  intro i
  rw [h.covers i]
  constructor
  · rintro ⟨a, b, hai, hib, hb, hgap, hEa, hEb⟩
    exact ⟨a, b, hai, hib, by omega, hgap, hEa, hEb⟩
  · rintro ⟨a, b, hai, hib, hb, hgap, hEa, hEb⟩
    exact ⟨a, b, hai, hib, hbefore b hb hEb, hgap, hEa, hEb⟩

/-- One more mark that is read exactly extends the exact ranges. -/
lemma ExactInv.push {m pos : ℕ} (h : ExactInv E m pos ex)
    (hE : E pos) : ExactInv E m (pos + 1) (pushOrExtend m ex ⟨pos, pos + 1⟩) := by
  have hone : pos < pos + 1 := Nat.lt_succ_self pos
  obtain ⟨last', hlast', hend'⟩ := getLast?_pushOrExtend m ex ⟨pos, pos + 1⟩
  have hend' : last'.end_ = pos + 1 := hend'
  refine ⟨Upto.pushOrExtend (r := ⟨pos, pos + 1⟩) h.upto hone, ?_, ?_, ?_⟩
  · intro a ha _
    exact ⟨last', hlast', by omega⟩
  · intro last hlast
    obtain rfl : last' = last := Option.some.inj (hlast'.symm.trans hlast)
    rw [hend', Nat.add_sub_cancel]
    exact ⟨Nat.succ_pos pos, hE⟩
  · intro i
    rw [covers_pushOrExtend (r := ⟨pos, pos + 1⟩) h.upto hone, h.covers i]
    constructor
    · rintro (⟨a, b, hai, hib, hb, hgap, hEa, hEb⟩ | ⟨hlo, hhi⟩ | ⟨last, hlast, hgap, hlo, hhi⟩)
      · exact ⟨a, b, hai, hib, by omega, hgap, hEa, hEb⟩
      · have hlo : pos ≤ i := hlo
        exact ⟨pos, pos, hlo, by omega, hone, by omega, hE, hE⟩
      · have hgap : pos - last.end_ ≤ m := hgap
        have hhi : i < pos := hhi
        obtain ⟨hpos, hElast⟩ := h.last_exact last hlast
        exact ⟨last.end_ - 1, pos, by omega, by omega, hone, by omega, hElast, hE⟩
    · rintro ⟨a, b, hai, hib, hb, hgap, hEa, hEb⟩
      by_cases hbpos : b < pos
      · exact .inl ⟨a, b, hai, hib, hbpos, hgap, hEa, hEb⟩
      obtain rfl : b = pos := by omega
      by_cases hi : i = b
      · exact .inr (.inl ⟨by simp [hi], by simp [hi]⟩)
      -- `i` is between `a` and the new mark: inside the last range or in the gap after it
      obtain ⟨last, hlast, halast⟩ := h.lt_last a (by omega) hEa
      by_cases hin : i < last.end_
      · have hle : last.end_ ≤ b := h.upto.end_le last (List.mem_of_getLast? hlast)
        exact .inl ⟨a, last.end_ - 1, hai, by omega, by omega, by omega, hEa,
          (h.last_exact last hlast).2⟩
      · exact .inr (.inr ⟨last, hlast, show b - last.end_ ≤ m by omega, by omega,
          show i < b by omega⟩)

section Searches

variable {check : MarkRange → BoolMask → BoolMask} {rows : ℕ → List Bool} {last_mark : ℕ}

lemma not_mem_of_exactMark (hsound : SoundFor check rows last_mark false) {a : ℕ}
    (ha : a < last_mark) (hE : ExactMark check a) : false ∉ rows a :=
  not_mem_of_mask (r := ⟨a, a + 1⟩) hsound ha hE.2 le_rfl (Nat.lt_succ_self a)

section

variable (htrue : SoundFor check rows last_mark true) (hfalse : SoundFor check rows last_mark false)
  (hrows : ∀ i, i < last_mark → rows i ≠ [])
include htrue hfalse hrows

/-- A segment found useless holds no exact mark: the mark has rows, and they match. -/
lemma not_exactMark_of_cannot_be_true {r : MarkRange} {mask : BoolMask} (hle : r.end_ ≤ last_mark)
    (hmask : (check r mask).can_be_true = false) {a : ℕ} (hlo : r.begin ≤ a) (hhi : a < r.end_) :
    ¬ ExactMark check a := by
  intro hE
  have hno := not_mem_of_exactMark hfalse (show a < last_mark by omega) hE
  obtain ⟨b, hb⟩ := List.exists_mem_of_ne_nil _ (hrows a (by omega))
  cases b with
  | true => exact not_mem_of_mask htrue hle hmask hlo hhi hb
  | false => exact hno hb

/-- **The exact ranges of the exclusion search** are the marks between two exact
ones that are at most `min_marks_for_seek` marks apart. -/
theorem exclusionSearch_exact {coarse m fuel : ℕ} (hcoarse : 2 ≤ coarse) (hlast : 0 < last_mark)
    (hfuel : 2 * last_mark ≤ fuel) :
    ∃ s, exclusionSearch check true coarse m last_mark fuel = some s ∧
      ExactInv (ExactMark check) m last_mark s.exact_ranges := by
  apply exclusionSearch_rule (fun pos _ ex => ExactInv (ExactMark check) m pos ex)
  · exact exactInv_nil _ _
  · -- no mark of a segment that is dropped is exact
    intro range _ ex hne hle hmask h
    apply h.skip hne.le
    intro a hlo hhi
    exact not_exactMark_of_cannot_be_true htrue hfalse hrows hle hmask hlo hhi
  · -- a mark that is taken is exact if it cannot be false
    intro a _ ex ha hmask h
    have hmaskeq : exclusionMask true ⟨a, a + 1⟩ = {} := by simp [exclusionMask]
    rw [hmaskeq] at hmask ⊢
    cases hf : (check ⟨a, a + 1⟩ {}).can_be_false with
    | false => exact h.push ⟨hmask, hf⟩
    | true =>
      apply h.skip (Nat.le_succ a)
      intro x hlo hhi hE
      obtain rfl : x = a := by omega
      exact absurd (hE.2.symm.trans hf) (by decide)
  · exact hcoarse
  · exact hlast
  · exact hfuel

end

lemma exclusionSearch_not_exact (check : MarkRange → BoolMask → BoolMask) {coarse m fuel : ℕ}
    (hcoarse : 2 ≤ coarse) (hlast : 0 < last_mark) (hfuel : 2 * last_mark ≤ fuel) :
    ∃ s, exclusionSearch check false coarse m last_mark fuel = some s ∧ s.exact_ranges = [] := by
  apply exclusionSearch_rule (fun _ _ ex => ex = []) rfl
  · intro _ _ _ _ _ _ h
    exact h
  · intro _ _ _ _ _ h
    simpa using h
  · exact hcoarse
  · exact hlast
  · exact hfuel

/-! ## The binary search -/

/-- **The exact range of the binary search** holds every mark of the range found
but the two ends, which it holds only when the index vouches for them. -/
theorem binarySearchResult_exact (hfalse : SoundFor check rows last_mark false) (checked : Bool)
    {b e : ℕ} (hbe : b < e) (hle : e ≤ last_mark) :
    (∀ i, Covers (binarySearchResult check true checked ⟨b, e⟩).2 i → false ∉ rows i) ↔
      ∀ i, b < i → i + 1 < e → false ∉ rows i := by
  by_cases hone : b + 1 = e
  · -- a single mark is asked about once more, for both answers
    subst hone
    constructor
    · intro _ i hlo hhi
      omega
    intro _ i hi
    rw [binarySearchResult, if_pos hbe, if_pos rfl, if_pos rfl] at hi
    by_cases ht : (check ⟨b, b + 1⟩ {}).can_be_true = true
    · cases hf : (check ⟨b, b + 1⟩ {}).can_be_false with
      | true => simp [ht, hf] at hi
      | false =>
        have hin : b ≤ i ∧ i < b + 1 := by simpa [ht, hf] using hi
        exact not_mem_of_mask (r := ⟨b, b + 1⟩) hfalse hle hf hin.1 hin.2
    · simp [ht] at hi
  · -- the bounds of the exact range, moved inwards by at most one mark
    let first := check ⟨b, b + 1⟩ BoolMask.consider_only_can_be_false
    let last := check ⟨e - 1, e⟩ BoolMask.consider_only_can_be_false
    let b' := if first.can_be_false then b + 1 else b
    let e' := if last.can_be_false then e - 1 else e
    have hcov : ∀ i, Covers (binarySearchResult check true checked ⟨b, e⟩).2 i ↔
        b' ≤ i ∧ i < e' := by
      intro i
      rw [binarySearchResult, if_pos hbe, if_pos rfl, if_neg hone]
      show Covers (if b' < e' then [⟨b', e'⟩] else []) i ↔ _
      split_ifs with hlt
      · rw [covers_singleton]
      · constructor
        · intro hi
          exact absurd hi (not_covers_nil i)
        · rintro ⟨hlo, hhi⟩
          omega
    have hb' : b ≤ b' ∧ b' ≤ b + 1 ∧ (b' = b → first.can_be_false = false) := by
      dsimp only [b']
      split_ifs with hf
      · exact ⟨b.le_succ, le_rfl, fun h => by omega⟩
      · exact ⟨le_rfl, b.le_succ, fun _ => Bool.eq_false_iff.2 hf⟩
    have he' : e' ≤ e ∧ e ≤ e' + 1 ∧ (e' = e → last.can_be_false = false) := by
      dsimp only [e']
      split_ifs with hf
      · exact ⟨e.sub_le 1, by omega, fun h => by omega⟩
      · exact ⟨le_rfl, e.le_succ, fun _ => Bool.eq_false_iff.2 hf⟩
    constructor
    · intro h i hlo hhi
      exact h i ((hcov i).2 ⟨by omega, by omega⟩)
    intro h i hi
    obtain ⟨hlo, hhi⟩ := (hcov i).1 hi
    -- an end is in the exact range only if the index vouched for its mark
    by_cases hib : i = b
    · exact not_mem_of_mask (r := ⟨b, b + 1⟩) hfalse (show b + 1 ≤ last_mark by omega)
        (hb'.2.2 (by omega)) hib.ge (show i < b + 1 by omega)
    by_cases hie : i + 1 = e
    · exact not_mem_of_mask (r := ⟨e - 1, e⟩) hfalse hle (he'.2.2 (by omega))
        (show e - 1 ≤ i by omega) (show i < e by omega)
    exact h i (by omega) (by omega)

/-- Every mark with possible matches on both sides of it matches entirely. -/
def InteriorMatches (check : MarkRange → BoolMask → BoolMask) (rows : ℕ → List Bool)
    (last_mark : ℕ) : Prop :=
  ∀ l i r, 0 < l → l ≤ i → i < r → r < last_mark → probeLeft check l = true →
    probeRight check last_mark r = true → false ∉ rows i

/-- A larger range of marks can be true where a smaller one can. -/
def MonotoneCheck (check : MarkRange → BoolMask → BoolMask) : Prop :=
  ∀ r r' : MarkRange, r'.begin ≤ r.begin → r.end_ ≤ r'.end_ →
    (check r BoolMask.consider_only_can_be_true).can_be_true = true →
    (check r' BoolMask.consider_only_can_be_true).can_be_true = true

/-- What the exact range of the binary search needs of the rows: that the interior
matches is enough, and it is necessary when the answers are monotone. -/
lemma binarySearch_exact (hfalse : SoundFor check rows last_mark false) {fuel : ℕ}
    (hlast : 0 < last_mark) (hfuel : last_mark ≤ fuel) :
    ∃ res ex, binarySearch check true last_mark fuel = some (res, ex) ∧
      (InteriorMatches check rows last_mark → ∀ i, Covers ex i → false ∉ rows i) ∧
      (MonotoneCheck check → (∀ i, Covers ex i → false ∉ rows i) →
        InteriorMatches check rows last_mark) := by
  obtain ⟨b, e, checked, hrun, hbe, hle, hleft, hright, hleft', hright'⟩ :=
    binarySearch_spec check true hlast hfuel
  refine ⟨(binarySearchResult check true checked ⟨b, e⟩).1,
    (binarySearchResult check true checked ⟨b, e⟩).2, hrun, ?_, ?_⟩
  · intro hint
    rw [binarySearchResult_exact hfalse checked hbe hle]
    intro i hlo hhi
    -- the range has an interior, so the probes next to its ends have found a match
    have hl : probeLeft check (b + 1) = true := hleft'.resolve_left (by omega)
    have hr : probeRight check last_mark (e - 1) = true := hright'.resolve_left (by omega)
    exact hint (b + 1) i (e - 1) (Nat.succ_pos b) hlo (by omega) (by omega) hl hr
  · intro hmono hex
    rw [binarySearchResult_exact hfalse checked hbe hle] at hex
    intro l i r hl hli hir hr hpl hpr
    apply hex
    · -- otherwise the left search has seen no match before `b`, beyond `l`
      by_contra hge
      have hb : probeLeft check b = false := hleft.resolve_left (by omega)
      have := hmono ⟨0, l⟩ ⟨0, b⟩ le_rfl (show l ≤ b by omega) hpl
      exact absurd (this.symm.trans hb) (by decide)
    · by_contra hge
      have he : probeRight check last_mark e = false := hright.resolve_left (by omega)
      have := hmono ⟨r, last_mark⟩ ⟨e, last_mark⟩ (show e ≤ r by omega) le_rfl hpr
      exact absurd (this.symm.trans he) (by decide)

lemma binarySearch_not_exact (check : MarkRange → BoolMask → BoolMask) {fuel : ℕ}
    (hlast : 0 < last_mark) (hfuel : last_mark ≤ fuel) :
    ∃ res, binarySearch check false last_mark fuel = some (res, []) := by
  obtain ⟨b, e, checked, hrun, hbe, -⟩ := binarySearch_spec check false hlast hfuel
  refine ⟨(binarySearchResult check false checked ⟨b, e⟩).1, ?_⟩
  rw [hrun, binarySearchResult, if_pos hbe, if_neg Bool.false_ne_true]
  split <;> rfl

end Searches

/-! ## The function -/

/-- Every mark of the exact ranges returned matches entirely. -/
def ExactOutput (rows : ℕ → List Bool) (r : Except Exception (MarkRanges × MarkRanges)) : Prop :=
  ∀ res ex, r = .ok (res, ex) → ∀ i, Covers ex i → false ∉ rows i

lemma exactOutput_ok (rows : ℕ → List Bool) (res ex : MarkRanges) :
    ExactOutput rows (.ok (res, ex)) ↔ ∀ i, Covers ex i → false ∉ rows i := by
  constructor
  · intro h
    exact h res ex rfl
  · rintro h _ _ ⟨⟩
    exact h

lemma exactOutput_of_nil (rows : ℕ → List Bool) (res : MarkRanges) :
    ExactOutput rows (.ok (res, [])) := by
  rw [exactOutput_ok]
  intro i hi
  exact absurd hi (not_covers_nil i)

/-- Two exact marks that the exclusion search joins have only matching marks
between them. -/
def GapsMatch (check : MarkRange → BoolMask → BoolMask) (rows : ℕ → List Bool)
    (m last_mark : ℕ) : Prop :=
  ∀ a i b, a < i → i < b → b < last_mark → b - a - 1 ≤ m → ExactMark check a →
    ExactMark check b → false ∉ rows i

/-- When the exact ranges are exact. -/
def ExactWhen (g : IndexGranularity) (rows : ℕ → List Bool) (c : PKConditions) (want_exact : Bool)
    (settings : SeekSettings) : Prop :=
  indexUsed c = true → (want_exact && !c.relaxed) = true →
  if exactRange c then InteriorMatches c.check_in_range rows g.last_mark
  else 2 ≤ settings.merge_tree_coarse_index_granularity →
    GapsMatch c.check_in_range rows settings.min_marks_for_seek g.last_mark

lemma exactInv_exact_iff {check : MarkRange → BoolMask → BoolMask} {rows : ℕ → List Bool}
    {last_mark m : ℕ} (hfalse : SoundFor check rows last_mark false)
    (h : ExactInv (ExactMark check) m last_mark ex) :
    (∀ i, Covers ex i → false ∉ rows i) ↔ GapsMatch check rows m last_mark := by
  constructor
  · intro hex a i b hai hib hb hgap hEa hEb
    exact hex i ((h.covers i).2 ⟨a, b, hai.le, hib.le, hb, hgap, hEa, hEb⟩)
  intro hgaps i hi
  obtain ⟨a, b, hai, hib, hb, hgap, hEa, hEb⟩ := (h.covers i).1 hi
  by_cases hia : i = a
  · rw [hia]
    exact not_mem_of_exactMark hfalse (by omega) hEa
  by_cases hib' : i = b
  · rw [hib']
    exact not_mem_of_exactMark hfalse hb hEb
  exact hgaps a i b (by omega) (by omega) hb hgap hEa hEb

/-- **Exact ranges are exact** if the marks taken in without being looked at match:
those between two joined exact marks for the exclusion search, the interior of the
range for the binary search. For the exclusion search that is also necessary, and
for the binary search it is when the answers are monotone. -/
theorem exactOutput_iff (g : IndexGranularity) (part : PartRows g) (c : PKConditions)
    (want_exact : Bool) (settings : SeekSettings) (fuel : ℕ)
    (htrue : SoundFor c.check_in_range part.rows g.last_mark true)
    (hfalse : SoundFor c.check_in_range part.rows g.last_mark false)
    (hfuel : 2 * g.last_mark ≤ fuel) :
    ∃ r, markRangesFromPKRange fuel g c want_exact settings = some r ∧
      (ExactWhen g part.rows c want_exact settings → ExactOutput part.rows r) ∧
      ((exactRange c = true → MonotoneCheck c.check_in_range) → ExactOutput part.rows r →
        ExactWhen g part.rows c want_exact settings) := by
  by_cases hmarks : g.marks_count = 0
  · -- a part without marks has no ranges
    refine ⟨_, markRangesFromPKRange_of_empty fuel want_exact settings hmarks,
      fun _ => exactOutput_of_nil _ _, fun _ _ => ?_⟩
    have hlast : g.last_mark = 0 := by
      unfold IndexGranularity.last_mark
      omega
    intro _ _
    split
    · intro l i r _ _ _ hr
      omega
    · intro _ a i b _ _ hb
      omega
  have hlast := last_mark_pos hmarks
  cases huse : indexUsed c with
  | false =>
    -- the index is not used, and no range is called exact
    exact ⟨_, markRangesFromPKRange_of_unused fuel want_exact settings hmarks huse,
      fun _ => exactOutput_of_nil _ _, fun _ _ h => absurd (h.symm.trans huse) (by decide)⟩
  | true =>
  cases hrange : exactRange c with
  | true =>
    have heq := markRangesFromPKRange_of_binary fuel want_exact settings hmarks huse hrange
    cases hwant : (want_exact && !c.relaxed) with
    | false =>
      -- exact ranges are not asked for, or the condition is relaxed
      obtain ⟨res, hrun⟩ := binarySearch_not_exact c.check_in_range hlast
        (show g.last_mark ≤ fuel by omega)
      rw [hwant, hrun, Option.map_some] at heq
      exact ⟨_, heq, fun _ => exactOutput_of_nil _ _,
        fun _ _ _ h => absurd (h.symm.trans hwant) (by decide)⟩
    | true =>
      obtain ⟨res, ex, hrun, hsuff, hnec⟩ := binarySearch_exact hfalse hlast
        (show g.last_mark ≤ fuel by omega)
      rw [hwant, hrun, Option.map_some] at heq
      refine ⟨_, heq, ?_, ?_⟩
      · intro hwhen
        have hint := hwhen huse hwant
        rw [if_pos hrange] at hint
        exact (exactOutput_ok _ _ _).2 (hsuff hint)
      · intro hmono hex _ _
        rw [if_pos hrange]
        exact hnec (hmono rfl) ((exactOutput_ok _ _ _).1 hex)
  | false =>
    by_cases hcoarse : 2 ≤ settings.merge_tree_coarse_index_granularity
    · have heq := markRangesFromPKRange_of_exclusion fuel want_exact settings hmarks huse hrange
        hcoarse
      cases hwant : (want_exact && !c.relaxed) with
      | false =>
        obtain ⟨s, hrun, hnil⟩ := exclusionSearch_not_exact c.check_in_range
          (m := settings.min_marks_for_seek) hcoarse hlast hfuel
        rw [hwant, hrun, Option.map_some, hnil] at heq
        exact ⟨_, heq, fun _ => exactOutput_of_nil _ _,
          fun _ _ _ h => absurd (h.symm.trans hwant) (by decide)⟩
      | true =>
        obtain ⟨s, hrun, hinv⟩ := exclusionSearch_exact (m := settings.min_marks_for_seek)
          htrue hfalse part.rows_ne_nil hcoarse hlast hfuel
        rw [hwant, hrun, Option.map_some] at heq
        have hiff := exactInv_exact_iff hfalse hinv
        refine ⟨_, heq, ?_, ?_⟩
        · intro hwhen
          have hgaps := hwhen huse hwant
          rw [if_neg (by simp [hrange])] at hgaps
          exact (exactOutput_ok _ _ _).2 (hiff.2 (hgaps hcoarse))
        · intro _ hex _ _
          rw [if_neg (by simp [hrange])]
          intro _
          exact hiff.1 ((exactOutput_ok _ _ _).1 hex)
    · refine ⟨_, markRangesFromPKRange_of_coarse fuel want_exact settings hmarks huse hrange
        (by omega), ?_, ?_⟩
      · rintro - _ _ ⟨⟩
      · intro _ _ _ _
        rw [if_neg (by simp [hrange])]
        intro h
        exact absurd h hcoarse

/-- Keys `0 0 | 0 1 | 2 2` and the condition `x != 1`: with `min_marks_for_seek = 1`
the marks 0 and 2 are joined, and the row `1` is counted. -/
theorem markRangesFromPKRange_joins_exact_marks :
    SoundFor (scanConditions (markList [[true, true], [true, false], [true, true]])
        false).check_in_range (markList [[true, true], [true, false], [true, true]]) 3 true ∧
      SoundFor (scanConditions (markList [[true, true], [true, false], [true, true]])
        false).check_in_range (markList [[true, true], [true, false], [true, true]]) 3 false ∧
      markRangesFromPKRange 6 ⟨4, true, by decide⟩
          (scanConditions (markList [[true, true], [true, false], [true, true]]) false) true
          ⟨8, 8192, 0, 8192, 0, by decide⟩ = some (.ok ([⟨0, 3⟩], [⟨0, 3⟩])) ∧
      Covers [⟨0, 3⟩] 1 ∧ false ∈ markList [[true, true], [true, false], [true, true]] 1 := by
  refine ⟨?_, ?_, rfl, ?_, by decide⟩
  · rw [scanConditions_check]
    exact scanCheck_sound _ _ _
  · rw [scanConditions_check]
    exact scanCheck_sound _ _ _
  · exact covers_singleton.2 ⟨by decide, by decide⟩

/-- The same part without seeking over gaps. -/
theorem exactOutput_iff_at_three_marks :
    ∃ r, markRangesFromPKRange 6 ⟨4, true, by decide⟩
        (scanConditions (markList [[true, true], [true, false], [true, true]]) false) true
        ⟨8, 0, 0, 8192, 0, by decide⟩ = some r ∧
      (ExactWhen ⟨4, true, by decide⟩ (markList [[true, true], [true, false], [true, true]])
          (scanConditions (markList [[true, true], [true, false], [true, true]]) false) true
          ⟨8, 0, 0, 8192, 0, by decide⟩ →
        ExactOutput (markList [[true, true], [true, false], [true, true]]) r) := by
  obtain ⟨r, hrun, hsuff, -⟩ := exactOutput_iff ⟨4, true, by decide⟩
    ⟨markList [[true, true], [true, false], [true, true]], by decide,
      fun _ hi => markList_eq_nil hi⟩
    (scanConditions (markList [[true, true], [true, false], [true, true]]) false) true
    ⟨8, 0, 0, 8192, 0, by decide⟩ 6
    (by rw [scanConditions_check]; exact scanCheck_sound _ _ _)
    (by rw [scanConditions_check]; exact scanCheck_sound _ _ _) (by decide)
  exact ⟨r, hrun, hsuff⟩

end ClickHouse.MarkRanges
