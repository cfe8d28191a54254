/-
The set of active parts does not depend on the order in which the parts arrive
(`ActiveDataPartSet::addImpl`, `MergeTreePartInfo::contains`).

For parts of which two are disjoint or one contains the other, adding one either finds a
stored part that contains it, or replaces the stored parts it contains
(`addImpl_of_covered`, `addImpl_of_not_covered`). So after any number of them what is
stored are parts that have been added, disjoint, and each part that has been added is
contained in one of them (`Reached`). As containment is a partial order, these are the
maximal ones, whatever the order was.

Parts are compared as the map does, by `toTuple`. The last section finds the parts that
another one covers, and removes them.
-/
import ClickHouse.MergeTree.ActiveDataPartSet

set_option autoImplicit false

namespace ClickHouse

open Lib MergeTreePartInfo List

namespace ActiveDataPartSet

/-- `add` for each of the parts, up to the first that throws. -/
def addEach (s : ActiveDataPartSet) : List Entry → Except Exception ActiveDataPartSet
  | [] => .ok s
  | (part_info, name) :: rest =>
    match s.addNamed part_info name with
    | (.ok _, s') => addEach s' rest
    | (.error e, _) => .error e

/-- Two parts are disjoint, or one of them contains the other. -/
def Compatible (p q : MergeTreePartInfo) : Prop :=
  p.isDisjoint q = true ∨ p.contains q = true ∨ q.contains p = true

instance (p q : MergeTreePartInfo) : Decidable (Compatible p q) :=
  inferInstanceAs (Decidable (_ ∨ _ ∨ _))

/-! ## One part -/

section Add

variable {m : PartInfoToName} {p : MergeTreePartInfo}

/-- A part that a stored one contains is refused. -/
lemma addImpl_of_covered (hm : Inv m) (hp : p.Valid) (name : Bytes) {e : Entry} (he : e ∈ m)
    (hc : e.1.contains p = true) : addImpl m p name = { outcome := .HasCovering, map := m } := by
  rw [addImpl, getContainingPartImpl_of_mem hm hp he hc]
  rfl

/-- The walks meet no intersection if every part on the way is disjoint or contained. -/
lemma filter_head_eq_none {l rest : List Entry} (hrest : rest <:+ l)
    (hstop : ∀ it ∈ rest.head?, p.contains it.1 = false)
    (h : ∀ e ∈ l, p.isDisjoint e.1 = true ∨ p.contains e.1 = true) :
    rest.head?.filter (fun it => !p.isDisjoint it.1) = none := by
  refine Option.filter_eq_none_iff.2 fun it hit => ?_
  have hd := (h it (hrest.subset (mem_of_mem_head? hit))).resolve_right (by simp [hstop it hit])
  simp [hd]

/-- **A part that no stored one contains** replaces those it contains. -/
theorem addImpl_of_not_covered (hm : Inv m) (name : Bytes)
    (hnew : ∀ e ∈ m, ¬ e.1.contains p = true) (hcompatible : ∀ e ∈ m, Compatible p e.1) :
    (addImpl m p name).outcome = .Added ∧
      ∀ e, e ∈ (addImpl m p name).map ↔ e = (p, name) ∨ e ∈ m ∧ p.contains e.1 = false := by
  have hlookup : (getContainingPartImpl m p).isSome = false := by
    cases h : getContainingPartImpl m p with
    | none => rfl
    | some e =>
      obtain ⟨he, hc⟩ := getContainingPartImpl_sound h
      exact absurd hc (hnew e he)
  have hwalk : ∀ e ∈ m, p.isDisjoint e.1 = true ∨ p.contains e.1 = true := by
    intro e he
    rcases hcompatible e he with h | h | h
    · exact .inl h
    · exact .inr h
    · exact absurd h (hnew e he)
  obtain ⟨left, hl, hstop, hleft⟩ := goLeft_walk p (m.before p).reverse m []
  have hleft' := filter_head_eq_none hl.suffix hstop
    (fun e he => hwalk e (m.mem_of_mem_before (mem_reverse.1 he)))
  rcases hL : goLeft p (m.before p).reverse m [] with ⟨m₁, replaced, inter⟩
  rw [hL] at hl hleft
  obtain rfl : inter = none := hleft.trans hleft'
  obtain ⟨right, hr, hstop', hright⟩ := goRight_walk p (m.after p) m₁ replaced.reverse
  have hright' := filter_head_eq_none hr.suffix hstop' (fun e he => hwalk e (m.mem_of_mem_after he))
  rcases hR : goRight p (m.after p) m₁ replaced.reverse with ⟨m₂, replaced', next⟩
  rw [hR] at hr hright
  obtain rfl : next = right.head? := hright
  have hsub : ∀ e ∈ m₂, e ∈ m := fun e he => hl.subset e (hr.subset e he)
  have hadd : addImpl m p name =
      { outcome := .Added, map := m₂.emplace p name, replaced := replaced' } := by
    rw [addImpl, hlookup, if_neg Bool.false_ne_true, hL]
    dsimp only
    rw [hR]
    rw [hright']
  rw [hadd]
  refine ⟨rfl, fun e => ⟨fun he => ?_, ?_⟩⟩
  · rcases m₂.mem_emplace he with rfl | he
    · exact .inl rfl
    · refine .inr ⟨hsub e he, Bool.eq_false_iff.2 fun hc => ?_⟩
      have hnot := not_isDisjoint_of_contains (hm.valid e (hsub e he)) hc
      exact Bool.false_ne_true (hnot.symm.trans (walks_disjoint hm hl
        (disjoint_of_filter hleft') hr (disjoint_of_filter hright') e he))
  · rintro (rfl | ⟨he, hc⟩)
    · refine m₂.self_mem_emplace name fun e he heq => ?_
      -- a stored part that is equal to the new one would have been found
      exact hnew e (hsub e he) (contains_of_toTuple_eq heq)
    · exact m₂.mem_emplace_of_mem (hr.keeps (hl.keeps he hc) hc)

end Add

/-! ## Many parts -/

/-- What is stored after the parts `added`, in any order. -/
structure Reached (m : PartInfoToName) (added : List Entry) : Prop where
  inv : Inv m
  stored : ∀ e ∈ m, e ∈ added
  covered : ∀ d ∈ added, ∃ e ∈ m, e.1.contains d.1 = true

variable {m : PartInfoToName} {added : List Entry}

/-- **One step.** -/
theorem Reached.add {p : MergeTreePartInfo} (h : Reached m added) (hp : p.Valid) (name : Bytes)
    (hcompatible : ∀ e ∈ added, Compatible p e.1) :
    (addImpl m p name).outcome ≠ .HasIntersectingPart ∧
      Reached (addImpl m p name).map (added ++ [(p, name)]) := by
  have hinv := addImpl_inv h.inv hp name
  by_cases hcovered : ∃ e ∈ m, e.1.contains p = true
  · obtain ⟨e, he, hc⟩ := hcovered
    rw [addImpl_of_covered h.inv hp name he hc] at hinv ⊢
    refine ⟨by simp, hinv, fun d hd => mem_append_left _ (h.stored d hd), fun d hd => ?_⟩
    rcases mem_append.1 hd with hd | hd
    · exact h.covered d hd
    · obtain rfl := mem_singleton.1 hd
      exact ⟨e, he, hc⟩
  · obtain ⟨houtcome, hmem⟩ := addImpl_of_not_covered h.inv name
      (fun e he hc => hcovered ⟨e, he, hc⟩) (fun e he => hcompatible e (h.stored e he))
    refine ⟨by rw [houtcome]; simp, hinv, fun d hd => ?_, fun d hd => ?_⟩
    · rcases (hmem d).1 hd with rfl | ⟨hd, -⟩
      · exact mem_append_right _ (mem_singleton_self _)
      · exact mem_append_left _ (h.stored d hd)
    rcases mem_append.1 hd with hd | hd
    · -- the part that covered `d` is kept, or the new one contains both
      obtain ⟨e, he, hc⟩ := h.covered d hd
      cases hpe : p.contains e.1 with
      | false => exact ⟨e, (hmem e).2 (.inr ⟨he, hpe⟩), hc⟩
      | true => exact ⟨(p, name), (hmem _).2 (.inl rfl), contains_trans hpe hc⟩
    · obtain rfl := mem_singleton.1 hd
      exact ⟨(p, name), (hmem _).2 (.inl rfl), contains_refl p⟩

/-- **Any number of steps.** -/
theorem addEach_reached {parts : List Entry} (hvalid : ∀ e ∈ parts, e.1.Valid)
    (hcompatible : ∀ a ∈ parts, ∀ b ∈ parts, Compatible a.1 b.1) :
    ∀ (rest added : List Entry) (s : ActiveDataPartSet), (∀ e ∈ added ++ rest, e ∈ parts) →
      Reached s.part_info_to_name added →
      ∃ s', addEach s rest = .ok s' ∧ Reached s'.part_info_to_name (added ++ rest) := by
  intro rest
  induction rest with
  | nil =>
    intro added s _ h
    exact ⟨s, rfl, by rwa [append_nil]⟩
  | cons part rest ih =>
    intro added s hparts h
    have hpart := hparts part (by simp)
    obtain ⟨houtcome, hreached⟩ := h.add (hvalid part hpart) part.2
      (fun e he => hcompatible part hpart e (hparts e (mem_append_left _ he)))
    obtain ⟨s', hs', hreached'⟩ := ih (added ++ [part])
      { s with part_info_to_name := (addImpl s.part_info_to_name part.1 part.2).map }
      (by simpa using hparts) hreached
    refine ⟨s', ?_, by simpa using hreached'⟩
    rw [addEach, addNamed]
    -- a part that is covered is not added, which is no error
    cases hout : (addImpl s.part_info_to_name part.1 part.2).outcome with
    | Added => exact hs'
    | HasCovering => exact hs'
    | HasIntersectingPart => exact absurd hout houtcome

/-- The part is not properly contained in another one. -/
def MaximalPart (parts : List Entry) (p : MergeTreePartInfo) : Prop :=
  ∀ q ∈ parts, q.1.contains p = true → q.1.toTuple = p.toTuple

/-- The stored parts are the maximal ones. -/
lemma Reached.mem_iff (h : Reached m added) (t : Bytes ×ₗ ℤ ×ₗ ℤ ×ₗ ℕ ×ₗ ℤ) :
    (∃ e ∈ m, e.1.toTuple = t) ↔ ∃ e ∈ added, e.1.toTuple = t ∧ MaximalPart added e.1 := by
  constructor
  · rintro ⟨e, he, rfl⟩
    refine ⟨e, h.stored e he, rfl, fun q hq hqe => ?_⟩
    obtain ⟨g, hg, hgq⟩ := h.covered q hq
    obtain rfl := h.inv.eq_of_contains (h.inv.valid e he) hg he (contains_trans hgq hqe)
      (contains_refl e.1)
    exact toTuple_eq_of_contains hqe hgq
  · rintro ⟨e, he, rfl, hmax⟩
    obtain ⟨g, hg, hge⟩ := h.covered e he
    exact ⟨g, hg, hmax g (h.stored g hg) hge⟩

lemma reached_empty (format_version : ℕ) : Reached (empty format_version).part_info_to_name [] :=
  ⟨empty_inv format_version, fun e he => absurd he (OrdMap.not_mem_empty e),
    fun _ hd => absurd hd not_mem_nil⟩

/-- The keys of a map, as it compares them. -/
def keyTuples (m : PartInfoToName) : List (Bytes ×ₗ ℤ ×ₗ ℤ ×ₗ ℕ ×ₗ ℤ) :=
  m.entries.map fun e => e.1.toTuple

lemma mem_keyTuples {t : Bytes ×ₗ ℤ ×ₗ ℤ ×ₗ ℕ ×ₗ ℤ} :
    t ∈ keyTuples m ↔ ∃ e ∈ m, e.1.toTuple = t :=
  mem_map

/-- A map has its keys in order, so the same keys are the same list. -/
lemma keyTuples_ext {m m' : PartInfoToName} (h : ∀ t, t ∈ keyTuples m ↔ t ∈ keyTuples m') :
    keyTuples m = keyTuples m' :=
  (pairwise_map.2 m.sorted).eq_of_mem_iff (pairwise_map.2 m'.sorted) h

/-- **The order of arrival makes no difference.** Of parts with a block range each, of
which two are disjoint or one contains the other, none is reported to intersect another,
and what is stored in the end are those not properly contained in another one. -/
theorem addEach_order_independent (format_version : ℕ) {parts : List Entry}
    (hvalid : ∀ e ∈ parts, e.1.Valid) (hcompatible : ∀ a ∈ parts, ∀ b ∈ parts, Compatible a.1 b.1) :
    ∃ final : List (Bytes ×ₗ ℤ ×ₗ ℤ ×ₗ ℕ ×ₗ ℤ),
      (∀ t, t ∈ final ↔ ∃ e ∈ parts, e.1.toTuple = t ∧ MaximalPart parts e.1) ∧
      ∀ order : List Entry, order.Perm parts →
        ∃ s, addEach (empty format_version) order = .ok s ∧
          keyTuples s.part_info_to_name = final := by
  -- what is stored in the end depends only on which parts there are
  have hany : ∀ order : List Entry, order.Perm parts →
      ∃ s, addEach (empty format_version) order = .ok s ∧
        ∀ t, t ∈ keyTuples s.part_info_to_name ↔
          ∃ e ∈ parts, e.1.toTuple = t ∧ MaximalPart parts e.1 := by
    intro order hperm
    obtain ⟨s, hs, hreached⟩ := addEach_reached hvalid hcompatible order []
      (empty format_version) (fun e he => hperm.mem_iff.1 he) (reached_empty format_version)
    refine ⟨s, hs, fun t => ?_⟩
    rw [mem_keyTuples, hreached.mem_iff]
    simp only [MaximalPart, nil_append, hperm.mem_iff]
  obtain ⟨s₀, -, hfinal⟩ := hany parts (List.Perm.refl parts)
  refine ⟨keyTuples s₀.part_info_to_name, hfinal, fun order hperm => ?_⟩
  obtain ⟨s, hs, hkeys⟩ := hany order hperm
  exact ⟨s, hs, keyTuples_ext fun t => (hkeys t).trans (hfinal t).symm⟩

/-- `a_0_5_1`, a mutation of it, `a_7_9_0` and the dropped range from 0 to 20 with the
maximal level. -/
def fourParts : List Entry :=
  [(⟨[97], 0, 5, 1, 0, false⟩, [1]), (⟨[97], 0, 5, 1, 12, false⟩, [2]),
    (⟨[97], 7, 9, 0, 0, false⟩, [3]), (⟨[97], 0, 20, MAX_LEVEL, 13, false⟩, [4])]

/-- They are added from the first to the last, and back. -/
theorem addEach_order_independent_at_four_parts :
    ∃ s s', addEach (empty 1) fourParts = .ok s ∧ addEach (empty 1) fourParts.reverse = .ok s' ∧
      keyTuples s.part_info_to_name = keyTuples s'.part_info_to_name := by
  obtain ⟨final, -, horders⟩ := @addEach_order_independent 1 fourParts (by decide) (by decide)
  obtain ⟨s, hs, hfinal⟩ := horders fourParts (List.Perm.refl _)
  obtain ⟨s', hs', hfinal'⟩ := horders fourParts.reverse fourParts.reverse_perm
  exact ⟨s, s', hs, hs', hfinal.trans hfinal'.symm⟩

/-! ## Covered parts -/

section

variable {p : MergeTreePartInfo} {e : Entry} (hm : Inv m)
include hm

/-- Under a part that covers `p` nothing else is stored. -/
lemma Inv.filter_eq_nil (he : e ∈ m) (hcovers : e.1.contains p = true)
    (hc : ¬ p.contains e.1 = true) : m.entries.filter (p.contains ·.1) = [] := by
  refine filter_eq_nil_iff.2 fun q hq hpq => hc ?_
  rwa [hm.eq_of_contains (hm.valid q hq) he hq (contains_trans hcovers hpq) (contains_refl q.1)]

variable (hp : ∀ e ∈ m, Compatible p e.1)
include hp

/-- A scan that goes away from the part finds all covered parts, or one that covers the part. -/
lemma coveredRun_spec {l : List Entry} (hl : ∀ e ∈ l, e ∈ m)
    (hfar : l.Pairwise fun it e => p.isDisjoint it.1 = true → p.isDisjoint e.1 = true) :
    coveredRun p l = some (l.filter (p.contains ·.1)) ∨
      coveredRun p l = none ∧ m.entries.filter (p.contains ·.1) = [] := by
  induction l with
  | nil => exact .inl rfl
  | cons it l ih =>
    rw [forall_mem_cons] at hl
    obtain ⟨hit, hfar⟩ := pairwise_cons.1 hfar
    rw [coveredRun]
    split_ifs with hc hcovers
    · -- a covered part, and the scan goes on
      rw [filter_cons, if_pos hc]
      refine (ih hl.2 hfar).imp (fun h => ?_) (And.imp_left fun h => ?_) <;> rw [h] <;> rfl
    · -- a part that covers `p`: then none is covered by it
      exact .inr ⟨rfl, hm.filter_eq_nil hl.1 hcovers hc⟩
    · -- a disjoint part ends the scan, and those further away are disjoint as well
      have hdis := (hp it hl.1).resolve_right (not_or.2 ⟨hc, hcovers⟩)
      refine .inl (congrArg some (filter_eq_nil_iff.2 ?_).symm)
      refine forall_mem_cons.2 ⟨hc, fun e he hcontains => ?_⟩
      have hnot := not_isDisjoint_of_contains (hm.valid e (hl.2 e he)) hcontains
      exact Bool.false_ne_true (hnot.symm.trans (hit e he hdis))

/-- **The scans find exactly the covered parts.** -/
theorem getPartsCoveredByImpl_eq :
    getPartsCoveredByImpl m p = m.entries.filter (p.contains ·.1) := by
  have hbefore : ∀ e ∈ (m.before p).reverse, e ∈ m := fun e he =>
    m.mem_of_mem_before (mem_reverse.1 he)
  have hleft := coveredRun_spec hm hp hbefore
    ((m.sorted_before_reverse p).imp_of_mem fun {it e} hit he hlt _ =>
      disjoint_of_left hm (hbefore it hit) (hbefore e he) hlt
        (m.ord_lt_of_mem_before (mem_reverse.1 hit)))
  have hright := coveredRun_spec hm hp (l := m.after p) (fun e he => m.mem_of_mem_after he)
    ((m.sorted_after p).imp_of_mem fun {it e} hit he hlt hdis =>
      disjoint_of_right (hm.valid it (m.mem_of_mem_after hit)) hdis (m.le_ord_of_mem_after hit) hlt)
  rw [getPartsCoveredByImpl]
  rcases hleft with hleft | ⟨hleft, hnil⟩
  · rcases hright with hright | ⟨hright, hnil⟩
    · -- neither scan met a part that covers `p`
      rw [hleft, hright, filter_reverse]
      dsimp only
      rw [reverse_reverse, ← filter_append, m.before_append_after]
    · rw [hleft, hright, hnil]
  · rw [hleft, hnil]

end

/-- The stored name is the one of the part. -/
def Spelled (format_version : ℕ) (e : Entry) : Prop :=
  ∃ q, fromPartName e.2 format_version = .ok q ∧ q.toTuple = e.1.toTuple

/-- The removal loops: the listed parts are removed, and the result is true only if all of them
were stored. -/
lemma removeAll_spec {s : ActiveDataPartSet} {l : List Entry} (result : Bool)
    (hl : ∀ a ∈ l, Spelled s.format_version a) :
    ∃ r s', removeAll s (l.map Prod.snd) result = (.ok r, s') ∧
      (∀ e, e ∈ s'.part_info_to_name ↔
        e ∈ s.part_info_to_name ∧ ∀ a ∈ l, e.1.toTuple ≠ a.1.toTuple) ∧
      (r = true → result = true ∧
        ∀ a ∈ l, ∃ e ∈ s.part_info_to_name, e.1.toTuple = a.1.toTuple) := by
  induction l generalizing s result with
  | nil => exact ⟨result, s, rfl, by simp, by simp⟩
  | cons a l ih =>
    obtain ⟨⟨q, hq, hqa⟩, hl⟩ := forall_mem_cons.1 hl
    obtain ⟨r, s', hr, hmem, htrue⟩ := ih (s := (s.removeInfo q).2)
      (result && (s.removeInfo q).1) hl
    refine ⟨r, s', ?_, fun e => ?_, fun h => ?_⟩
    · rw [map_cons, removeAll, remove, hq]
      exact hr
    · -- the entries with the key of `a` are gone already
      rw [hmem, forall_mem_cons, ← hqa, removeInfo, OrdMap.mem_erase, and_assoc]
    · obtain ⟨hresult, hstored⟩ := htrue h
      rw [Bool.and_eq_true] at hresult
      refine ⟨hresult.1, forall_mem_cons.2 ⟨?_, fun b hb => ?_⟩⟩
      · obtain ⟨e, he, heq⟩ := (OrdMap.containsKey_iff _).1 hresult.2
        exact ⟨e, he, heq.trans hqa⟩
      · obtain ⟨e, he, heq⟩ := hstored b hb
        exact ⟨e, ((OrdMap.mem_erase _ _ _).1 he).1, heq⟩

/-- **The covered parts are found and removed, and the result is false**: the part itself is one
of the covered parts if it is stored, so that it is removed twice. -/
theorem removePartAndCoveredParts_spec (format_version : ℕ) (ops : List Op)
    (hops : ∀ op ∈ ops, op.Valid) (p : MergeTreePartInfo) :
    let s := (empty format_version).run ops
    let m := s.part_info_to_name
    (∀ e ∈ m, Compatible p e.1) →
      getPartsCoveredBy m p = (m.entries.filter (p.contains ·.1)).map Prod.snd ∧
      ∀ name, fromPartName name s.format_version = .ok p →
        (∀ e ∈ m, p.contains e.1 = true → Spelled s.format_version e) →
        ∃ s', s.removePartAndCoveredParts name = (.ok false, s') ∧
          ∀ e, e ∈ s'.part_info_to_name ↔ e ∈ m ∧ ¬ p.contains e.1 = true := by
  intro s m hp
  have hcovered := congrArg (map Prod.snd)
    (getPartsCoveredByImpl_eq (run_inv ops (empty_inv format_version) hops) hp)
  refine ⟨hcovered, fun name hname hnames => ?_⟩
  have hmem : ∀ e, e ∈ m.entries.filter (p.contains ·.1) ↔ e ∈ m ∧ p.contains e.1 = true :=
    fun e => mem_filter
  obtain ⟨r, s', hr, hset, htrue⟩ := removeAll_spec (s := (s.removeInfo p).2) (s.removeInfo p).1
    fun e he => hnames e ((hmem e).1 he).1 ((hmem e).1 he).2
  -- true would mean that the part was stored and was still there to be removed a second time
  have hfalse : r = false := by
    refine Bool.eq_false_iff.2 fun h => ?_
    obtain ⟨e, he, heq⟩ := (OrdMap.containsKey_iff _).1 (htrue h).1
    obtain ⟨e', he', heq'⟩ := (htrue h).2 e ((hmem e).2 ⟨he, contains_of_toTuple_eq heq.symm⟩)
    exact ((OrdMap.mem_erase _ _ _).1 he').2 (heq'.trans heq)
  refine ⟨s', ?_, fun e => ?_⟩
  · rw [removePartAndCoveredParts, hname]
    dsimp only
    rw [removeAll, remove, hname, getPartsCoveredBy, hcovered, ← hfalse]
    exact hr
  · rw [hset, removeInfo, OrdMap.mem_erase]
    constructor
    · rintro ⟨⟨he, -⟩, hnot⟩
      exact ⟨he, fun hc => hnot e ((hmem e).2 ⟨he, hc⟩) rfl⟩
    · rintro ⟨he, hc⟩
      -- an entry that is not covered has the key of none of the entries that are removed
      have hne : ∀ a, p.contains a = true → e.1.toTuple ≠ a.toTuple :=
        fun a ha heq => hc (contains_trans ha (contains_of_toTuple_eq heq.symm))
      exact ⟨⟨he, hne p (contains_refl p)⟩, fun a ha => hne a.1 ((hmem a).1 ha).2⟩

/-- The set holds `a_0_0_0`. -/
theorem removePartAndCoveredParts_at_one_part :
    let name := ['a', '_', '0', '_', '0', '_', '0'].map ch
    let s := (empty 1).run [.add name]
    ∃ s', s.removePartAndCoveredParts name = (.ok false, s') ∧
      ∀ e, e ∈ s'.part_info_to_name ↔ e ∈ s.part_info_to_name ∧
        ¬ MergeTreePartInfo.contains ⟨[97], 0, 0, 0, 0, false⟩ e.1 = true := by
  intro name s
  have hm : ∀ e ∈ s.part_info_to_name.entries, e = (⟨[97], 0, 0, 0, 0, false⟩, name) := by
    decide +kernel
  refine (removePartAndCoveredParts_spec 1 [.add name] (forall_mem_singleton.2 trivial)
    ⟨[97], 0, 0, 0, 0, false⟩ fun e he => ?_).2 name (by decide +kernel) fun e he _ => ?_
  · rw [hm e he]
    decide
  · rw [hm e he]
    exact ⟨_, by decide +kernel, rfl⟩

/-- `a_0_0_0` is stored and removed, and the result is false. -/
theorem removePartAndCoveredParts_of_stored_part :
    let name := ['a', '_', '0', '_', '0', '_', '0'].map ch
    let r := ((empty 1).run [.add name]).removePartAndCoveredParts name
    ((empty 1).run [.add name]).part_info_to_name.entries.length = 1 ∧
      r.1 = .ok false ∧ r.2.part_info_to_name.entries = [] := by
  decide +kernel

end ActiveDataPartSet

end ClickHouse
