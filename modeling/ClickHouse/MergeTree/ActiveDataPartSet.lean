/-
`ActiveDataPartSet` (`src/Storages/MergeTree/ActiveDataPartSet.{h,cpp}`): the
set of active parts, a `std::map` from part infos to part names.

An operation returns its result together with the set it leaves behind, also
when it throws: `addImpl` erases covered neighbours while it walks, before the
last neighbour decides whether the part is accepted, and what it erased stays
erased when it then reports an intersection.

The invariant is that the stored parts are pairwise disjoint. It is what makes
the lookup of `getContainingPartImpl`, which inspects `lower_bound` and its
predecessor only, complete: between a part and a stored part that covers it no
third part fits in the map order, because that part would share a block with
the covering one (`eq_of_between`).
-/
import ClickHouse.Lib.OrdMap
import ClickHouse.MergeTree.PartInfo

set_option autoImplicit false

namespace ClickHouse

open Lib MergeTreePartInfo Option
open List hiding next

/-- `std::map<MergeTreePartInfo, String>`. -/
abbrev PartInfoToName : Type := OrdMap MergeTreePartInfo Bytes toTuple

/-- `ActiveDataPartSet`: the parts that no other part covers. -/
structure ActiveDataPartSet where
  format_version : ℕ
  part_info_to_name : PartInfoToName

namespace ActiveDataPartSet

abbrev Entry : Type := MergeTreePartInfo × Bytes

/-- `AddPartOutcome`. -/
inductive AddPartOutcome where
  | Added
  | HasCovering
  | HasIntersectingPart
  deriving DecidableEq, Repr

/-! ## The operations -/

def empty (format_version : ℕ) : ActiveDataPartSet := ⟨format_version, OrdMap.empty⟩

/-- `getContainingPartImpl`: look at `lower_bound` and at its predecessor;
`none` is `part_info_to_name.end()`. -/
def getContainingPartImpl (m : PartInfoToName) (p : MergeTreePartInfo) : Option Entry :=
  match (m.after p).head?.filter (fun it => it.1.contains p) with
  | some it => some it
  | none => (m.before p).getLast?.filter (fun it => it.1.contains p)

/-- "Let's go left": the loop of `addImpl` over the entries in front of
`lower_bound`, nearest first. It erases covered parts; the last component is the
part it found intersecting, if any. -/
def goLeft (p : MergeTreePartInfo) :
    List Entry → PartInfoToName → List Bytes → PartInfoToName × List Bytes × Option Entry
  | [], m, replaced => (m, replaced, none)
  | it :: rest, m, replaced =>
    if p.contains it.1 = false then
      if p.isDisjoint it.1 = false then (m, replaced, some it) else (m, replaced, none)
    else goLeft p rest (m.erase it.1) (replaced ++ [it.2])

/-- "Let's go to the right": erase covered parts from `lower_bound` on; the last
component is the first part not covered. -/
def goRight (p : MergeTreePartInfo) :
    List Entry → PartInfoToName → List Bytes → PartInfoToName × List Bytes × Option Entry
  | [], m, replaced => (m, replaced, none)
  | it :: rest, m, replaced =>
    if p.contains it.1 then goRight p rest (m.erase it.1) (replaced ++ [it.2])
    else (m, replaced, some it)

/-- The text of an intersection, which the caller may throw. -/
def intersectsReason (name : Bytes) (what : String) (q : MergeTreePartInfo) : Bytes :=
  str "Part " ++ name ++ str what ++ q.getPartNameForLogs
    ++ str ". It is a bug or a result of manual intervention in the ZooKeeper data."

/-- What `addImpl` returns: the outcome, the map it leaves, `out_replaced_parts`
and `out_reason`. -/
structure AddResult where
  outcome : AddPartOutcome
  map : PartInfoToName
  replaced : List Bytes := []
  reason : Bytes := []

/-- `addImpl`. Covered parts are erased on the way, also where an intersection is then found. -/
def addImpl (m : PartInfoToName) (p : MergeTreePartInfo) (name : Bytes) : AddResult :=
  if (getContainingPartImpl m p).isSome then { outcome := .HasCovering, map := m }
  else
    match goLeft p (m.before p).reverse m [] with
    | (m₁, replaced, some it) =>
      { outcome := .HasIntersectingPart
        map := m₁
        replaced := replaced
        reason := intersectsReason p.getPartNameForLogs " intersects previous part " it.1 }
    | (m₁, replaced, none) =>
      -- `std::reverse` puts what the left walk collected into map order
      match goRight p (m.after p) m₁ replaced.reverse with
      | (m₂, replaced, next) =>
        match next.filter (fun it => !p.isDisjoint it.1) with
        | some it =>
          { outcome := .HasIntersectingPart
            map := m₂
            replaced := replaced
            reason := intersectsReason name " intersects part " it.1 }
        | none => { outcome := .Added, map := m₂.emplace p name, replaced := replaced }

variable (s : ActiveDataPartSet)

/-- `add(part_info, name)`: an intersection is thrown. -/
def addNamed (p : MergeTreePartInfo) (name : Bytes) : Except Exception Bool × ActiveDataPartSet :=
  let r := addImpl s.part_info_to_name p name
  let s' := { s with part_info_to_name := r.map }
  match r.outcome with
  | .HasIntersectingPart => (.error ⟨.LOGICAL_ERROR, r.reason⟩, s')
  | .Added => (.ok true, s')
  | .HasCovering => (.ok false, s')

/-- `add(part_info)`. -/
def addInfo (p : MergeTreePartInfo) : Except Exception Bool × ActiveDataPartSet :=
  match p.getPartNameAndCheckFormat s.format_version with
  | .error e => (.error e, s)
  | .ok name => addNamed s p name

/-- `add(name)`. -/
def add (name : Bytes) : Except Exception Bool × ActiveDataPartSet :=
  match fromPartName name s.format_version with
  | .error e => (.error e, s)
  | .ok p => addNamed s p name

/-- `tryAddPart`: an intersection is an outcome, not an exception. -/
def tryAddPart (p : MergeTreePartInfo) : Except Exception AddPartOutcome × ActiveDataPartSet :=
  match p.getPartNameAndCheckFormat s.format_version with
  | .error e => (.error e, s)
  | .ok name =>
    let r := addImpl s.part_info_to_name p name
    (.ok r.outcome, { s with part_info_to_name := r.map })

/-- `remove(part_info)`. -/
def removeInfo (p : MergeTreePartInfo) : Bool × ActiveDataPartSet :=
  (s.part_info_to_name.containsKey p, { s with part_info_to_name := s.part_info_to_name.erase p })

/-- `remove(part_name)`. -/
def remove (name : Bytes) : Except Exception Bool × ActiveDataPartSet :=
  match fromPartName name s.format_version with
  | .error e => (.error e, s)
  | .ok p => (.ok (s.removeInfo p).1, (s.removeInfo p).2)

/-- One direction of `getPartsCoveredByImpl`: the covered entries up to the first
one that is not; `none` when that one covers the part. -/
def coveredRun (p : MergeTreePartInfo) : List Entry → Option (List Entry)
  | [] => some []
  | it :: rest =>
    if p.contains it.1 then (coveredRun p rest).map (it :: ·)
    else if it.1.contains p then none
    else some []

/-- `getPartsCoveredByImpl`: nothing at all if the part itself is covered. -/
def getPartsCoveredByImpl (m : PartInfoToName) (p : MergeTreePartInfo) : List Entry :=
  match coveredRun p (m.before p).reverse, coveredRun p (m.after p) with
  | some left, some right => left.reverse ++ right
  | _, _ => []

/-- `getPartsCoveredBy`, as names. -/
def getPartsCoveredBy (m : PartInfoToName) (p : MergeTreePartInfo) : List Bytes :=
  (getPartsCoveredByImpl m p).map Prod.snd

/-- The removal loops: a name that does not parse throws and ends the loop with
the parts before it removed. -/
def removeAll : ActiveDataPartSet → List Bytes → Bool → Except Exception Bool × ActiveDataPartSet
  | s, [], result => (.ok result, s)
  | s, name :: rest, result =>
    match s.remove name with
    | (.error e, s') => (.error e, s')
    | (.ok removed, s') => removeAll s' rest (result && removed)

/-- `removePartAndCoveredParts`: the part is the first one to be removed. -/
def removePartAndCoveredParts (name : Bytes) : Except Exception Bool × ActiveDataPartSet :=
  match fromPartName name s.format_version with
  | .error e => (.error e, s)
  | .ok p => removeAll s (name :: getPartsCoveredBy s.part_info_to_name p) true

/-- `removePartsCoveredBy`: the part itself stays. -/
def removePartsCoveredBy (name : Bytes) : Except Exception Bool × ActiveDataPartSet :=
  match fromPartName name s.format_version with
  | .error e => (.error e, s)
  | .ok p => removeAll s ((getPartsCoveredBy s.part_info_to_name p).filter (· ≠ name)) true

/-! ## The invariant and the lookup -/

/-- The stored parts are valid and pairwise disjoint. -/
structure Inv (m : PartInfoToName) : Prop where
  valid : ∀ e ∈ m, e.1.Valid
  disjoint : ∀ a ∈ m, ∀ b ∈ m, a ≠ b → a.1.isDisjoint b.1 = true

lemma Inv.mono {m m' : PartInfoToName} (hm : Inv m) (hsub : ∀ e ∈ m', e ∈ m) : Inv m' :=
  ⟨fun e he => hm.valid e (hsub e he),
    fun a ha b hb hab => hm.disjoint a (hsub a ha) b (hsub b hb) hab⟩

variable {m : PartInfoToName} {a b : Entry}

/-- Two stored parts of one partition with a common block are one part. -/
lemma Inv.eq_of_common (hm : Inv m) {n : ℤ} (ha : a ∈ m) (hb : b ∈ m)
    (hpart : a.1.partition_id = b.1.partition_id) (han : a.1.min_block ≤ n ∧ n ≤ a.1.max_block)
    (hbn : b.1.min_block ≤ n ∧ n ≤ b.1.max_block) : a = b := by
  by_contra hab
  have h1 := hm.disjoint a ha b hb hab
  rw [not_isDisjoint_of_common hpart han hbn] at h1
  exact Bool.false_ne_true h1

variable {p : MergeTreePartInfo}

/-- A stored part between a part and the stored part that covers it, in the map
order and on either side, is the covering part. -/
lemma Inv.eq_of_between (hm : Inv m) (hp : p.Valid) {e q : Entry} (he : e ∈ m) (hq : q ∈ m)
    (hc : e.1.contains p = true) (h : (p.toTuple ≤ q.1.toTuple ∧ q.1.toTuple ≤ e.1.toTuple)
      ∨ (e.1.toTuple ≤ q.1.toTuple ∧ q.1.toTuple ≤ p.toTuple)) : q = e := by
  obtain ⟨hpart, hmin, hmax, -⟩ := (contains_iff e.1 p).1 hc
  have hpv : p.min_block ≤ p.max_block := hp
  have hqv : q.1.min_block ≤ q.1.max_block := hm.valid q hq
  rcases h with ⟨h1, h2⟩ | ⟨h1, h2⟩
  · obtain ⟨hqp, hlo, hhi⟩ := between_of_toTuple h1 h2 hpart.symm
    refine hm.eq_of_common hq he (hqp.trans hpart.symm) (n := q.1.min_block) ⟨le_refl _, hqv⟩ ?_
    constructor <;> omega
  · obtain ⟨hqe, hlo, hhi⟩ := between_of_toTuple h1 h2 hpart
    refine hm.eq_of_common hq he hqe (n := q.1.min_block) ⟨le_refl _, hqv⟩ ?_
    constructor <;> omega

variable {e : Entry}

lemma getContainingPartImpl_sound (h : getContainingPartImpl m p = some e) :
    e ∈ m ∧ e.1.contains p = true := by
  unfold getContainingPartImpl at h
  split at h
  · rename_i it hit
    cases h
    obtain ⟨hhead, hc⟩ := filter_eq_some_iff.1 hit
    exact ⟨m.mem_of_mem_after (mem_of_mem_head? hhead), hc⟩
  · obtain ⟨hlast, hc⟩ := filter_eq_some_iff.1 h
    exact ⟨m.mem_of_mem_before (mem_of_mem_getLast? hlast), hc⟩

/-- At most one stored part covers `p`. -/
lemma Inv.eq_of_contains (hm : Inv m) (hp : p.Valid) (ha : a ∈ m) (hb : b ∈ m)
    (hac : a.1.contains p = true) (hbc : b.1.contains p = true) : a = b := by
  obtain ⟨hpart, hmin, hmax, -⟩ := (contains_iff a.1 p).1 hac
  obtain ⟨hpart', hmin', hmax', -⟩ := (contains_iff b.1 p).1 hbc
  have hpv : p.min_block ≤ p.max_block := hp
  refine hm.eq_of_common ha hb (hpart.trans hpart'.symm) (n := p.min_block) ⟨hmin, ?_⟩ ⟨hmin', ?_⟩
  <;> omega

/-- **The two-neighbour lookup is complete**: it returns the covering part
whenever one is stored. -/
theorem getContainingPartImpl_of_mem (hm : Inv m) (hp : p.Valid) (he : e ∈ m)
    (hc : e.1.contains p = true) : getContainingPartImpl m p = some e := by
  cases hfound : getContainingPartImpl m p with
  | some q =>
    obtain ⟨hq, hqc⟩ := getContainingPartImpl_sound hfound
    rw [hm.eq_of_contains hp hq he hqc hc]
  | none =>
    rw [getContainingPartImpl] at hfound
    split at hfound
    · cases hfound
    rename_i hafter
    rw [filter_eq_none_iff] at hafter hfound
    rcases (m.mem_before_or_after p e).1 he with hb | ha
    · -- it is in front of `lower_bound`, so it is the predecessor
      obtain ⟨q, hq, hle⟩ := m.le_getLast_before hb
      have hqb := mem_of_mem_getLast? hq
      have hqe := hm.eq_of_between hp he (m.mem_of_mem_before hqb) hc
        (.inr ⟨hle, (m.ord_lt_of_mem_before hqb).le⟩)
      exact absurd hc (hqe ▸ hfound q hq)
    · -- it is at `lower_bound` or behind it, so it is at `lower_bound`
      obtain ⟨q, hq, hle⟩ := m.head_after_le ha
      have hqa := mem_of_mem_head? hq
      have hqe := hm.eq_of_between hp he (m.mem_of_mem_after hqa) hc
        (.inl ⟨m.le_ord_of_mem_after hqa, hle⟩)
      exact absurd hc (hqe ▸ hafter q hq)

/-! ## `addImpl` keeps the invariant -/

/-- What both walks do with the parts on the way: those they erase are contained in the new
part, up to `rest`, which starts with one that is not. -/
structure Walk (p : MergeTreePartInfo) (l : List Entry) (m m' : PartInfoToName)
    (rest : List Entry) : Prop where
  split : ∃ covered, l = covered ++ rest ∧ (∀ a ∈ covered, p.contains a.1 = true) ∧
    ∀ e, e ∈ m' ↔ e ∈ m ∧ ∀ a ∈ covered, e.1.toTuple ≠ a.1.toTuple

namespace Walk

variable {l rest : List Entry} {m' : PartInfoToName} {it : Entry}

lemma stop (l : List Entry) : Walk p l m m l := ⟨[], rfl, by simp, by simp⟩

lemma cons (hc : p.contains it.1 = true) (h : Walk p l (m.erase it.1) m' rest) :
    Walk p (it :: l) m m' rest := by
  obtain ⟨covered, rfl, hcovered, hmem⟩ := h.split
  refine ⟨it :: covered, rfl, forall_mem_cons.2 ⟨hc, hcovered⟩, fun e => ?_⟩
  rw [hmem, OrdMap.mem_erase, forall_mem_cons, and_assoc]

variable (h : Walk p l m m' rest)
include h

lemma subset (e : Entry) (he : e ∈ m') : e ∈ m := by
  obtain ⟨covered, -, -, hmem⟩ := h.split
  exact ((hmem e).1 he).1

/-- What the walk met and left in the map is in `rest`. -/
lemma mem_rest (hl : e ∈ l) (he : e ∈ m') : e ∈ rest := by
  obtain ⟨covered, rfl, -, hmem⟩ := h.split
  rcases mem_append.1 hl with hc | hr
  · exact absurd rfl (((hmem e).1 he).2 e hc)
  · exact hr

/-- Only what the part contains is erased. -/
lemma keeps (he : e ∈ m) (hc : p.contains e.1 = false) : e ∈ m' := by
  obtain ⟨covered, -, hcovered, hmem⟩ := h.split
  refine (hmem e).2 ⟨he, fun a ha heq => ?_⟩
  rw [contains_trans (hcovered a ha) (contains_of_toTuple_eq heq.symm)] at hc
  exact Bool.false_ne_true hc.symm

lemma suffix : rest <:+ l := by
  obtain ⟨covered, rfl, -, -⟩ := h.split
  exact suffix_append _ _

end Walk

lemma goLeft_walk (p : MergeTreePartInfo) (l : List Entry) (m : PartInfoToName)
    (replaced : List Bytes) :
    ∃ rest, Walk p l m (goLeft p l m replaced).1 rest ∧
      (∀ it ∈ rest.head?, p.contains it.1 = false) ∧
      (goLeft p l m replaced).2.2 = rest.head?.filter fun it => !p.isDisjoint it.1 := by
  induction l generalizing m replaced with
  | nil => exact ⟨[], .stop [], by simp, rfl⟩
  | cons it l ih =>
    rw [goLeft]
    split_ifs with hc hd
    · exact ⟨it :: l, .stop _, by simpa using hc, by simp [Option.filter, hd]⟩
    · exact ⟨it :: l, .stop _, by simpa using hc, by simp [Option.filter, hd]⟩
    · obtain ⟨rest, hwalk, hrest⟩ := ih (m.erase it.1) (replaced ++ [it.2])
      exact ⟨rest, hwalk.cons (by simpa using hc), hrest⟩

lemma goRight_walk (p : MergeTreePartInfo) (l : List Entry) (m : PartInfoToName)
    (replaced : List Bytes) :
    ∃ rest, Walk p l m (goRight p l m replaced).1 rest ∧
      (∀ it ∈ rest.head?, p.contains it.1 = false) ∧
      (goRight p l m replaced).2.2 = rest.head? := by
  induction l generalizing m replaced with
  | nil => exact ⟨[], .stop [], by simp, rfl⟩
  | cons it l ih =>
    rw [goRight]
    split_ifs with hc
    · obtain ⟨rest, hwalk, hrest⟩ := ih (m.erase it.1) (replaced ++ [it.2])
      exact ⟨rest, hwalk.cons hc, hrest⟩
    · exact ⟨it :: l, .stop _, by simpa using hc, rfl⟩

/-- The parts further left than one before the new part end before that one starts. -/
lemma disjoint_of_left (hm : Inv m) {it e : Entry} (hit : it ∈ m) (he : e ∈ m)
    (hlt : e.1.toTuple < it.1.toTuple)
    (hitp : it.1.toTuple < p.toTuple) : p.isDisjoint e.1 = true := by
  have hne : e ≠ it := fun h => absurd hlt (by rw [h]; exact lt_irrefl _)
  have hei := hm.disjoint e he it hit hne
  rw [isDisjoint_iff] at hei ⊢
  by_cases hpart : p.partition_id = e.1.partition_id
  · obtain ⟨hipart, hlo, hhi⟩ := between_of_toTuple hlt.le hitp.le hpart.symm
    have hiv : it.1.min_block ≤ it.1.max_block := hm.valid it hit
    have h2 : e.1.max_block < it.1.min_block := by
      rcases hei with h | h | h
      · exact absurd hipart.symm h
      · omega
      · exact h
    exact Or.inr (Or.inl (by omega))
  · exact Or.inl hpart

/-- The part where the right walk stops starts after the new one ends, and so do the parts
further right. -/
lemma disjoint_of_right {it e : MergeTreePartInfo} (hv : it.Valid)
    (hdis : p.isDisjoint it = true) (hpit : p.toTuple ≤ it.toTuple)
    (hlt : it.toTuple < e.toTuple) : p.isDisjoint e = true := by
  rw [isDisjoint_iff] at hdis ⊢
  by_cases hpart : p.partition_id = e.partition_id
  · obtain ⟨hipart, hlo, hhi⟩ := between_of_toTuple hpit hlt.le hpart
    have hiv : it.min_block ≤ it.max_block := hv
    rcases hdis with h | h | h
    · exact absurd hipart.symm h
    · omega
    · exact Or.inr (Or.inr (by omega))
  · exact Or.inl hpart

lemma disjoint_of_filter {o : Option Entry} (h : o.filter (fun it => !p.isDisjoint it.1) = none) :
    ∀ it ∈ o, p.isDisjoint it.1 = true := by
  intro it hit
  simpa using filter_eq_none_iff.1 h it hit

/-- After two walks that met no intersection, what is stored is disjoint from the new
part. -/
lemma walks_disjoint {m m₁ m₂ : PartInfoToName} (hm : Inv m)
    {left right : List Entry} (hl : Walk p (m.before p).reverse m m₁ left)
    (hleft : ∀ it ∈ left.head?, p.isDisjoint it.1 = true) (hr : Walk p (m.after p) m₁ m₂ right)
    (hright : ∀ it ∈ right.head?, p.isDisjoint it.1 = true) :
    ∀ e ∈ m₂, p.isDisjoint e.1 = true := by
  intro e he
  have he₁ := hr.subset e he
  rcases (m.mem_before_or_after p e).1 (hl.subset e he₁) with hb | ha
  · -- the walk to the left stopped at a disjoint part, and `e` is that part or lies further away
    have hrest := hl.mem_rest (mem_reverse.2 hb) he₁
    have hsorted := (m.sorted_before_reverse p).sublist hl.suffix.sublist
    have hin : ∀ a ∈ left, a ∈ m.before p := fun a ha => mem_reverse.1 (hl.suffix.subset ha)
    cases left with
    | nil => simp at hrest
    | cons it left =>
      have hit := hin it mem_cons_self
      rcases mem_cons.1 hrest with rfl | hrest
      · exact hleft e rfl
      · exact disjoint_of_left hm (m.mem_of_mem_before hit) (m.mem_of_mem_before hb)
          (rel_of_pairwise_cons hsorted hrest) (m.ord_lt_of_mem_before hit)
  · -- the same to the right
    have hrest := hr.mem_rest ha he
    have hsorted := (m.sorted_after p).sublist hr.suffix.sublist
    cases right with
    | nil => simp at hrest
    | cons it right =>
      have hit : it ∈ m.after p := hr.suffix.subset mem_cons_self
      rcases mem_cons.1 hrest with rfl | hrest
      · exact hright e rfl
      · exact disjoint_of_right (hm.valid it (m.mem_of_mem_after hit)) (hright it rfl)
          (m.le_ord_of_mem_after hit) (rel_of_pairwise_cons hsorted hrest)

/-- **`addImpl` keeps the invariant**, on the path that stores the part and on
those that refuse it. -/
theorem addImpl_inv (hm : Inv m) (hp : p.Valid) (name : Bytes) : Inv (addImpl m p name).map := by
  unfold addImpl
  split
  · -- a part that is there covers the new one
    exact hm
  obtain ⟨left, hl, -, hleft⟩ := goLeft_walk p (m.before p).reverse m []
  rcases hL : goLeft p (m.before p).reverse m [] with ⟨m₁, replaced, inter⟩
  rw [hL] at hl hleft
  cases inter with
  | some it => exact hm.mono hl.subset
  | none =>
    dsimp only at hl hleft ⊢
    obtain ⟨right, hr, -, hright⟩ := goRight_walk p (m.after p) m₁ replaced.reverse
    rcases hR : goRight p (m.after p) m₁ replaced.reverse with ⟨m₂, replaced', next⟩
    rw [hR] at hr hright
    have hm₂ : Inv m₂ := hm.mono fun e he => hl.subset e (hr.subset e he)
    split
    · -- the right neighbour intersects: what was replaced is gone, and nothing is added
      exact hm₂
    rename_i hnext
    -- both walks stopped at disjoint parts, so that the new part is disjoint from all that are left
    have hdis := walks_disjoint hm hl (disjoint_of_filter hleft.symm) hr
      (disjoint_of_filter (hright ▸ hnext))
    constructor
    · intro e he
      rcases m₂.mem_emplace he with rfl | he
      · exact hp
      · exact hm₂.valid e he
    · intro a ha b hb hab
      rcases m₂.mem_emplace ha with rfl | ha <;> rcases m₂.mem_emplace hb with rfl | hb
      · exact absurd rfl hab
      · exact hdis b hb
      · rw [isDisjoint_comm]
        exact hdis a ha
      · exact hm₂.disjoint a ha b hb hab

/-! ## Runs -/

/-- A call on the set. -/
inductive Op where
  | add (name : Bytes)
  | addInfo (p : MergeTreePartInfo)
  | addNamed (p : MergeTreePartInfo) (name : Bytes)
  | tryAddPart (p : MergeTreePartInfo)
  | removeInfo (p : MergeTreePartInfo)
  | remove (name : Bytes)
  | removePartsCoveredBy (name : Bytes)
  | removePartAndCoveredParts (name : Bytes)

/-- The part infos handed in are valid; a name is parsed, and parsing checks. -/
def Op.Valid : Op → Prop
  | .addInfo p | .addNamed p _ | .tryAddPart p | .removeInfo p => p.Valid
  | _ => True

/-- The set a call leaves behind, whether it returned or threw. -/
def step (s : ActiveDataPartSet) : Op → ActiveDataPartSet
  | .add name => (s.add name).2
  | .addInfo p => (s.addInfo p).2
  | .addNamed p name => (s.addNamed p name).2
  | .tryAddPart p => (s.tryAddPart p).2
  | .removeInfo p => (s.removeInfo p).2
  | .remove name => (s.remove name).2
  | .removePartsCoveredBy name => (s.removePartsCoveredBy name).2
  | .removePartAndCoveredParts name => (s.removePartAndCoveredParts name).2

/-- A set after a sequence of operations. -/
def run (s : ActiveDataPartSet) (ops : List Op) : ActiveDataPartSet := ops.foldl step s

variable {s : ActiveDataPartSet}

section

variable (hs : Inv s.part_info_to_name)
include hs

lemma addNamed_inv (hp : p.Valid) (name : Bytes) :
    Inv (s.addNamed p name).2.part_info_to_name := by
  have h := addImpl_inv hs hp name
  unfold addNamed
  dsimp only
  split <;> exact h

lemma addInfo_inv (hp : p.Valid) : Inv (s.addInfo p).2.part_info_to_name := by
  unfold addInfo
  split
  · exact hs
  · exact addNamed_inv hs hp _

lemma add_inv (name : Bytes) : Inv (s.add name).2.part_info_to_name := by
  unfold add
  split
  · exact hs
  · rename_i p hp
    exact addNamed_inv hs (valid_of_fromPartName hp) name

lemma tryAddPart_inv (hp : p.Valid) : Inv (s.tryAddPart p).2.part_info_to_name := by
  unfold tryAddPart
  split
  · exact hs
  · exact addImpl_inv hs hp _

lemma removeInfo_inv (p : MergeTreePartInfo) : Inv (s.removeInfo p).2.part_info_to_name :=
  hs.mono (fun e he => ((s.part_info_to_name.mem_erase p e).1 he).1)

lemma remove_inv (name : Bytes) : Inv (s.remove name).2.part_info_to_name := by
  unfold remove
  split
  · exact hs
  · exact removeInfo_inv hs _

end

/-- The removal loops keep the invariant wherever they stop. -/
lemma removeAll_inv : ∀ (names : List Bytes) {s : ActiveDataPartSet} (result : Bool),
    Inv s.part_info_to_name → Inv (removeAll s names result).2.part_info_to_name := by
  intro names
  induction names with
  | nil => intro s result hs; exact hs
  | cons name rest ih =>
    intro s result hs
    have hr := remove_inv hs name
    rw [removeAll]
    rcases h : s.remove name with ⟨r, s'⟩
    rw [h] at hr
    cases r with
    | error e => exact hr
    | ok removed => exact ih _ hr

/-- No operation brings parts that intersect or cover one another into the set. -/
lemma step_inv (hs : Inv s.part_info_to_name) {op : Op} (hop : op.Valid) :
    Inv (s.step op).part_info_to_name := by
  cases op with
  | add name => exact add_inv hs name
  | addInfo p => exact addInfo_inv hs hop
  | addNamed p name => exact addNamed_inv hs hop name
  | tryAddPart p => exact tryAddPart_inv hs hop
  | removeInfo p => exact removeInfo_inv hs p
  | remove name => exact remove_inv hs name
  | removePartsCoveredBy name =>
    rw [step, removePartsCoveredBy]
    split
    · exact hs
    · exact removeAll_inv _ _ hs
  | removePartAndCoveredParts name =>
    rw [step, removePartAndCoveredParts]
    split
    · exact hs
    · exact removeAll_inv _ _ hs

lemma run_inv : ∀ (ops : List Op) {s : ActiveDataPartSet}, Inv s.part_info_to_name →
    (∀ op ∈ ops, op.Valid) → Inv (s.run ops).part_info_to_name := by
  intro ops
  induction ops with
  | nil => intro s hs _; exact hs
  | cons op rest ih =>
    intro s hs hops
    exact ih (step_inv hs (hops op mem_cons_self)) (fun o ho => hops o (mem_cons_of_mem _ ho))

lemma empty_inv (format_version : ℕ) : Inv (empty format_version).part_info_to_name :=
  ⟨fun e he => absurd he (OrdMap.not_mem_empty e), fun a ha => absurd ha (OrdMap.not_mem_empty a)⟩

/-- **Active parts stay disjoint and every covering part is found.** In every set
reached from the empty one, two different stored parts are disjoint, what the
two-neighbour lookup returns is stored and covers the query, and it returns
something exactly when some stored part covers the query. -/
theorem run_disjoint_and_lookup_complete (format_version : ℕ) (ops : List Op)
    (hops : ∀ op ∈ ops, op.Valid) :
    let m := ((empty format_version).run ops).part_info_to_name
    (∀ a ∈ m, ∀ b ∈ m, a ≠ b → a.1.isDisjoint b.1 = true)
      ∧ (∀ p e, getContainingPartImpl m p = some e → e ∈ m ∧ e.1.contains p = true)
      ∧ ∀ p : MergeTreePartInfo, p.Valid →
          ((getContainingPartImpl m p).isSome ↔ ∃ e ∈ m, e.1.contains p = true) := by
  intro m
  have hm : Inv m := run_inv ops (empty_inv format_version) hops
  refine ⟨hm.disjoint, fun p e h => getContainingPartImpl_sound h, fun p hp => ?_⟩
  constructor
  · intro h
    obtain ⟨e, he⟩ := isSome_iff_exists.1 h
    obtain ⟨hmem, hc⟩ := getContainingPartImpl_sound he
    exact ⟨e, hmem, hc⟩
  · rintro ⟨e, he, hc⟩
    rw [getContainingPartImpl_of_mem hm hp he hc]
    rfl

/-- Three parts `a_0_5_1`, `a_7_9_0_12` and `a_0_9_2_12` are added in turn; the
last one covers and replaces the first two. -/
theorem run_disjoint_and_lookup_complete_at_three_parts :
    let third : MergeTreePartInfo := ⟨[97], 0, 9, 2, 12, false⟩
    let ops := [Op.tryAddPart ⟨[97], 0, 5, 1, 0, false⟩, Op.tryAddPart ⟨[97], 7, 9, 0, 12, false⟩,
      Op.tryAddPart third]
    let m := ((empty 1).run ops).part_info_to_name
    m.entries.map Prod.fst = [third]
      ∧ (∀ a ∈ m, ∀ b ∈ m, a ≠ b → a.1.isDisjoint b.1 = true)
      ∧ (∀ p e, getContainingPartImpl m p = some e → e ∈ m ∧ e.1.contains p = true)
      ∧ ∀ p : MergeTreePartInfo, p.Valid →
          ((getContainingPartImpl m p).isSome ↔ ∃ e ∈ m, e.1.contains p = true) := by
  refine ⟨by decide, run_disjoint_and_lookup_complete 1 _ ?_⟩
  intro op hop
  simp only [mem_cons, not_mem_nil, or_false] at hop
  rcases hop with rfl | rfl | rfl <;> (show MergeTreePartInfo.Valid _; decide)

/-! ## A part that is rejected -/

section

variable {l rest : List Entry} {m' : PartInfoToName} (h : Walk p l m m' rest)
include h

lemma Walk.eq_of_head (hhead : ∀ it ∈ l.head?, p.contains it.1 = false) : rest = l := by
  obtain ⟨covered, rfl, hcovered, -⟩ := h.split
  cases covered with
  | nil => rfl
  | cons a covered => simp [hcovered a mem_cons_self] at hhead

/-- The walk erases nothing exactly if the first part on its way is not covered. -/
lemma Walk.same_iff (hrest : ∀ it ∈ rest.head?, p.contains it.1 = false) (hl : ∀ e ∈ l, e ∈ m) :
    (∀ e, e ∈ m' ↔ e ∈ m) ↔ ∀ it ∈ l.head?, p.contains it.1 = false := by
  obtain ⟨covered, rfl, hcovered, hmem⟩ := h.split
  cases covered with
  | nil => exact iff_of_true (by simp [hmem]) hrest
  | cons a covered =>
    refine iff_of_false (fun hsame => ?_) (by simp [hcovered a mem_cons_self])
    exact ((hmem a).1 ((hsame a).2 (hl a mem_cons_self))).2 a mem_cons_self rfl

end

/-- The walk to the left erases nothing, and the walk to the right does not either, unless the
left one meets an intersection and ends the call. -/
def Untouched (m : PartInfoToName) (p : MergeTreePartInfo) : Prop :=
  (∀ it ∈ (m.before p).reverse.head?, p.contains it.1 = false) ∧
    ((∃ it ∈ (m.before p).reverse.head?, p.isDisjoint it.1 = false) ∨
      ∀ it ∈ (m.after p).head?, p.contains it.1 = false)

lemma addImpl_same_iff {name : Bytes} (h : (addImpl m p name).outcome = .HasIntersectingPart) :
    (∀ e, e ∈ (addImpl m p name).map ↔ e ∈ m) ↔ Untouched m p := by
  unfold addImpl at h ⊢
  by_cases hcovering : (getContainingPartImpl m p).isSome
  · -- a covering part is found before anything is removed
    rw [if_pos hcovering] at h
    cases h
  rw [if_neg hcovering] at h ⊢
  obtain ⟨left, hl, hleft, hfound⟩ := goLeft_walk p (m.before p).reverse m []
  rcases hL : goLeft p (m.before p).reverse m [] with ⟨m₁, replaced, inter⟩
  rw [hL] at hl hfound h
  have hsame := hl.same_iff hleft fun e he => m.mem_of_mem_before (mem_reverse.1 he)
  cases inter with
  | some it =>
    -- where nothing was removed, the part that intersects is the left neighbour itself
    refine hsame.trans (and_iff_left_of_imp fun hhead => .inl ?_).symm
    obtain ⟨hit, hdis⟩ := filter_eq_some_iff.1 hfound.symm
    rw [hl.eq_of_head hhead] at hit
    exact ⟨it, hit, by simpa using hdis⟩
  | none =>
    dsimp only at hl hfound hsame h ⊢
    obtain ⟨right, hr, hright, -⟩ := goRight_walk p (m.after p) m₁ replaced.reverse
    rcases hR : goRight p (m.after p) m₁ replaced.reverse with ⟨m₂, replaced', following⟩
    rw [hR] at hr h
    dsimp only at hr h ⊢
    cases hfilter : following.filter (fun it => !p.isDisjoint it.1) with
    | none =>
      rw [hfilter] at h
      cases h
    | some it =>
      have hsame' (hm₁ : ∀ e, e ∈ m₁ ↔ e ∈ m) := hr.same_iff hright fun e he =>
        (hm₁ e).2 (m.mem_of_mem_after he)
      constructor
      · intro hm₂
        have hm₁ : ∀ e, e ∈ m₁ ↔ e ∈ m := fun e =>
          ⟨hl.subset e, fun he => hr.subset e ((hm₂ e).2 he)⟩
        exact ⟨hsame.1 hm₁, .inr ((hsame' hm₁).1 fun e => (hm₂ e).trans (hm₁ e).symm)⟩
      · -- the walk to the left removed nothing, so the intersection is met on the right
        rintro ⟨hhead, hor⟩ e
        have hm₁ := hsame.2 hhead
        rw [hl.eq_of_head hhead] at hfound
        have hright' := hor.resolve_left fun ⟨it, hit, hdis⟩ => by
          rw [disjoint_of_filter hfound.symm it hit] at hdis
          cases hdis
        exact ((hsame' hm₁).2 hright' e).trans (hm₁ e)

/-- **A rejected part leaves the stored parts as they were exactly if none was erased on the
way to the part that it intersects.** -/
theorem rejected_same_iff (s : ActiveDataPartSet) (p : MergeTreePartInfo) :
    ((s.tryAddPart p).1 = .ok .HasIntersectingPart →
      ((∀ e, e ∈ (s.tryAddPart p).2.part_info_to_name ↔ e ∈ s.part_info_to_name) ↔
        Untouched s.part_info_to_name p)) ∧
    ∀ name e, (s.addNamed p name).1 = .error e →
      ((∀ e, e ∈ (s.addNamed p name).2.part_info_to_name ↔ e ∈ s.part_info_to_name) ↔
        Untouched s.part_info_to_name p) := by
  constructor
  · unfold tryAddPart
    split
    · nofun
    · exact fun h => addImpl_same_iff (Except.ok.inj h)
  · intro name e
    unfold addNamed
    dsimp only
    split
    · rename_i h
      exact fun _ => addImpl_same_iff h
    · nofun
    · nofun

/-- `a_2_4_0` and then `a_0_3_1`, which intersects it and covers nothing. -/
theorem rejected_same_at_one_part :
    let s := (empty 1).run [.tryAddPart ⟨[97], 2, 4, 0, 0, false⟩]
    ∀ e, e ∈ (s.tryAddPart ⟨[97], 0, 3, 1, 0, false⟩).2.part_info_to_name ↔
      e ∈ s.part_info_to_name := by
  refine ((rejected_same_iff _ ⟨[97], 0, 3, 1, 0, false⟩).1 (by decide)).2 ⟨by decide, .inr ?_⟩
  decide

/-- `a_0_0_0` and `a_2_4_0`, and then `a_0_3_1`: it intersects the second, and the first has
been erased. -/
theorem rejected_erases_covered_part :
    let s := (empty 1).run
      [.tryAddPart ⟨[97], 0, 0, 0, 0, false⟩, .tryAddPart ⟨[97], 2, 4, 0, 0, false⟩]
    (s.tryAddPart ⟨[97], 0, 3, 1, 0, false⟩).1 = .ok .HasIntersectingPart ∧
      (s.part_info_to_name.entries.map Prod.fst).length = 2 ∧
      (s.tryAddPart ⟨[97], 0, 3, 1, 0, false⟩).2.part_info_to_name.entries.map Prod.fst =
        [⟨[97], 2, 4, 0, 0, false⟩] := by
  decide

end ActiveDataPartSet

end ClickHouse
