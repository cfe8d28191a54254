/-
Strongly connected components by two depth-first traversals.

The first traversal lists the vertices in the order in which it leaves them. The second one
goes through that list from its end and along the edges backwards, and what it reaches from a
vertex without a component is the component of that vertex.

The list of the first traversal is described without times of entry and exit: when a vertex is
left, what was listed before falls into a part that it reaches and a part with no edges to that
one or to the vertex (`FinishOrder`). The second traversal goes backwards only through
vertices listed before its root, so it cannot leave the part that the root reaches. Hence two
vertices with one component reach each other, which is what those who identify the vertices of
a component rely on.

Recursion is by fuel. As many steps as there are vertices not visited are enough.
-/
import Mathlib

set_option autoImplicit false

namespace ClickHouse.Lib

open List Finset Function

variable {V : Type*}

/-- A loop whose steps keep `I`, go on by `le` and leave `D` of their element. -/
lemma exists_foldlM {S : Type*} {f : S → V → Option S} {I : S → Prop} (le : S → S → Prop)
    (D : S → V → Prop) (hrefl : ∀ s, le s s) (htrans : ∀ {a b c}, le a b → le b c → le a c)
    (hmono : ∀ {a b v}, le a b → D a v → D b v) {l : List V}
    (hstep : ∀ v ∈ l, ∀ s, I s → ∃ s', f s v = some s' ∧ I s' ∧ le s s' ∧ D s' v) {s : S}
    (h : I s) : ∃ s', l.foldlM f s = some s' ∧ I s' ∧ le s s' ∧ ∀ v ∈ l, D s' v := by
  induction l generalizing s with
  | nil => exact ⟨s, rfl, h, hrefl s, by simp⟩
  | cons v l ih =>
    obtain ⟨hv, hl⟩ := forall_mem_cons.1 hstep
    obtain ⟨s₁, hrun, h₁, hle, hD⟩ := hv s h
    obtain ⟨s', hfold, h', hle', hall⟩ := ih hl h₁
    refine ⟨s', ?_, h', htrans hle hle', forall_mem_cons.2 ⟨hmono hle' hD, hall⟩⟩
    rw [foldlM_cons, hrun]
    exact hfold

/-! ## The first traversal -/

/-- The state of the first traversal. -/
structure Traversal (V : Type*) where
  visited : Finset V
  order : List V

section Order

variable [DecidableEq V] (succ : V → List V)

/-- Depth first from `v`; a vertex is put down when all that it leads to have been visited. -/
def dfsOrder : ℕ → V → Traversal V → Option (Traversal V)
  | 0, _, _ => none
  | fuel + 1, v, t =>
    ((succ v).foldlM (fun t w => if w ∈ t.visited then some t else dfsOrder fuel w t)
      { t with visited := insert v t.visited }).map fun t => { t with order := t.order ++ [v] }

/-- The traversal from each of the vertices in turn. -/
def dfsOrderAll (fuel : ℕ) (vs : List V) : Option (Traversal V) :=
  vs.foldlM (fun t v => if v ∈ t.visited then some t else dfsOrder succ fuel v t) ⟨∅, []⟩

end Order

/-- There is a path. -/
def Reaches (succ : V → List V) : V → V → Prop := Relation.ReflTransGen fun x y => y ∈ succ x

/-- A list of vertices as a traversal leaves them. -/
inductive FinishOrder (succ : V → List V) : List V → Prop
  | nil : FinishOrder succ []
  | snoc {before below : List V} {v : V} (h : FinishOrder succ (before ++ below))
      (hbelow : ∀ w ∈ below, Reaches succ v w)
      (hbefore : ∀ x ∈ before, ∀ y ∈ succ x, y ≠ v ∧ y ∉ below) :
      FinishOrder succ (before ++ below ++ [v])

variable {succ : V → List V}

/-- What holds of the state in between: the successors of the vertices listed are visited. -/
structure Traversal.Good (succ : V → List V) (t : Traversal V) : Prop where
  finish : FinishOrder succ t.order
  closed : ∀ x ∈ t.order, ∀ y ∈ succ x, y ∈ t.visited

variable [DecidableEq V]

/-- The traversal has gone on to vertices that can be reached from `v`. -/
def Traversal.Extends (succ : V → List V) (v : V) (t t' : Traversal V) : Prop :=
  ∃ new : List V, t'.order = t.order ++ new ∧ t'.visited = t.visited ∪ new.toFinset ∧
    ∀ w ∈ new, w ∉ t.visited ∧ Reaches succ v w

namespace Traversal

lemma Extends.refl (v : V) (t : Traversal V) : t.Extends succ v t :=
  ⟨[], (append_nil _).symm, by simp, by simp⟩

lemma Extends.trans {v : V} {t t' t'' : Traversal V} (h : t.Extends succ v t')
    (h' : t'.Extends succ v t'') : t.Extends succ v t'' := by
  obtain ⟨new, horder, hvisited, hnew⟩ := h
  obtain ⟨new', horder', hvisited', hnew'⟩ := h'
  refine ⟨new ++ new', by rw [horder', horder, append_assoc], ?_, ?_⟩
  · rw [hvisited', hvisited, toFinset_append, union_assoc]
  intro w hw
  rcases mem_append.1 hw with hw | hw
  · exact hnew w hw
  · refine ⟨fun hmem => (hnew' w hw).1 ?_, (hnew' w hw).2⟩
    rw [hvisited]
    exact mem_union_left _ hmem

lemma Extends.of_reaches {v w : V} {t t' : Traversal V} (h : t.Extends succ w t')
    (hvw : Reaches succ v w) : t.Extends succ v t' := by
  obtain ⟨new, horder, hvisited, hnew⟩ := h
  exact ⟨new, horder, hvisited, fun x hx => ⟨(hnew x hx).1, hvw.trans (hnew x hx).2⟩⟩

lemma Extends.visited_subset {v : V} {t t' : Traversal V} (h : t.Extends succ v t') :
    t.visited ⊆ t'.visited := by
  obtain ⟨new, -, hvisited, -⟩ := h
  rw [hvisited]
  exact subset_union_left

end Traversal

section Spec

variable {U : Finset V}

/-- What a traversal from one vertex does, if the fuel is enough. -/
def VisitSpec (succ : V → List V) (U : Finset V) (fuel : ℕ)
    (visit : V → Traversal V → Option (Traversal V)) : Prop :=
  ∀ v ∈ U, ∀ t : Traversal V, t.Good succ → v ∉ t.visited → (U \ t.visited).card ≤ fuel →
    ∃ t', visit v t = some t' ∧ t'.Good succ ∧ t.Extends succ v t' ∧ v ∈ t'.visited

/-- The loop over the successors of a vertex. -/
lemma VisitSpec.foldlM {fuel : ℕ} {visit : V → Traversal V → Option (Traversal V)}
    (hvisit : VisitSpec succ U fuel visit) {v : V} {ws : List V}
    (hws : ∀ w ∈ ws, w ∈ U ∧ Reaches succ v w) {t : Traversal V} (ht : t.Good succ)
    (hfuel : (U \ t.visited).card ≤ fuel) :
    ∃ t', ws.foldlM (fun t w => if w ∈ t.visited then some t else visit w t) t = some t' ∧
      t'.Good succ ∧ t.Extends succ v t' ∧ ∀ w ∈ ws, w ∈ t'.visited := by
  refine (exists_foldlM (I := fun t => t.Good succ ∧ (U \ t.visited).card ≤ fuel)
    (Traversal.Extends succ v) (fun t w => w ∈ t.visited) (Traversal.Extends.refl v)
    Traversal.Extends.trans (fun hext hw => hext.visited_subset hw) ?_ ⟨ht, hfuel⟩).imp
      fun t' ⟨hfold, ⟨ht', _⟩, hext, hall⟩ => ⟨hfold, ht', hext, hall⟩
  rintro w hw t ⟨ht, hfuel⟩
  by_cases hmem : w ∈ t.visited
  · exact ⟨t, if_pos hmem, ⟨ht, hfuel⟩, Traversal.Extends.refl v t, hmem⟩
  · obtain ⟨t₁, hvis, ht₁, hext, hw₁⟩ := hvisit w (hws w hw).1 t ht hmem hfuel
    refine ⟨t₁, (if_neg hmem).trans hvis, ⟨ht₁, ?_⟩, hext.of_reaches (hws w hw).2, hw₁⟩
    exact (card_le_card (sdiff_subset_sdiff le_rfl hext.visited_subset)).trans hfuel

variable (hU : ∀ x ∈ U, ∀ y ∈ succ x, y ∈ U)

include hU in
/-- **The traversal from one vertex.** The induction is on the fuel. -/
theorem dfsOrder_spec (fuel : ℕ) :
    VisitSpec succ U fuel (dfsOrder succ fuel) := by
  induction fuel with
  | zero =>
    intro v hv t _ hnot hfuel
    have hmem : v ∈ U \ t.visited := mem_sdiff.2 ⟨hv, hnot⟩
    rw [card_eq_zero.1 (Nat.le_zero.1 hfuel)] at hmem
    cases hmem
  | succ fuel ih =>
    intro v hv t ht hnot hfuel
    -- `v` is visited now, so that fewer vertices are left than before
    have hfuel' : (U \ insert v t.visited).card ≤ fuel := by
      have hlt : (U \ insert v t.visited).card < (U \ t.visited).card := by
        refine card_lt_card ⟨sdiff_subset_sdiff le_rfl (subset_insert _ _), ?_⟩
        intro hsub
        have hmem := hsub (mem_sdiff.2 ⟨hv, hnot⟩)
        exact (mem_sdiff.1 hmem).2 (mem_insert_self v t.visited)
      omega
    have ht₀ : Traversal.Good succ { t with visited := insert v t.visited } :=
      ⟨ht.finish, fun x hx y hy => mem_insert_of_mem (ht.closed x hx y hy)⟩
    -- the successors, with the fuel that is left
    obtain ⟨t₁, hfold, ht₁, ⟨new, horder, hvisited, hnew⟩, hsucc⟩ := ih.foldlM (v := v)
      (fun w hw => ⟨hU v hv w hw, Relation.ReflTransGen.single hw⟩) ht₀ hfuel'
    have hvisited₁ : v ∈ t₁.visited := by
      rw [hvisited]
      exact mem_union_left _ (mem_insert_self _ _)
    refine ⟨{ t₁ with order := t₁.order ++ [v] }, ?_, ⟨?_, ?_⟩, ⟨new ++ [v], ?_, ?_, ?_⟩, hvisited₁⟩
    · rw [dfsOrder, hfold]
      rfl
    · -- What was listed before has its successors among those visited before.
      rw [horder]
      refine .snoc (horder ▸ ht₁.finish) (fun w hw => (hnew w hw).2) fun x hx y hy => ?_
      have hy := ht.closed x hx y hy
      exact ⟨fun heq => hnot (heq ▸ hy), fun hmem => (hnew y hmem).1 (mem_insert_of_mem hy)⟩
    · intro x hx
      rcases mem_append.1 hx with hx | hx
      · exact ht₁.closed x hx
      · rw [List.mem_singleton.1 hx]
        exact hsucc
    · rw [horder, append_assoc]
    · rw [hvisited]
      ext x
      simp only [mem_union, mem_insert, mem_toFinset, mem_append, List.mem_singleton]
      tauto
    · intro w hw
      rcases mem_append.1 hw with hw | hw
      · exact ⟨fun hmem => (hnew w hw).1 (mem_insert_of_mem hmem), (hnew w hw).2⟩
      · rw [List.mem_singleton.1 hw]
        exact ⟨hnot, Relation.ReflTransGen.refl⟩

omit [DecidableEq V] in
lemma Reaches.mem (hU : ∀ x ∈ U, ∀ y ∈ succ x, y ∈ U) {v w : V} (h : Reaches succ v w)
    (hv : v ∈ U) : w ∈ U := by
  induction h with
  | refl => exact hv
  | tail _ hstep ih => exact hU _ ih _ hstep

/-- The vertices listed are those visited, and all of them are in the graph. -/
structure Traversal.Listed (U : Finset V) (t : Traversal V) : Prop where
  listed : ∀ x ∈ t.visited, x ∈ t.order
  mem : ∀ x ∈ t.order, x ∈ U

include hU in
lemma Traversal.Listed.extend {v : V} (hv : v ∈ U)
    {t t' : Traversal V} (h : t.Listed U) (hext : t.Extends succ v t') : t'.Listed U := by
  obtain ⟨new, horder, hvisited, hnew⟩ := hext
  refine ⟨fun x hx => ?_, fun x hx => ?_⟩
  · rw [hvisited, mem_union, mem_toFinset] at hx
    rw [horder, mem_append]
    exact hx.imp_left (h.listed x)
  · rw [horder, mem_append] at hx
    rcases hx with hx | hx
    · exact h.mem x hx
    · exact (hnew x hx).2.mem hU hv

include hU in
/-- **The first traversal lists every vertex.** -/
theorem dfsOrderAll_spec {vs : List V} (hvs : ∀ v ∈ vs, v ∈ U) {fuel : ℕ} (hfuel : U.card ≤ fuel) :
    ∃ t, dfsOrderAll succ fuel vs = some t ∧ FinishOrder succ t.order ∧
      (∀ x ∈ t.order, x ∈ U) ∧ ∀ v ∈ vs, v ∈ t.order := by
  refine (exists_foldlM (I := fun t : Traversal V => t.Good succ ∧ t.Listed U)
    (fun t t' => t.visited ⊆ t'.visited) (fun t v => v ∈ t.visited) (fun _ => subset_rfl)
    subset_trans (fun hsub hv => hsub hv) ?_ ⟨⟨.nil, by simp⟩, ⟨by simp, by simp⟩⟩).imp
      fun t ⟨hrun, ⟨ht, hlisted⟩, _, hall⟩ =>
        ⟨hrun, ht.finish, hlisted.mem, fun v hv => hlisted.listed v (hall v hv)⟩
  rintro v hv t ⟨ht, hlisted⟩
  by_cases hmem : v ∈ t.visited
  · exact ⟨t, if_pos hmem, ⟨ht, hlisted⟩, subset_rfl, hmem⟩
  · obtain ⟨t₁, hvis, ht₁, hext, hv₁⟩ := dfsOrder_spec hU fuel v (hvs v hv) t ht hmem
      ((card_le_card sdiff_subset).trans hfuel)
    exact ⟨t₁, (if_neg hmem).trans hvis, ⟨ht₁, hlisted.extend hU (hvs v hv) hext⟩,
      hext.visited_subset, hv₁⟩

end Spec

/-! ## The second traversal -/

section Components

/-- Gives the component to the vertex and to what is reached from it and has none. -/
def dfsComponents (pred : V → List V) (component : ℕ) :
    ℕ → V → (V → Option ℕ) → Option (V → Option ℕ)
  | 0, _, _ => none
  | fuel + 1, v, components =>
    (pred v).foldlM
      (fun components w =>
        if (components w).isNone then dfsComponents pred component fuel w components
        else some components)
      (Function.update components v (some component))

/-- One vertex of the list: if it has no component, a new one begins with it. -/
def componentFrom (pred : V → List V) (fuel : ℕ) (state : (V → Option ℕ) × ℕ) (v : V) :
    Option ((V → Option ℕ) × ℕ) :=
  if (state.1 v).isNone then
    (dfsComponents pred state.2 fuel v state.1).map fun components => (components, state.2 + 1)
  else some state

/-- The components and their number, for the vertices in the order of the list. -/
def dfsComponentsAll (pred : V → List V) (fuel : ℕ) (vs : List V) : Option ((V → Option ℕ) × ℕ) :=
  vs.foldlM (componentFrom pred fuel) (fun _ => none, 0)

variable {pred : V → List V} {component : ℕ} {Q : V → Prop}

omit [DecidableEq V] in
/-- The vertices that got the component are among those with the property, and had none. -/
def Marks (component : ℕ) (Q : V → Prop) (components components' : V → Option ℕ) : Prop :=
  ∀ x, components' x = components x ∨
    components x = none ∧ components' x = some component ∧ Q x

variable {c c' : V → Option ℕ}

omit [DecidableEq V] in
lemma Marks.trans {c'' : V → Option ℕ} (h : Marks component Q c c')
    (h' : Marks component Q c' c'') : Marks component Q c c'' := by
  intro x
  rcases h' x with heq | ⟨hnone, hsome, hx⟩
  · rw [heq]
    exact h x
  · rcases h x with heq | ⟨hnone', hsome', -⟩
    · exact .inr ⟨heq ▸ hnone, hsome, hx⟩
    · rw [hsome'] at hnone
      cases hnone

omit [DecidableEq V] in
lemma Marks.eq_none (h : Marks component Q c c') {x : V} (hx : c' x = none) : c x = none := by
  rcases h x with heq | ⟨hnone, -⟩
  · exact heq ▸ hx
  · exact hnone

omit [DecidableEq V] in
lemma Marks.eq_some (h : Marks component Q c c') {x : V} {k : ℕ}
    (hx : c x = some k) : c' x = some k := by
  rcases h x with heq | ⟨hnone, -⟩
  · rw [heq, hx]
  · rw [hx] at hnone
    cases hnone

/-- The vertices without a component. -/
def unassigned (U : Finset V) (components : V → Option ℕ) : Finset V :=
  U.filter fun x => components x = none

omit [DecidableEq V] in
lemma Marks.unassigned_subset {U : Finset V}
    (h : Marks component Q c c') : unassigned U c' ⊆ unassigned U c := by
  intro x hx
  rw [unassigned, Finset.mem_filter] at hx ⊢
  exact ⟨hx.1, h.eq_none hx.2⟩

variable {U : Finset V} {fuel : ℕ}

/-- **The second traversal from one vertex** marks vertices with every property that the vertex
has and that is kept along the edges to vertices without a component. -/
theorem dfsComponents_spec (hU : ∀ x ∈ U, ∀ y ∈ pred x, y ∈ U) {v : V}
    {components : V → Option ℕ} (hv : v ∈ U) (hnone : components v = none) (hvQ : Q v)
    (hQ : ∀ y, Q y → ∀ x ∈ pred y, components x = none → Q x)
    (hfuel : (unassigned U components).card ≤ fuel) :
    ∃ components', dfsComponents pred component fuel v components = some components' ∧
      Marks component Q components components' ∧ components' v = some component := by
  induction fuel generalizing v components with
  | zero =>
    have hmem : v ∈ unassigned U components := mem_filter.2 ⟨hv, hnone⟩
    rw [card_eq_zero.1 (Nat.le_zero.1 hfuel)] at hmem
    cases hmem
  | succ fuel ih =>
    have hmark : Marks component Q components (update components v (some component)) := by
      intro x
      by_cases hx : x = v
      · subst hx
        exact .inr ⟨hnone, update_self _ _ _, hvQ⟩
      · exact .inl (update_of_ne hx _ _)
    have hself : update components v (some component) v = some component := update_self _ _ _
    have hfuel' : (unassigned U (update components v (some component))).card ≤ fuel := by
      have hlt : (unassigned U (update components v (some component))).card <
          (unassigned U components).card := by
        refine card_lt_card ⟨hmark.unassigned_subset, fun hsub => ?_⟩
        have hmem := hsub (mem_filter.2 ⟨hv, hnone⟩)
        rw [unassigned, Finset.mem_filter, hself] at hmem
        cases hmem.2
      omega
    -- The loop over the edges: each step marks more, and only what has the property.
    refine (exists_foldlM (I := fun c => Marks component Q components c ∧ c v = some component ∧
        (unassigned U c).card ≤ fuel) (fun _ _ => True) (fun _ _ => True) (fun _ => trivial)
      (fun _ _ => trivial) (fun _ _ => trivial) ?_ ⟨hmark, hself, hfuel'⟩).imp
        fun c' ⟨hfold, ⟨hc', hcv', _⟩, _⟩ => ⟨hfold, hc', hcv'⟩
    rintro w hw c ⟨hc, hcv, hcard⟩
    by_cases hcw : c w = none
    · obtain ⟨c₁, hrun, hc₁, -⟩ := ih (hU v hv w hw) hcw (hQ v hvQ w hw (hc.eq_none hcw))
        (fun y hy x hx hxnone => hQ y hy x hx (hc.eq_none hxnone)) hcard
      exact ⟨c₁, (if_pos (Option.isNone_iff_eq_none.2 hcw)).trans hrun, ⟨hc.trans hc₁,
        hc₁.eq_some hcv, (card_le_card hc₁.unassigned_subset).trans hcard⟩, trivial, trivial⟩
    · exact ⟨c, if_neg fun h => hcw (Option.isNone_iff_eq_none.1 h), ⟨hc, hcv, hcard⟩, trivial,
        trivial⟩

/-- What holds between two vertices of the list. -/
structure ComponentsGood (succ : V → List V) (state : (V → Option ℕ) × ℕ) : Prop where
  lt : ∀ x k, state.1 x = some k → k < state.2
  reaches : ∀ x y k, state.1 x = some k → state.1 y = some k → Reaches succ x y

section

variable {succ : V → List V} (hpred : ∀ x y, x ∈ pred y ↔ y ∈ succ x)
  (hU : ∀ x ∈ U, ∀ y ∈ pred x, y ∈ U)
include hpred hU

/-- One vertex of the list, when the vertices listed after it have their components. -/
lemma componentFrom_spec {before below : List V} {v : V} (hv : v ∈ U)
    (hbelow : ∀ w ∈ below, Reaches succ v w)
    (hbefore : ∀ x ∈ before, ∀ y ∈ succ x, y ≠ v ∧ y ∉ below) (hfuel : U.card ≤ fuel)
    {state : (V → Option ℕ) × ℕ} (hgood : ComponentsGood succ state)
    (hnone : ∀ x ∈ U, state.1 x = none → x ∈ before ++ below ++ [v]) :
    ∃ state', componentFrom pred fuel state v = some state' ∧ ComponentsGood succ state' ∧
      ∀ x ∈ U, state'.1 x = none → x ∈ before ++ below := by
  have hrest : ∀ x, x ∈ before ++ below ++ [v] → x ≠ v → x ∈ before ++ below := by
    intro x hx hne
    rcases mem_append.1 hx with hx | hx
    · exact hx
    · exact absurd (List.mem_singleton.1 hx) hne
  cases hcv : state.1 v with
  | some k =>
    refine ⟨state, ?_, hgood, fun x hx hxnone => hrest x (hnone x hx hxnone) ?_⟩
    · rw [componentFrom, hcv, Option.isNone_some, if_neg Bool.false_ne_true]
    · rintro rfl
      rw [hcv] at hxnone
      cases hxnone
  | none =>
    -- Backwards along edges, the traversal stays where the vertex itself can get.
    obtain ⟨components, hrun, hmarks, hself⟩ :
        ∃ components, dfsComponents pred state.2 fuel v state.1 = some components ∧
          Marks state.2 (fun x => (x = v ∨ x ∈ below) ∧ x ∈ U ∧ Reaches succ x v) state.1
            components ∧ components v = some state.2 :=
      dfsComponents_spec hU hv hcv ⟨.inl rfl, hv, Relation.ReflTransGen.refl⟩
      (fun y ⟨hy, hyU, hyv⟩ x hx hxnone => by
        have hxU := hU y hyU x hx
        have hxy := (hpred x y).1 hx
        refine ⟨?_, hxU, hyv.head hxy⟩
        have hmem := hnone x hxU hxnone
        rw [mem_append, mem_append, List.mem_singleton] at hmem
        rcases hmem with (hmem | hmem) | hmem
        · obtain ⟨hne, hnot⟩ := hbefore x hmem y hxy
          exact absurd hy (not_or.2 ⟨hne, hnot⟩)
        · exact .inr hmem
        · exact .inl hmem)
      ((card_le_card (filter_subset _ _)).trans hfuel)
    have hboth : ∀ x, components x = some state.2 → Reaches succ x v ∧ Reaches succ v x := by
      intro x hx
      rcases hmarks x with heq | ⟨-, -, hmem, -, hxv⟩
      · exact absurd (hgood.lt x _ (heq ▸ hx)) (lt_irrefl _)
      · refine ⟨hxv, ?_⟩
        rcases hmem with rfl | hmem
        · exact Relation.ReflTransGen.refl
        · exact hbelow x hmem
    have hold : ∀ x k, components x = some k → k ≠ state.2 → state.1 x = some k := by
      intro x k hx hk
      rcases hmarks x with heq | ⟨-, hnew, -⟩
      · exact heq ▸ hx
      · exact absurd (Option.some.inj (hx.symm.trans hnew)) hk
    refine ⟨(components, state.2 + 1), ?_, ⟨fun x k hx => ?_, fun x y k hx hy => ?_⟩,
      fun x hx hxnone => hrest x (hnone x hx (hmarks.eq_none hxnone)) ?_⟩
    · rw [componentFrom, hcv, Option.isNone_none, if_pos rfl, hrun, Option.map_some]
    · by_cases hk : k = state.2
      · exact hk ▸ Nat.lt_succ_self _
      · exact (hgood.lt x k (hold x k hx hk)).trans (Nat.lt_succ_self _)
    · by_cases hk : k = state.2
      · subst hk
        exact (hboth x hx).1.trans (hboth y hy).2
      · exact hgood.reaches x y k (hold x k hx hk) (hold y k hy hk)
    · rintro rfl
      exact Option.some_ne_none _ (hself.symm.trans hxnone)

/-- **Vertices with one component reach each other, and every vertex has a component.** -/
theorem dfsComponentsAll_spec {order : List V} (horder : FinishOrder succ order)
    (hsub : ∀ x ∈ order, x ∈ U) (hmem : ∀ x ∈ U, x ∈ order) (hfuel : U.card ≤ fuel) :
    ∃ state, dfsComponentsAll pred fuel order.reverse = some state ∧
      ComponentsGood succ state ∧ ∀ x ∈ U, ∃ k < state.2, state.1 x = some k := by
  -- the induction is along the order, from any state in which only its vertices are unassigned
  suffices h : ∀ state, ComponentsGood succ state → (∀ x ∈ U, state.1 x = none → x ∈ order) →
      ∃ state', order.reverse.foldlM (componentFrom pred fuel) state = some state' ∧
        ComponentsGood succ state' ∧ ∀ x ∈ U, state'.1 x ≠ none by
    obtain ⟨state, hrun, hgood, hall⟩ := h (fun _ => none, 0) ⟨by simp, by simp⟩
      fun x hx _ => hmem x hx
    refine ⟨state, hrun, hgood, fun x hx => ?_⟩
    obtain ⟨k, hk⟩ := Option.ne_none_iff_exists'.1 (hall x hx)
    exact ⟨k, hgood.lt x k hk, hk⟩
  clear hmem
  induction horder with
  | nil => exact fun state hgood hnone => ⟨state, rfl, hgood, fun x hx hn => by cases hnone x hx hn⟩
  | @snoc before below v _ hbelow hbefore ih =>
    intro state hgood hnone
    -- the last vertex in the order comes first
    obtain ⟨state₁, hstep, hgood₁, hnone₁⟩ :
        ∃ state₁, componentFrom pred fuel state v = some state₁ ∧
        ComponentsGood succ state₁ ∧ ∀ x ∈ U, state₁.1 x = none → x ∈ before ++ below :=
      componentFrom_spec hpred hU (hsub v (mem_append_right _ (List.mem_singleton_self v)))
        hbelow hbefore hfuel hgood hnone
    obtain ⟨state', hfold, hgood', hall⟩ := ih (fun x hx => hsub x (mem_append_left _ hx))
      state₁ hgood₁ hnone₁
    refine ⟨state', ?_, hgood', hall⟩
    rw [reverse_append, reverse_singleton, singleton_append, foldlM_cons, hstep]
    exact hfold

end

end Components

end ClickHouse.Lib
