/-
`buildFilters` (`src/Processors/QueryPlan/PartsSplitter.cpp`): the filters of the layers, and
with them the layers of a read with `FINAL` as a whole.

The i-th filter is an expression that compares the key of a row, as a tuple, with the borders
on the two sides of the layer. A key column that may be NULL is two components of the tuple,
the null map and the value under it. The value under a NULL is arbitrary, so a border that is
NULL has the row's own value in this place.

With the row fixed, both tuples are the same function of the fields they are made from
(`cells`), and it is strictly monotone on fields that a column of the type can hold. So the
expressions compare keys exactly as the layers do, and the filter of a layer accepts the rows
between its borders. Each key is between the borders at one place only, which the number of
borders before it tells.
-/
import ClickHouse.QueryPlan.Layers

set_option autoImplicit false

namespace ClickHouse.PartsSplitter

open Lib List
open Values (ofKey)

variable {α : Type*} [LinearOrder α]

/-! ## Expressions -/

/-- A component of one of the two tuples. -/
inductive Component (α : Type*) where
  | key (column : ℕ)
  | isNull (column : ℕ)
  | assumeNotNull (column : ℕ)
  | literal (n : ℕ)
  | cast (a : α)

/-- The filters that are built, as trees of functions. -/
inductive Filter (α : Type*) where
  | greater (lhs rhs : List (Component α))
  | less (lhs rhs : List (Component α))
  | not (filter : Filter α)
  | and (lhs rhs : Filter α)

/-- A key column in a row: the null map, and the value under it. -/
structure KeyCell (α : Type*) where
  is_null : Bool
  nested : α

/-- The field in the column, as the index would have it. -/
def KeyCell.field {α : Type*} (cell : KeyCell α) : Field α :=
  if cell.is_null then .POSITIVE_INFINITY else .value cell.nested

/-- The key of a row, as the index would have it. -/
def rowKey {α : Type*} (row : ℕ → KeyCell α) : ℕ → Field α := fun column => (row column).field

/-- A component is a number or a value of the column's type, without Nullable. The column itself
is a component only where its type is not nullable. -/
def Component.eval {α : Type*} (row : ℕ → KeyCell α) : Component α → Lex (ℕ ⊕ α)
  | key column => toLex (.inr (row column).nested)
  | isNull column => toLex (.inl (row column).is_null.toNat)
  | assumeNotNull column => toLex (.inr (row column).nested)
  | literal n => toLex (.inl n)
  | cast a => toLex (.inr a)

/-- `executeTupleLessGreaterImpl`: from the last component to the first, `none` for the
exception on tuples of no components. -/
def tupleLess {β : Type*} [LinearOrder β] : List β → List β → Option Bool
  | [x], [y] => some (x < y)
  | x :: xs, y :: ys => (tupleLess xs ys).map fun res => (res && x = y) || x < y
  | _, _ => none

/-- The value of a filter on a row; `none` is an exception. -/
def Filter.eval (row : ℕ → KeyCell α) : Filter α → Option Bool
  | greater lhs rhs => tupleLess (rhs.map (Component.eval row)) (lhs.map (Component.eval row))
  | less lhs rhs => tupleLess (lhs.map (Component.eval row)) (rhs.map (Component.eval row))
  | not filter => (filter.eval row).map Bool.not
  | and lhs rhs => (lhs.eval row).bind fun l => (rhs.eval row).map fun r => l && r

/-! ## `buildFilters` -/

section Build

variable {α : Type*} {columns : ℕ} {rev : Bool} (nullable : ℕ → Bool)

/-- `pk_ast`, as it stands when it is pushed. -/
def pkAst (column : ℕ) : Component α :=
  if nullable column then .assumeNotNull column else .key column

/-- `pks_ast`, with the columns from the given one on. -/
def pksAst : ℕ → List (Field α) → List (Component α)
  | _, [] => []
  | column, _ :: values =>
    (if nullable column then [.isNull column] else []) ++ pkAst nullable column ::
      pksAst (column + 1) values

/-- `Field::isNull`, which the two infinities are as well. -/
def isNullField : Field α → Bool
  | .value _ => false
  | _ => true

/-- What a value of the border is compared with: a NULL has the key itself as a placeholder. -/
def componentAst (column : ℕ) : Field α → Component α
  | .value a => .cast a
  | _ => pkAst nullable column

/-- `values_ast`. -/
def valuesAst : ℕ → List (Field α) → List (Component α)
  | _, [] => []
  | column, value :: values =>
    (if nullable column then [.literal (if isNullField value then 1 else 0)] else []) ++
      componentAst nullable column value :: valuesAst (column + 1) values

/-- `lexicographically_greater`. -/
def lexicographicallyGreater (values : Values α columns rev) : Filter α :=
  let pks_ast := pksAst nullable 0 values.fields
  let values_ast := valuesAst nullable 0 values.fields
  if rev then .less pks_ast values_ast else .greater pks_ast values_ast

/-- `add_and_condition`. -/
def addAndCondition (result : Option (Filter α)) (foo : Filter α) : Option (Filter α) :=
  match result with
  | none => some foo
  | some result => some (.and result foo)

/-- The filter of one layer: the body of the loop. -/
def layerFilter (borders : List (Values α columns rev)) (layer : ℕ) : Option (Filter α) :=
  let result := match lowerBorder borders layer with
    | some border => addAndCondition none (lexicographicallyGreater nullable border)
    | none => none
  match borders[layer]? with
  | some border => addAndCondition result (.not (lexicographicallyGreater nullable border))
  | none => result

/-- `buildFilters`: a filter for each layer, of which there is one more than borders. -/
def buildFilters (borders : List (Values α columns rev)) : List (Option (Filter α)) :=
  (List.range (borders.length + 1)).map (layerFilter nullable borders)

end Build

/-- A layer without a filter has all the rows it reads. -/
def accepts (filter : Option (Filter α)) (row : ℕ → KeyCell α) : Bool :=
  match filter with
  | none => true
  | some filter => filter.eval row = some true

/-! ## The filters compare keys -/

/-- The comparison from the last component on is the lexicographic order. -/
lemma tupleLess_eq {β : Type*} [LinearOrder β] {xs ys : List β} (hlength : xs.length = ys.length)
    (hne : xs ≠ []) : tupleLess xs ys = some (decide (xs < ys)) := by
  induction xs generalizing ys with
  | nil => exact absurd rfl hne
  | cons x xs ih =>
    cases ys with
    | nil => cases hlength
    | cons y ys =>
      have hlength := Nat.succ.inj hlength
      -- the comparison of the heads decides, and that of the tails if they are equal
      have hlt : x :: xs < y :: ys ↔ x < y ∨ x = y ∧ xs < ys := cons_lt_cons_iff
      cases xs with
      | nil =>
        obtain rfl := eq_nil_of_length_eq_zero hlength.symm
        simp [tupleLess, hlt]
      | cons x' xs =>
        rw [tupleLess, ih hlength (cons_ne_nil _ _), Option.map_some]
        · rw [Option.some.injEq, Bool.eq_iff_iff]
          simp only [Bool.or_eq_true, Bool.and_eq_true, decide_eq_true_eq, hlt]
          rw [or_comm, and_comm]
        · simp

section Cells

variable (nullable : ℕ → Bool) (row : ℕ → KeyCell α)

/-- The value under the null map. -/
def nestedValue {α : Type*} (placeholder : α) : Field α → α
  | .value a => a
  | _ => placeholder

/-- The components for one field of the key, in the tuples that are compared for the row. -/
def cells (column : ℕ) (field : Field α) : List (Lex (ℕ ⊕ α)) :=
  (if nullable column then [toLex (.inl (isNullField field).toNat)] else []) ++
    [toLex (.inr (nestedValue (row column).nested field))]

def tupleCells : ℕ → List (Field α) → List (Lex (ℕ ⊕ α))
  | _, [] => []
  | column, field :: fields =>
    cells nullable row column field ++ tupleCells (column + 1) fields

variable (column : ℕ)

omit [LinearOrder α] in
lemma eval_pkAst :
    (pkAst nullable column).eval row = toLex (.inr (row column).nested) := by
  rw [pkAst]
  split_ifs <;> rfl

omit [LinearOrder α] in
lemma eval_valuesAst (fields : List (Field α)) :
    (valuesAst nullable column fields).map (Component.eval row) =
      tupleCells nullable row column fields := by
  induction fields generalizing column with
  | nil => rfl
  | cons field fields ih =>
    rw [valuesAst, tupleCells, cells, ← ih, map_append, map_cons, append_assoc]
    congr 1
    · cases nullable column <;> cases field <;> rfl
    · cases field with
      | value a => rfl
      | NEGATIVE_INFINITY => exact congrArg (· :: _) (eval_pkAst nullable row column)
      | POSITIVE_INFINITY => exact congrArg (· :: _) (eval_pkAst nullable row column)

omit [LinearOrder α] in
lemma eval_pksAst (fields : List (Field α)) :
    (pksAst nullable column fields).map (Component.eval row) =
      tupleCells nullable row column (tuple column fields.length (rowKey row)) := by
  induction fields generalizing column with
  | nil => rfl
  | cons field fields ih =>
    rw [pksAst, length_cons, tuple_succ, tupleCells, cells, ← ih, map_append,
      map_cons, eval_pkAst, append_assoc, rowKey, KeyCell.field]
    cases hnull : (row column).is_null <;> cases nullable column <;>
      simp [Component.eval, isNullField, nestedValue, hnull]

/-- A field that a column of the key can hold: not an infinity, but for the one that stands for
NULL. -/
def Storable (column : ℕ) : Field α → Prop
  | .value _ => True
  | .POSITIVE_INFINITY => nullable column = true
  | .NEGATIVE_INFINITY => False

variable {nullable row} {column : ℕ}

lemma cells_append_lt_iff {x y : Field α} (hx : Storable nullable column x)
    (hy : Storable nullable column y) {l l' : List (Lex (ℕ ⊕ α))} :
    cells nullable row column x ++ l < cells nullable row column y ++ l' ↔
      x < y ∨ x = y ∧ l < l' := by
  have hcons : ∀ {a b : Lex (ℕ ⊕ α)} {l l' : List (Lex (ℕ ⊕ α))},
      a :: l < b :: l' ↔ a < b ∨ a = b ∧ l < l' := cons_lt_cons_iff
  cases hnull : nullable column <;> cases x <;> cases y <;>
    simp_all [cells, isNullField, nestedValue, Storable]

/-- **The components are in the order of the fields.** -/
theorem tupleCells_lt_iff {n column : ℕ} {f g : ℕ → Field α}
    (hf : ∀ i < column + n, Storable nullable i (f i))
    (hg : ∀ i < column + n, Storable nullable i (g i)) :
    tupleCells nullable row column (tuple column n f) <
        tupleCells nullable row column (tuple column n g) ↔
      tuple column n f < tuple column n g := by
  induction n generalizing column with
  | zero => exact iff_of_false (lt_irrefl _) (lt_irrefl _)
  | succ n ih =>
    have hcons : f column :: tuple (column + 1) n f < g column :: tuple (column + 1) n g ↔
        f column < g column ∨ f column = g column ∧
          tuple (column + 1) n f < tuple (column + 1) n g :=
      cons_lt_cons_iff
    rw [tuple_succ, tuple_succ, tupleCells, tupleCells,
      cells_append_lt_iff (hf column (by omega)) (hg column (by omega)), hcons,
      ih (fun i hi => hf i (by omega)) fun i hi => hg i (by omega)]

omit [LinearOrder α] in
lemma length_tupleCells {fields fields' : List (Field α)} (h : fields.length = fields'.length) :
    (tupleCells nullable row column fields).length =
      (tupleCells nullable row column fields').length := by
  induction fields generalizing column fields' with
  | nil => rw [eq_nil_of_length_eq_zero h.symm]
  | cons field fields ih =>
    cases fields' with
    | nil => cases h
    | cons field' fields' =>
      rw [tupleCells, tupleCells, length_append, length_append, ih (Nat.succ.inj h)]
      congr 1
      simp only [cells, length_append, length_singleton]
      split_ifs <;> rfl

variable {columns : ℕ} {rev : Bool}

/-- **The expression for a border tells whether the row is after it.** -/
theorem eval_lexicographicallyGreater (hcolumns : 0 < columns) {f : ℕ → Field α}
    (hf : ∀ i < columns, Storable nullable i (f i))
    (hrow : ∀ i < columns, Storable nullable i (rowKey row i)) :
    (lexicographicallyGreater nullable (ofKey f : Values α columns rev)).eval row =
      some (decide ((ofKey f : Values α columns rev) < ofKey (rowKey row))) := by
  have hlength : (tuple 0 columns f).length = columns := by
    rw [tuple, length_map, length_range']
  have hlength' : (tuple 0 columns (rowKey row)).length = columns := by
    rw [tuple, length_map, length_range']
  have hcells : (tupleCells nullable row 0 (tuple 0 columns f)).length =
      (tupleCells nullable row 0 (tuple 0 columns (rowKey row))).length :=
    length_tupleCells (hlength.trans hlength'.symm)
  have hne : ∀ g : ℕ → Field α, tupleCells nullable row 0 (tuple 0 columns g) ≠ [] := by
    obtain ⟨n, rfl⟩ := Nat.exists_eq_succ_of_ne_zero hcolumns.ne'
    intro g
    simp [tuple_succ, tupleCells, cells]
  have hlt : ∀ {g g' : ℕ → Field α}, (∀ i < columns, Storable nullable i (g i)) →
      (∀ i < columns, Storable nullable i (g' i)) →
      (tupleCells nullable row 0 (tuple 0 columns g) <
        tupleCells nullable row 0 (tuple 0 columns g') ↔ tuple 0 columns g < tuple 0 columns g') :=
    fun hg hg' => tupleCells_lt_iff (by simpa using hg) (by simpa using hg')
  have hpks := eval_pksAst nullable row 0 (tuple 0 columns f)
  rw [hlength] at hpks
  -- in reverse order the two sides of the comparison change places
  cases rev with
  | false =>
    change tupleLess ((valuesAst nullable 0 (tuple 0 columns f)).map (Component.eval row))
      ((pksAst nullable 0 (tuple 0 columns f)).map (Component.eval row)) = _
    rw [eval_valuesAst, hpks, tupleLess_eq hcells (hne _)]
    exact congrArg some (decide_eq_decide.2 (hlt hf hrow))
  | true =>
    change tupleLess ((pksAst nullable 0 (tuple 0 columns f)).map (Component.eval row))
      ((valuesAst nullable 0 (tuple 0 columns f)).map (Component.eval row)) = _
    rw [eval_valuesAst, hpks, tupleLess_eq hcells.symm (hne _)]
    exact congrArg some (decide_eq_decide.2 (hlt hrow hf))

end Cells

/-! ## One layer for each key -/

variable {columns : ℕ} {rev : Bool}

variable (borders : List (Values α columns rev))

/-- A key is between the borders of a layer. -/
def Between (n : ℕ) (value : Values α columns rev) : Prop :=
  (∀ border, lowerBorder borders n = some border → border < value) ∧
    ∀ border, borders[n]? = some border → value ≤ border

/-- The layer of a key, by the number of borders before it. -/
def layerOf (value : Values α columns rev) : ℕ :=
  borders.countP fun border => border < value

variable {borders : List (Values α columns rev)}

/-- **Each key is between the borders of one layer.** -/
theorem between_iff (h : borders.Pairwise (· < ·)) {n : ℕ}
    (hn : n ≤ borders.length) (value : Values α columns rev) :
    Between borders n value ↔ n = layerOf borders value := by
  induction borders generalizing n with
  | nil =>
    obtain rfl := Nat.le_zero.1 hn
    simp [Between, layerOf, lowerBorder]
  | cons border borders ih =>
    obtain ⟨hlt, hrest⟩ := pairwise_cons.1 h
    by_cases hborder : border < value
    · -- the first border is before the value, and the others decide
      rw [layerOf, countP_cons_of_pos (by simpa using hborder)]
      cases n with
      | zero =>
        refine iff_of_false (fun hbetween => ?_) (Nat.succ_ne_zero _).symm
        exact (hbetween.2 border rfl).not_gt hborder
      | succ n =>
        rw [Nat.add_right_cancel_iff, ← layerOf, ← ih hrest (Nat.le_of_succ_le_succ hn)]
        cases n with
        | zero => simp [Between, lowerBorder, hborder]
        | succ n => rfl
    · -- the value is not after the first border, and so not after any other
      have hzero : borders.countP (fun border => border < value) = 0 :=
        countP_eq_zero.2 fun border' hmem => by
          simpa using (not_lt.1 hborder).trans (hlt border' hmem).le
      rw [layerOf, countP_cons_of_neg (by simpa using hborder), hzero]
      cases n with
      | zero => simpa [Between, lowerBorder] using hborder
      | succ n =>
        refine iff_of_false (fun hbetween => hborder ?_) (Nat.succ_ne_zero n)
        have hget := getElem?_eq_getElem (l := border :: borders) hn
        have hmem := getElem_mem (l := border :: borders) hn
        refine lt_of_le_of_lt ?_ (hbetween.1 _ hget)
        rcases mem_cons.1 hmem with heq | hmem
        · exact heq.ge
        · exact (hlt _ hmem).le

omit [LinearOrder α] in
lemma mem_of_lowerBorder {n : ℕ}
    {border : Values α columns rev} (h : lowerBorder borders n = some border) :
    border ∈ borders := by
  cases n with
  | zero => cases h
  | succ n => exact mem_of_getElem? h

variable {row : ℕ → KeyCell α} {nullable : ℕ → Bool}

/-- **The filter of a layer accepts the rows between its borders.** -/
theorem accepts_layerFilter (hborders : ∀ border ∈ borders, 0 < columns ∧
      ∃ f, border = ofKey f ∧ ∀ i < columns, Storable nullable i (f i))
    (hrow : ∀ i < columns, Storable nullable i (rowKey row i)) (n : ℕ) :
    accepts (layerFilter nullable borders n) row = true ↔
      Between borders n (ofKey (rowKey row)) := by
  -- the borders are made of columns, and so the expression compares them with the row
  have heval : ∀ border ∈ borders, (lexicographicallyGreater nullable border).eval row =
      some (decide (border < ofKey (rowKey row))) := by
    intro border hmem
    obtain ⟨hcolumns, f, rfl, hf⟩ := hborders border hmem
    exact eval_lexicographicallyGreater hcolumns hf hrow
  rw [layerFilter, Between]
  -- the first layer has no lower border, and the last one no upper border
  cases hlower : lowerBorder borders n with
  | none =>
    cases hupper : borders[n]? with
    | none => simp [accepts]
    | some upper =>
      simp [accepts, addAndCondition, Filter.eval, heval upper (mem_of_getElem? hupper)]
  | some lower =>
    have hlow := heval lower (mem_of_lowerBorder hlower)
    cases hupper : borders[n]? with
    | none => simp [accepts, addAndCondition, hlow]
    | some upper =>
      simp [accepts, addAndCondition, Filter.eval, hlow, heval upper (mem_of_getElem? hupper)]

/-! ## The layers and their filters -/

omit [LinearOrder α] in
/-- A key column without Nullable has no NULL. -/
lemma storable_rowKey (hrow : ∀ i, nullable i = false → (row i).is_null = false) (i : ℕ) :
    Storable nullable i (rowKey row i) := by
  rw [rowKey, KeyCell.field]
  cases hnull : (row i).is_null with
  | false => exact trivial
  | true =>
    by_contra hne
    rw [hrow i (Bool.eq_false_iff.2 hne)] at hnull
    cases hnull

/-- **The layers partition the rows.** For each key there is one layer, and the rows with this
key are those that the layer reads and that its filter accepts; the filters of the other
layers accept none of them. -/
theorem splitIntersectingPartsRangesIntoLayers_partition (parts : RangesInDataParts α)
    (in_reverse_order : Bool) (order : HashOrder (PartRangeIndex parts) ℕ)
    (max_layers max_columns_in_index : ℕ) (nullable : ℕ → Bool) (hmax : 1 ≤ max_layers)
    (hwf : WellFormed parts) (hsorted : ∀ p ∈ parts, p.data_part.Sorted in_reverse_order)
    (hindex : ∀ p ∈ parts, ∀ column < p.data_part.index_size,
      ∀ mark < p.data_part.index_granularity.marks_count,
        Storable nullable column (p.data_part.index column mark)) :
    ∃ bound, ∀ fuel ≥ bound, ∃ result,
      splitIntersectingPartsRangesIntoLayers parts in_reverse_order order fuel max_layers
          max_columns_in_index = some result ∧
      ((∃ p ∈ parts, p.ranges ≠ []) → result.layers.length = result.borders.length + 1) ∧
      ∃ home : Values α (loadedColumns parts max_columns_in_index) in_reverse_order → ℕ,
        ∀ i, ∀ r ∈ (parts.get i).ranges, ∀ mark ∈ r, ∀ row : ℕ → KeyCell α,
        (∀ column, nullable column = false → (row column).is_null = false) →
          (parts.get i).data_part.RowAt in_reverse_order mark (rowKey row) →
            (∃ layer, result.layers[home (Values.ofKey (rowKey row))]? = some layer ∧
              timesRead layer (parts.get i).part_index_in_query mark = 1) ∧
            ∀ n filter, (buildFilters nullable result.borders)[n]? = some filter →
              (accepts filter row = true ↔ n = home (Values.ofKey (rowKey row))) := by
  refine ⟨queueWeight (initialQueue parts (loadedColumns parts max_columns_in_index)
    in_reverse_order), fun fuel hfuel => ?_⟩
  obtain ⟨result, hsplit, hcorrect⟩ := splitIntersectingPartsRangesIntoLayers_correct hwf hsorted
    order hmax max_columns_in_index hfuel
  have hlength : ∀ {i r}, r ∈ (parts.get i).ranges →
      result.layers.length = result.borders.length + 1 := fun {i r} hr =>
    hcorrect.length_eq.resolve_right fun h => h.2.2 ⟨i, r⟩ hr
  -- the borders are values of the index, which the filter can write down
  have hborders : ∀ border ∈ result.borders, 0 < loadedColumns parts max_columns_in_index ∧
      ∃ f, border = Values.ofKey f ∧
        ∀ i < loadedColumns parts max_columns_in_index, Storable nullable i (f i) := by
    intro border hmem
    obtain ⟨hcolumns, i, mark, hmark, rfl⟩ := hcorrect.is_key border hmem
    have hp := get_mem parts i
    exact ⟨hcolumns, _, rfl, fun column hcolumn => hindex _ hp column
      (hcolumn.trans_le ((loadedColumns_le max_columns_in_index).2 _ hp)) mark hmark⟩
  refine ⟨result, hsplit, ?_, layerOf result.borders, fun i r hr mark hmark row hrow hat =>
    ⟨?_, ?_⟩⟩
  · rintro ⟨p, hp, hne⟩
    obtain ⟨i, rfl⟩ := get_of_mem hp
    obtain ⟨r, hr⟩ := exists_mem_of_ne_nil _ hne
    exact hlength hr
  · -- the row is read by the layer of its key
    have hle : layerOf result.borders (Values.ofKey (rowKey row)) ≤ result.borders.length :=
      countP_le_length
    have hlt : layerOf result.borders (Values.ofKey (rowKey row)) < result.layers.length := by
      rw [hlength hr]
      exact Nat.lt_succ_of_le hle
    have hbetween := (between_iff hcorrect.borders_lt hle _).2 rfl
    exact ⟨_, getElem?_eq_getElem hlt,
      hcorrect.keeps _ _ (getElem?_eq_getElem hlt) i r hr mark hmark _ hat hbetween.1 hbetween.2⟩
  · -- of the filters only that of its layer accepts it
    intro n filter hfilter
    rw [buildFilters, getElem?_map, Option.map_eq_some_iff] at hfilter
    obtain ⟨n', hn', rfl⟩ := hfilter
    obtain ⟨hn, hget⟩ := List.getElem?_eq_some_iff.1 hn'
    rw [getElem_range] at hget
    rw [length_range] at hn
    subst hget
    rw [accepts_layerFilter hborders (fun i _ => storable_rowKey hrow i),
      between_iff hcorrect.borders_lt (Nat.le_of_lt_succ hn)]

/-- With the whole of both parts to read, the row of the first part with the least key is read
by one of at most two layers. -/
theorem splitIntersectingPartsRangesIntoLayers_partition_at_two_parts :
    ∃ fuel result, splitIntersectingPartsRangesIntoLayers (sampleParts [⟨0, 2⟩] [⟨0, 2⟩]) false
        ⟨AList.entries, fun _ => List.Perm.refl _⟩ fuel 2 allColumns = some result ∧
      result.layers.length = result.borders.length + 1 ∧
      ∃ layer ∈ result.layers, timesRead layer 0 0 = 1 := by
  have hwell : WellFormed (sampleParts [⟨0, 2⟩] [⟨0, 2⟩]) :=
    ⟨by decide, by decide, by decide, by decide⟩
  have hindex : ∀ p ∈ sampleParts [⟨0, 2⟩] [⟨0, 2⟩], ∀ column < p.data_part.index_size,
      ∀ mark < p.data_part.index_granularity.marks_count,
        Storable (fun _ => false) column (p.data_part.index column mark) := by
    simp only [sampleParts, forall_mem_cons]
    exact ⟨fun _ _ _ _ => trivial, fun _ _ _ _ => trivial, by simp⟩
  obtain ⟨bound, hbound⟩ := splitIntersectingPartsRangesIntoLayers_partition
    (sampleParts [⟨0, 2⟩] [⟨0, 2⟩]) false ⟨AList.entries, fun _ => List.Perm.refl _⟩ 2 allColumns
    (fun _ => false) (by decide) hwell (sampleParts_sorted _ _) hindex
  obtain ⟨result, hsplit, hlength, home, hhome⟩ := hbound bound le_rfl
  have hrow : (samplePart [0, 5, 10]).RowAt false 0 (rowKey fun _ => ⟨false, 0⟩) := by
    unfold DataPart.RowAt
    decide
  obtain ⟨⟨layer, hlayer, hread⟩, -⟩ := hhome ⟨0, by decide⟩ ⟨0, 2⟩ mem_cons_self 0 (by decide)
    (fun _ => ⟨false, 0⟩) (fun _ _ => rfl) hrow
  exact ⟨bound, result, hsplit, hlength ⟨_, mem_cons_self, by decide⟩, layer,
    mem_of_getElem? hlayer, hread⟩

end ClickHouse.PartsSplitter
