/-
The hash table is a finite map.

The buffer is read as an arrangement of entries in the sense of `Lib.Probing`: the cell `i`
has an entry unless its key is zero. Each function of the table is then one operation on
arrangements, and whether a search finds what it should is settled there. What is left to
show is that the loops do these operations, that they end, and that the number of elements
is such that there is always an empty cell.

`Represents` ties a table to a finite map: the zero key is in a cell of its own, the others
are placed in the buffer. It is kept by every operation, whether an allocation succeeds or
not, so it holds after every sequence of them.
-/
import ClickHouse.Common.HashTable
import ClickHouse.Lib.LinearProbing

set_option autoImplicit false

namespace ClickHouse.OpenAddressing

open Lib.FiniteMap Lib.Probing List Finset Function HashTableGrower Nat
open Option hiding mem_toFinset
open Function (update)
open Finmap (erase_erase keys_erase lookup_empty lookup_eq_none lookup_erase lookup_erase_ne
  mem_iff mem_of_lookup_eq_some)

/-! ## The grower -/

namespace HashTableGrower

variable (g : HashTableGrower)

lemma bufSize_eq : g.bufSize = 2 ^ g.size_degree := one_shiftLeft _

lemma maxFill_eq : g.maxFill = 2 ^ (g.size_degree - 1) := one_shiftLeft _

lemma bufSize_pos : 0 < g.bufSize := by
  rw [bufSize_eq]
  exact Nat.two_pow_pos _

/-- At most half of the cells are filled. -/
lemma bufSize_eq_maxFill {g : HashTableGrower} (h : 1 ≤ g.size_degree) :
    g.bufSize = 2 * g.maxFill := by
  obtain ⟨d, hd⟩ := Nat.exists_eq_add_of_le' h
  rw [bufSize_eq, maxFill_eq, hd, Nat.add_sub_cancel, pow_succ, mul_comm]

lemma place_eq (x : ℕ) : g.place x = x % g.bufSize := by
  rw [place, mask, bufSize_eq, and_two_pow_sub_one_eq_mod]

lemma next_eq (pos : ℕ) : g.next pos = Lib.Probing.next g.bufSize pos := by
  rw [next, mask, bufSize_eq, and_two_pow_sub_one_eq_mod]
  rfl

lemma place_lt (x : ℕ) : g.place x < g.bufSize := by
  rw [place_eq]
  exact mod_lt _ g.bufSize_pos

variable {g g' : HashTableGrower}

/-- The smaller buffer takes the lower bits of the place in the larger one. -/
lemma place_mod (h : g.size_degree ≤ g'.size_degree) (x : ℕ) :
    g'.place x % g.bufSize = g.place x := by
  rw [place_eq, place_eq, bufSize_eq, bufSize_eq, mod_mod_of_dvd _ (pow_dvd_pow 2 h)]

lemma two_mul_bufSize_le (h : g.size_degree < g'.size_degree) :
    2 * g.bufSize ≤ g'.bufSize := by
  rw [bufSize_eq, bufSize_eq, ← pow_succ']
  exact Nat.pow_le_pow_right (by decide) h

end HashTableGrower

namespace HashTable

variable {Key Mapped : Type}

/-! ## Frames -/

/-- Only the cells have changed. -/
structure SameFrame (t t' : HashTable Key Mapped) : Prop where
  m_size : t'.m_size = t.m_size
  grower : t'.grower = t.grower
  has_zero : t'.has_zero = t.has_zero
  zero_value : t'.zero_value = t.zero_value
  length : t'.buf.length = t.buf.length

variable (t : HashTable Key Mapped)

lemma SameFrame.refl : SameFrame t t := ⟨rfl, rfl, rfl, rfl, rfl⟩

lemma SameFrame.trans {t₁ t₂ t₃ : HashTable Key Mapped} (h₁ : SameFrame t₁ t₂)
    (h₂ : SameFrame t₂ t₃) : SameFrame t₁ t₃ :=
  ⟨h₂.m_size.trans h₁.m_size, h₂.grower.trans h₁.grower, h₂.has_zero.trans h₁.has_zero,
    h₂.zero_value.trans h₁.zero_value, h₂.length.trans h₁.length⟩

lemma SameFrame.exists_eq {t t' : HashTable Key Mapped} (h : SameFrame t t') :
    ∃ buf, t' = { t with buf := buf } := by
  obtain ⟨⟩ := t'
  obtain ⟨rfl, rfl, rfl, rfl, -⟩ := h
  exact ⟨_, rfl⟩

lemma sameFrame_setCell (i : ℕ) (cell : HashMapCell Key Mapped) :
    SameFrame t (t.setCell i cell) := ⟨rfl, rfl, rfl, rfl, length_set ..⟩

variable (C : HashTableTraits Key Mapped) (t : HashTable Key Mapped)

lemma length_newCell (q : ℕ) (k : Key) :
    (t.newCell C q k).buf.length = t.buf.length := length_set ..

lemma length_clearCell (q : ℕ) :
    (t.clearCell C q).buf.length = t.buf.length := length_set ..

/-! ## The buffer as an arrangement -/

variable {i : ℕ}

lemma cellAt_of_length_le {C : HashTableTraits Key Mapped} {t : HashTable Key Mapped}
    (h : t.buf.length ≤ i) : t.cellAt C i = blankCell C :=
  getD_eq_default _ _ h

variable [DecidableEq Key] (C : HashTableTraits Key Mapped)

/-- Where the search for a key starts. -/
def home (g : HashTableGrower) (x : Key) : ℕ := g.place (C.hash x)

/-- The entry of a cell. -/
def entry (cell : HashMapCell Key Mapped) : Option (Key × Mapped) :=
  if isZero C cell.key then none else some (cell.key, cell.mapped)

/-- What the table says at the cell `i`. -/
def slot (t : HashTable Key Mapped) (i : ℕ) : Option (Key × Mapped) := entry C (t.cellAt C i)

variable {C} {t t' : HashTable Key Mapped}

variable {x : Key}

lemma isZero_iff : isZero C x = true ↔ x = C.zero := beq_iff_eq

lemma not_isZero_iff : (!isZero C x) = true ↔ x ≠ C.zero := by
  rw [Bool.not_eq_true', ← Bool.not_eq_true, isZero_iff]

variable {cell : HashMapCell Key Mapped}

lemma entry_eq_none : entry C cell = none ↔ isZero C cell.key = true := by
  unfold entry
  split_ifs with h <;> simp [h]

variable {k : Key} {v : Mapped}

lemma entry_eq_some :
    entry C cell = some (k, v) ↔ cell = ⟨k, v⟩ ∧ k ≠ C.zero := by
  obtain ⟨key, mapped⟩ := cell
  grind [entry, isZero_iff]

lemma entry_setZero (cell : HashMapCell Key Mapped) : entry C (setZero C cell) = none :=
  entry_eq_none.2 (isZero_iff.2 rfl)

lemma slot_of_length_le (h : t.buf.length ≤ i) : t.slot C i = none := by
  rw [slot, cellAt_of_length_le h]
  exact entry_eq_none.2 (isZero_iff.2 rfl)

lemma slot_setCell (h : i < t.buf.length) (cell : HashMapCell Key Mapped) :
    (t.setCell i cell).slot C = update (t.slot C) i (entry C cell) := by
  funext j
  by_cases hj : j = i
  · rw [hj, update_self, slot, cellAt, setCell, getD_eq_getElem?_getD,
      getElem?_set_self h, getD_some]
  · rw [update_of_ne hj, slot, slot, cellAt, cellAt, setCell, getD_eq_getElem?_getD,
      getElem?_set_ne (Ne.symm hj), ← getD_eq_getElem?_getD]

lemma isZero_cellAt : isZero C (t.cellAt C i).key = (t.slot C i).isNone := by
  rw [Bool.eq_iff_iff, isNone_iff_eq_none, slot, entry_eq_none]

/-! ## Search -/

/-- **The search for a key ends if there is a cell where it may end.** -/
theorem findCell_spec (hx : x ≠ C.zero)
    (hex : ∃ z < t.grower.bufSize, t.slot C z = none ∨ ∃ v, t.slot C z = some (x, v)) :
    ∃ q, t.findCell C x (t.grower.place (C.hash x)) = some q ∧
      Probed t.grower.bufSize (home C t.grower) (t.slot C) x q := by
  have hnext : (fun place_value => some (t.grower.next place_value)) =
      fun c => some (next t.grower.bufSize c) := by
    funext c
    rw [next_eq]
  rw [findCell, hnext]
  refine @probe_spec _ _ x _ (home C t.grower) _ _ (t.grower.place_lt _) (fun c => ?_) hex
  rw [Bool.or_eq_true, beq_iff_eq, slot, entry_eq_none]
  refine or_congr_right ⟨fun h => ⟨(t.cellAt C c).mapped, ?_⟩, fun ⟨v, h⟩ => ?_⟩
  · rw [entry_eq_some, ← h]
    exact ⟨rfl, h ▸ hx⟩
  · rw [(entry_eq_some.1 h).1]

/-! ## Growth -/

variable {m : Finmap fun _ : Key => Mapped}

/-- `reinsert` moves an entry to where the search for it ends. -/
lemma reinsert_spec
    (hstores : Stores t.grower.bufSize (t.slot C) m) (hlength : t.buf.length = t.grower.bufSize)
    (hi : i < t.grower.bufSize) (hslot : t.slot C i = some (k, v)) :
    ∃ t' q, t.reinsert C i (C.hash (t.cellAt C i).key) = some t' ∧ SameFrame t t' ∧
      Probed t.grower.bufSize (home C t.grower) (t.slot C) k q ∧
      t'.slot C = move (t.slot C) i q := by
  obtain ⟨hcell, hk⟩ := entry_eq_some.1 hslot
  unfold reinsert
  simp only [hcell]
  by_cases hplace : i = t.grower.place (C.hash k)
  · -- the entry is where its hash says: nothing moves
    refine ⟨t, i, if_pos hplace, .refl t, ⟨hi, .inr ⟨v, hslot⟩, fun c hpath hne => ?_⟩,
      (move_self _ _).symm⟩
    rw [home, ← hplace] at hpath
    unfold OnPath at hpath
    omega
  rw [if_neg hplace]
  obtain ⟨q, hfind, hq⟩ := findCell_spec hk ⟨i, hi, .inr ⟨v, hslot⟩⟩
  simp only [hfind, bind_eq_bind, bind_some]
  -- the search ends at an empty cell, or at the cell itself
  rcases hstores.probed_cell hi hslot hq with hnone | rfl
  · refine ⟨_, q, if_neg (by simp [isZero_cellAt, hnone]),
      (sameFrame_setCell ..).trans (sameFrame_setCell ..), hq, ?_⟩
    have hqi : q ≠ i := by grind
    have hentry : entry C (⟨k, v⟩ : HashMapCell Key Mapped) = t.slot C i := by
      rw [hslot]
      exact entry_eq_some.2 ⟨rfl, hk⟩
    rw [slot_setCell (by rw [(sameFrame_setCell t ..).length]; omega),
      slot_setCell (by rw [hlength]; exact hq.lt), entry_setZero, hentry, update_comm hqi]
    rfl
  · exact ⟨t, q, if_pos (by simp [isZero_cellAt, hslot]), .refl t, hq, (move_self _ _).symm⟩

/-- The same for a table of which only the cells have changed. -/
lemma SameFrame.reinsert {t₁ : HashTable Key Mapped} (hframe : SameFrame t t₁)
    (hlength : t.buf.length = t.grower.bufSize)
    (hstores : Stores t.grower.bufSize (t₁.slot C) m) (hi : i < t.grower.bufSize)
    (hslot : t₁.slot C i = some (k, v)) :
    ∃ t' q, t₁.reinsert C i (C.hash (t₁.cellAt C i).key) = some t' ∧ SameFrame t t' ∧
      Probed t.grower.bufSize (home C t.grower) (t₁.slot C) k q ∧
      t'.slot C = move (t₁.slot C) i q := by
  rw [← hframe.grower] at hstores hi ⊢
  obtain ⟨t', q, hreinsert, hframe', hrest⟩ := reinsert_spec hstores
    (by rw [hframe.length, hframe.grower, hlength]) hi hslot
  exact ⟨t', q, hreinsert, hframe.trans hframe', hrest⟩

lemma slot_realloc (new_grower : HashTableGrower) :
    (t.realloc C new_grower).slot C = t.slot C := by
  funext i
  rcases lt_or_ge i t.buf.length with hi | hi
  · rw [slot, slot, cellAt, cellAt, realloc, getD_append _ _ _ _ hi]
  have hblank : (t.realloc C new_grower).cellAt C i = blankCell C := by
    rw [cellAt, realloc, getD_append_right _ _ _ _ hi]
    by_cases hin : i - t.buf.length < new_grower.bufSize - t.grower.bufSize
    · rw [getD_replicate _ hin]
    · exact getD_eq_default _ _ (by rw [length_replicate]; omega)
  rw [slot, hblank, slot, cellAt_of_length_le hi]

/-- **The first pass over the old buffer.** -/
theorem reinsertOld_spec {g : HashTableGrower}
    {old : ℕ → Option (Key × Mapped)} (hold : Placed g.bufSize (home C g) old m)
    (hdegree : g.size_degree < t.grower.size_degree)
    (hcard : g.bufSize + m.keys.card < t.grower.bufSize) (hlength : t.buf.length = t.grower.bufSize)
    (hgrowing : Growing g.bufSize t.grower.bufSize (home C t.grower) old (t.slot C) m 0)
    (hi : i ≤ g.bufSize) :
    ∃ t', t.reinsertOld C i = some t' ∧ SameFrame t t' ∧
      Growing g.bufSize t.grower.bufSize (home C t.grower) old (t'.slot C) m i := by
  induction i with
  | zero => exact ⟨t, rfl, .refl t, hgrowing⟩
  | succ i ih =>
    -- each cell that is passed is empty, or its entry is moved to where it is found
    obtain ⟨t₁, hrun, hframe, hgrowing₁⟩ := ih (by omega)
    have hstep : t.reinsertOld C (i + 1) = if isZero C (t₁.cellAt C i).key then some t₁
        else t₁.reinsert C i (C.hash (t₁.cellAt C i).key) := by
      rw [reinsertOld, range_succ, foldlM_append, ← reinsertOld, hrun]
      exact bind_fun_some _
    rw [hstep]
    rw [isZero_cellAt]
    cases hslot : t₁.slot C i with
    | none => exact ⟨t₁, rfl, hframe, hgrowing₁.skip hslot⟩
    | some kv =>
      obtain ⟨t₂, q, hreinsert, hframe₂, hq, hmove⟩ := hframe.reinsert hlength
        hgrowing₁.toStores (by omega) hslot
      refine ⟨t₂, hreinsert, hframe₂, ?_⟩
      rw [hmove]
      refine hgrowing₁.visit (by omega) (by omega) hcard hslot ?_ hq
      -- the old home of a key is the new one cut to the old size, so the old path leads to the cell
      intro c hpath
      rw [home, place_mod hdegree.le] at hpath
      exact hold.reach i kv.1 kv.2 (by omega)
        ((hgrowing₁.rest i le_rfl (by omega)).symm.trans hslot) c hpath

/-- **The second pass over the tail.** -/
theorem reinsertTail_spec {n e : ℕ} (hlength : t.buf.length = t.grower.bufSize)
    (htail : Tail t.grower.bufSize (home C t.grower) (t.slot C) m e n) :
    ∃ t', t.reinsertTail C n = some t' ∧ SameFrame t t' ∧
      Placed t.grower.bufSize (home C t.grower) (t'.slot C) m := by
  -- the loop ends at the first empty cell, and `Tail` says that all entries before it are in place
  obtain ⟨⟨j, t'⟩, hloop, ⟨hframe, htail'⟩, hcond⟩ := Lib.whileLoop_spec
    (fun s : ℕ × HashTable Key Mapped => s.1 < t.grower.bufSize && !isZero C (s.2.cellAt C s.1).key)
    (fun s => do
      let t ← s.2.reinsert C s.1 (C.hash (s.2.cellAt C s.1).key)
      return (s.1 + 1, t))
    (fun s => SameFrame t s.2 ∧ Tail t.grower.bufSize (home C t.grower) (s.2.slot C) m e s.1)
    (fun s => t.grower.bufSize - s.1) (fun ⟨j, t₁⟩ ⟨hframe, htail₁⟩ hcond => by
      simp only [Bool.and_eq_true, decide_eq_true_eq, Bool.not_eq_true'] at hcond
      obtain ⟨hj, hnonzero⟩ := hcond
      rw [isZero_cellAt, isNone_eq_false_iff, isSome_iff_exists] at hnonzero
      obtain ⟨⟨k, v⟩, hslot⟩ := hnonzero
      -- the cell at the end of the tail is empty, so the loop is not past it
      have hje : j < e := lt_of_le_of_ne htail₁.le_end (by grind [htail₁.end_empty])
      obtain ⟨t₂, q, hreinsert, hframe₂, hq, hmove⟩ := hframe.reinsert hlength
        htail₁.toStores hj hslot
      refine ⟨(j + 1, t₂), ?_, ⟨hframe₂, ?_⟩, ?_⟩
      · simp only [hreinsert]
        rfl
      · show Tail _ _ (t₂.slot C) m e (j + 1)
        rw [hmove]
        exact htail₁.visit hje hslot hq
      · show t.grower.bufSize - (j + 1) < t.grower.bufSize - j
        omega)
    t.grower.bufSize (n, t) ⟨.refl t, htail⟩ (sub_le _ _)
  refine ⟨t', ?_, hframe, htail'.placed_of_empty ?_⟩
  · unfold reinsertTail
    simp only [hloop]
    rfl
  · have hj : j < t.grower.bufSize := lt_of_le_of_lt htail'.le_end htail'.end_lt
    simpa [isZero_cellAt, hj] using hcond

/-! ## The table as a finite map -/

variable (C) in
/-- The table holds the entries of the map. -/
structure Holds (t : HashTable Key Mapped) (m : Finmap fun _ : Key => Mapped) : Prop where
  length : t.buf.length = t.grower.bufSize
  degree : 1 ≤ t.grower.size_degree
  placed : Placed t.grower.bufSize (home C t.grower) (t.slot C) (m.erase C.zero)
  zero_key : t.zero_value.key = C.zero
  zero : m.lookup C.zero = if t.has_zero then some t.zero_value.mapped else none
  size : t.m_size = m.keys.card

variable (C) in
/-- The table holds the entries of the map, and at most half of the cells are filled. The zero
key is counted by `m_size` but does not fill a cell, and it is inserted without a look at the
fill. -/
structure Represents (t : HashTable Key Mapped) (m : Finmap fun _ : Key => Mapped) : Prop
    extends Holds C t m where
  fill : (m.erase C.zero).keys.card ≤ t.grower.maxFill

variable {m : Finmap fun _ : Key => Mapped}

/-- The table after its buffer has been replaced by a larger one. -/
lemma resizeTo_spec (h : Holds C t m) {new_grower : HashTableGrower}
    (hdegree : t.grower.size_degree < new_grower.size_degree)
    (hcard : t.grower.bufSize + (m.erase C.zero).keys.card < new_grower.bufSize) :
    (C.allocates new_grower.bufSize = false ∧
        t.resizeTo C new_grower = some (.error .CANNOT_ALLOCATE_MEMORY)) ∨
      C.allocates new_grower.bufSize = true ∧
        ∃ t', t.resizeTo C new_grower = some (.ok t') ∧ Holds C t' m ∧ t'.grower = new_grower := by
  unfold resizeTo
  cases hallocates : C.allocates new_grower.bufSize with
  | false => exact .inl ⟨rfl, rfl⟩
  | true =>
    refine .inr ⟨rfl, ?_⟩
    have hlength : (t.realloc C new_grower).buf.length = new_grower.bufSize := by
      rw [realloc, length_append, length_replicate, h.length]
      omega
    have hgrowing : Growing t.grower.bufSize new_grower.bufSize (home C new_grower) (t.slot C)
        ((t.realloc C new_grower).slot C) (m.erase C.zero) 0 := by
      rw [slot_realloc]
      exact h.placed.toStores.growing (by omega) fun c hc =>
        slot_of_length_le (by rw [h.length]; exact hc)
    -- first the cells of the old buffer, then the chain that has formed right behind it
    obtain ⟨t₁, hold, hframe₁, hgrowing₁⟩ := reinsertOld_spec h.placed hdegree hcard hlength
      hgrowing le_rfl
    obtain ⟨e, htail⟩ := hgrowing₁.tail hcard
    obtain ⟨_, rfl⟩ := hframe₁.exists_eq
    obtain ⟨t₂, htail₂, hframe₂, hplaced⟩ := reinsertTail_spec (hframe₁.length.trans hlength) htail
    obtain ⟨_, rfl⟩ := hframe₂.exists_eq
    refine ⟨_, ?_, ⟨hframe₂.length.trans (hframe₁.length.trans hlength), h.degree.trans hdegree.le,
      hplaced, h.zero_key, h.zero, h.size⟩, rfl⟩
    simp only [hold, htail₂, bind_eq_bind, bind_some]
    rfl

/-- One element more than the fill and the buffer can still grow in place. -/
lemma increaseSize_spec {g : HashTableGrower} (h : 1 ≤ g.size_degree) {size : ℕ}
    (hsize : size ≤ g.maxFill + 1) :
    g.size_degree < g.increaseSize.size_degree ∧ g.bufSize + size < g.increaseSize.bufSize ∧
      size ≤ g.increaseSize.maxFill := by
  have hbuf := bufSize_eq_maxFill h
  have hpos := g.bufSize_pos
  unfold increaseSize
  rcases lt_or_ge g.size_degree max_size_degree with hsmall | hlarge
  · -- a small buffer becomes four times as large
    rw [if_neg (by omega)]
    have hbuf' := @bufSize_eq_maxFill ⟨g.size_degree + 2⟩ (by show 1 ≤ _ + 2; omega)
    have hnew : (⟨g.size_degree + 2⟩ : HashTableGrower).bufSize = 4 * g.bufSize := by
      rw [bufSize_eq, bufSize_eq, Nat.pow_add, mul_comm]
    exact ⟨by show _ < _ + 2; omega, by omega, by omega⟩
  · -- a large one becomes twice as large
    rw [if_pos hlarge]
    have hbuf' := @bufSize_eq_maxFill ⟨g.size_degree + 1⟩ (by show 1 ≤ _ + 1; omega)
    have hnew : (⟨g.size_degree + 1⟩ : HashTableGrower).bufSize = 2 * g.bufSize := by
      rw [bufSize_eq, bufSize_eq, Nat.pow_add, mul_comm]
    have hfour : 4 ≤ g.bufSize := by
      rw [bufSize_eq]
      exact (by decide : 4 ≤ 2 ^ 23).trans (Nat.pow_le_pow_right (by decide) hlarge)
    exact ⟨by show _ < _ + 1; omega, by omega, by omega⟩

/-- **Growing keeps the map**, if there is at most one element more than the fill. -/
theorem resize_zero_spec (h : Holds C t m)
    (hsize : (m.erase C.zero).keys.card ≤ t.grower.maxFill + 1) :
    (C.allocates t.grower.increaseSize.bufSize = false ∧
        t.resize C 0 = some (.error .CANNOT_ALLOCATE_MEMORY)) ∨
      C.allocates t.grower.increaseSize.bufSize = true ∧
        ∃ t', t.resize C 0 = some (.ok t') ∧ Represents C t' m := by
  obtain ⟨hdegree, hcard, hfill⟩ := increaseSize_spec h.degree hsize
  rcases resizeTo_spec h hdegree hcard with herror | ⟨hallocates, t', hok, hholds, hgrower⟩
  · exact .inl herror
  · refine .inr ⟨hallocates, t', hok, hholds, ?_⟩
    rw [hgrower]
    exact hfill

variable (h : Represents C t m)

include h in
/-- A resize moves the cells and keeps what the table says, or there is no memory. -/
lemma resize_spec (for_num_elems : ℕ) :
    t.resize C for_num_elems = some (.error .CANNOT_ALLOCATE_MEMORY) ∨
      ∃ t', t.resize C for_num_elems = some (.ok t') ∧ Represents C t' m := by
  by_cases hzero : for_num_elems = 0
  · rw [hzero]
    exact (resize_zero_spec h.toHolds (by have := h.fill; omega)).imp And.right And.right
  rw [resize, if_pos hzero]
  simp only
  split_ifs with hle
  · -- the buffer is large enough already
    exact .inr ⟨t, rfl, h⟩
  have hdegree : t.grower.size_degree <
      (set C.initial_size_degree for_num_elems).size_degree := by
    rw [bufSize_eq, bufSize_eq] at hle
    exact (Nat.pow_lt_pow_iff_right (by decide : 1 < 2)).1 (by omega)
  have hdouble := two_mul_bufSize_le hdegree
  have hbuf := bufSize_eq_maxFill h.degree
  have hbuf' := bufSize_eq_maxFill (h.degree.trans hdegree.le)
  have hfill := h.fill
  rcases resizeTo_spec h.toHolds hdegree (by omega) with ⟨-, herror⟩ | ⟨-, t', hok, hholds, hgrower⟩
  · exact .inl herror
  · refine .inr ⟨t', hok, hholds, ?_⟩
    rw [hgrower]
    omega

/-! ## Search and insertion -/

variable (C) in
/-- The pointer is to the entry of a key. -/
def PointsTo (t : HashTable Key Mapped) (it : Ptr) (k : Key) (v : Mapped) : Prop :=
  match it with
  | .zeroValue => k = C.zero ∧ t.has_zero = true ∧ t.zero_value.mapped = v
  | .cell place_value => place_value < t.grower.bufSize ∧ t.slot C place_value = some (k, v)

lemma PointsTo.deref_eq (h : Holds C t m) {it : Ptr} (hit : PointsTo C t it k v) :
    t.deref C it = ⟨k, v⟩ := by
  cases it with
  | zeroValue =>
    obtain ⟨rfl, -, rfl⟩ := hit
    rw [deref, ← h.zero_key]
  | cell place_value => exact (entry_eq_some.1 hit.2).1

include h in
/-- There is an empty cell. -/
lemma Represents.exists_empty :
    ∃ z < t.grower.bufSize, t.slot C z = none := by
  have hbuf := bufSize_eq_maxFill h.degree
  have hpos := t.grower.bufSize_pos
  have hfill := h.fill
  obtain ⟨z, -, hz, hnone⟩ := h.placed.toStores.exists_empty (a := 0) (by omega)
  exact ⟨z, hz, hnone⟩

include h in
/-- The search for a key ends. -/
lemma Represents.findCell (hx : x ≠ C.zero) :
    ∃ q, t.findCell C x (t.grower.place (C.hash x)) = some q ∧
      Probed t.grower.bufSize (home C t.grower) (t.slot C) x q := by
  obtain ⟨z, hz, hnone⟩ := h.exists_empty
  exact findCell_spec hx ⟨z, hz, .inl hnone⟩

variable {q : ℕ}

/-- Where the search for a key ends, for a key that is there and for one that is not. -/
lemma Holds.probed_cases (h : Holds C t m) (hx : x ≠ C.zero)
    (hq : Probed t.grower.bufSize (home C t.grower) (t.slot C) x q) :
    (∃ v, m.lookup x = some v ∧ PointsTo C t (.cell q) x v ∧ isZero C (t.cellAt C q).key = false) ∨
      (m.lookup x = none ∧ t.slot C q = none ∧ isZero C (t.cellAt C q).key = true) := by
  have hlookup : (m.erase C.zero).lookup x = m.lookup x := lookup_erase_ne hx
  cases hm : m.lookup x with
  | some v =>
    have hslot := h.placed.probed_of_lookup (hlookup.trans hm) hq
    exact .inl ⟨v, rfl, ⟨hq.lt, hslot⟩, by rw [isZero_cellAt, hslot]; rfl⟩
  | none =>
    have hslot := h.placed.toStores.probed_of_absent (hlookup.trans hm) hq
    exact .inr ⟨rfl, hslot, entry_eq_none.1 hslot⟩

include h in
/-- **`find` answers as the map does.** -/
theorem find_spec (x : Key) :
    (∃ it v, t.find C x = some (some it) ∧ m.lookup x = some v ∧ PointsTo C t it x v) ∨
      (t.find C x = some none ∧ m.lookup x = none) := by
  unfold find
  by_cases hx : x = C.zero
  · rw [if_pos (isZero_iff.2 hx), hx, h.zero]
    cases hzero : t.has_zero with
    | true => exact .inl ⟨.zeroValue, _, rfl, rfl, rfl, hzero, rfl⟩
    | false => exact .inr ⟨rfl, rfl⟩
  rw [if_neg (by rwa [isZero_iff])]
  obtain ⟨q, hfind, hq⟩ := h.findCell hx
  rw [hfind]
  rcases h.probed_cases hx hq with ⟨v, hm, hit, hzero⟩ | ⟨hm, -, hzero⟩
  · refine .inl ⟨.cell q, v, ?_, hm, hit⟩
    simp [hzero]
  · refine .inr ⟨?_, hm⟩
    simp [hzero]

include h in
/-- **Writing through a pointer.** -/
theorem setMapped_spec {it : Ptr} (hit : PointsTo C t it k v)
    (w : Mapped) : Represents C (t.setMapped C it w) (m.insert k w) := by
  -- the key is there already, so the number of keys stays
  have hmem : k ∈ m := by
    rw [mem_iff]
    cases it with
    | zeroValue =>
      obtain ⟨rfl, hzero, -⟩ := hit
      exact ⟨_, by rw [h.zero, hzero]; rfl⟩
    | cell q =>
      have hk := (entry_eq_some.1 hit.2).2
      exact ⟨v, (lookup_erase_ne hk).symm.trans ((h.placed.lookup_iff k v).2 ⟨q, hit⟩)⟩
  have hkeys := keys_insert_of_mem hmem w
  cases it with
  | zeroValue =>
    obtain ⟨rfl, hzero, -⟩ := hit
    refine { h with placed := ?_, zero := ?_, size := ?_, fill := ?_ }
    · rw [erase_insert_self]
      exact h.placed
    · rw [Finmap.lookup_insert]
      exact (if_pos hzero).symm
    · rw [hkeys]
      exact h.size
    · rw [erase_insert_self]
      exact h.fill
  | cell q =>
    obtain ⟨hcell, hk⟩ := entry_eq_some.1 hit.2
    have hframe := sameFrame_setCell t q { t.cellAt C q with mapped := w }
    refine ⟨⟨?_, h.degree, ?_, h.zero_key, ?_, ?_⟩, ?_⟩
    · exact hframe.length.trans h.length
    · have hentry : entry C { t.cellAt C q with mapped := w } = some (k, w) := by
        rw [hcell]
        exact entry_eq_some.2 ⟨rfl, hk⟩
      rw [erase_insert hk, setMapped, slot_setCell (by rw [h.length]; exact hit.1), hentry]
      exact h.placed.assign hit.1 hit.2 w
    · rw [Finmap.lookup_insert_of_ne _ (Ne.symm hk)]
      exact h.zero
    · rw [hkeys]
      exact h.size
    · rw [keys_erase, hkeys, ← keys_erase]
      exact h.fill

variable (C) in
/-- One more key fills more than half of the cells, and no larger buffer can be allocated. The zero
key does not need a cell. -/
def CannotGrow (t : HashTable Key Mapped) (k : Key) : Prop :=
  k ≠ C.zero ∧ t.grower.overflow (t.m_size + 1) = true ∧
    C.allocates t.grower.increaseSize.bufSize = false

variable (C) in
/-- What `emplace` may do: give back the entry that is there, make a new one, or throw. -/
def EmplaceSpec (t : HashTable Key Mapped) (m : Finmap fun _ : Key => Mapped) (k : Key)
    (result : Option (Emplaced × HashTable Key Mapped)) : Prop :=
  (∃ it v, result = some (.returned it false, t) ∧ m.lookup k = some v ∧ PointsTo C t it k v) ∨
    (∃ it t', result = some (.returned it true, t') ∧ (m.lookup k = none ∧ ¬ CannotGrow C t k) ∧
      Represents C t' (m.insert k C.blank) ∧ PointsTo C t' it k C.blank) ∨
    ∃ error t', result = some (.thrown error, t') ∧ (m.lookup k = none ∧ CannotGrow C t k) ∧
      Represents C t' m

include h in
/-- The zero key goes into its own cell. -/
lemma emplaceZero_spec :
    EmplaceSpec C t m C.zero (some (t.emplaceZero C)) := by
  have hlookup := h.zero
  unfold emplaceZero
  cases hzero : t.has_zero with
  | true =>
    rw [hzero] at hlookup
    exact .inl ⟨.zeroValue, _, rfl, hlookup, rfl, hzero, rfl⟩
  | false =>
    rw [hzero] at hlookup
    refine .inr (.inl ⟨.zeroValue, _, rfl, ⟨hlookup, fun hgrow => hgrow.1 rfl⟩,
      ⟨⟨h.length, h.degree, ?_, rfl, ?_, ?_⟩, ?_⟩, rfl, rfl, rfl⟩)
    · rw [erase_insert_self]
      exact h.placed
    · exact Finmap.lookup_insert _
    · rw [card_keys_insert (lookup_eq_none.1 hlookup), ← h.size]
    · rw [erase_insert_self]
      exact h.fill

lemma slot_newCell (hq : q < t.buf.length) (hk : k ≠ C.zero) :
    (t.newCell C q k).slot C = update (t.slot C) q (some (k, C.blank)) :=
  (slot_setCell hq _).trans (by rw [entry_eq_some.2 ⟨rfl, hk⟩])

lemma slot_clearCell (hq : q < t.buf.length) :
    (t.clearCell C q).slot C = update (t.slot C) q none :=
  (slot_setCell hq _).trans (by rw [entry_setZero])

/-- The table after a new key is written into an empty cell. -/
lemma Holds.newCell (h : Holds C t m) (hk : k ≠ C.zero) (hm : m.lookup k = none)
    (hq : Probed t.grower.bufSize (home C t.grower) (t.slot C) k q) :
    Holds C (t.newCell C q k) (m.insert k C.blank) := by
  have hplaced := h.placed.insert ((lookup_erase_ne hk).trans hm) hq C.blank
  rw [← slot_newCell (by rw [h.length]; exact hq.lt) hk, ← erase_insert hk] at hplaced
  refine ⟨(length_newCell ..).trans h.length, h.degree, hplaced, h.zero_key, ?_, ?_⟩
  · rw [Finmap.lookup_insert_of_ne _ hk.symm]
    exact h.zero
  · rw [card_keys_insert (lookup_eq_none.1 hm), ← h.size]
    rfl

section

include h

/-- The table after a new cell is emptied again. -/
lemma Represents.clearCell_newCell (hq : q < t.grower.bufSize)
    (hslot : t.slot C q = none) (hk : k ≠ C.zero) :
    Represents C ((t.newCell C q k).clearCell C q) m := by
  have hsame : ((t.newCell C q k).clearCell C q).slot C = t.slot C := by
    rw [slot_clearCell (by rw [length_newCell, h.length]; exact hq),
      slot_newCell (by rw [h.length]; exact hq) hk, update_idem, ← hslot, update_eq_self]
  refine { h with length := ?_, placed := hsame ▸ h.placed }
  rw [length_clearCell, length_newCell]
  exact h.length

/-- Insertion at the place where the probe of the key has ended. -/
lemma emplaceNonZeroImpl_spec (hk : k ≠ C.zero)
    (hq : Probed t.grower.bufSize (home C t.grower) (t.slot C) k q) :
    EmplaceSpec C t m k (t.emplaceNonZeroImpl C q k) := by
  unfold emplaceNonZeroImpl
  rcases h.probed_cases hk hq with ⟨v, hm, hit, hzero⟩ | ⟨hm, hslot, hzero⟩
  · exact .inl ⟨.cell q, v, by rw [hzero]; rfl, hm, hit⟩
  rw [hzero]
  have hnew := h.toHolds.newCell hk hm hq
  have hslot₁ : (t.newCell C q k).slot C q = some (k, C.blank) := by
    rw [slot_newCell (by rw [h.length]; exact hq.lt) hk, update_self]
  cases hover : (t.newCell C q k).grower.overflow (t.newCell C q k).m_size with
  | false =>
    -- there is room, and the table stays as large as it is
    have hle : (t.newCell C q k).m_size ≤ (t.newCell C q k).grower.maxFill := by
      simpa only [overflow, decide_eq_false_iff_not, not_lt, gt_iff_lt] using hover
    have hroom : ¬ CannotGrow C t k := fun hgrow => Bool.false_ne_true (hover.symm.trans hgrow.2.1)
    refine .inr (.inl ⟨.cell q, _, by simp [hover], ⟨hm, hroom⟩, ⟨hnew, ?_⟩, hq.lt, hslot₁⟩)
    calc ((m.insert k C.blank).erase C.zero).keys.card
        ≤ (m.insert k C.blank).keys.card := by
          rw [keys_erase]
          exact card_erase_le
      _ ≤ t.grower.maxFill := by
          rw [← hnew.size]
          exact hle
  | true =>
    -- more than half is filled: the table grows, and the cell has to be looked up again
    have hcard : ((m.insert k C.blank).erase C.zero).keys.card ≤ t.grower.maxFill + 1 := by
      rw [erase_insert hk, card_keys_insert (fun hmem => ?_)]
      · exact succ_le_succ h.fill
      · exact lookup_eq_none.1 hm (Finmap.mem_erase.1 hmem).2
    rcases resize_zero_spec hnew hcard with ⟨hallocates, herror⟩ | ⟨hallocates, t', hok, hrep⟩
    · -- the new buffer is refused, and the cell is cleared again
      refine .inr (.inr ⟨.CANNOT_ALLOCATE_MEMORY, _, ?_, ⟨hm, hk, hover, hallocates⟩,
        h.clearCell_newCell hq.lt hslot hk⟩)
      simp [hover, herror]
    have hroom : ¬ CannotGrow C t k := fun hgrow =>
      Bool.false_ne_true (hgrow.2.2.symm.trans hallocates)
    obtain ⟨q', hfind, hq'⟩ := hrep.findCell hk
    have hlookup := @Finmap.lookup_insert _ _ _ k C.blank m
    rcases hrep.probed_cases hk hq' with ⟨v, hm', hit, -⟩ | ⟨hm', -, -⟩
    · obtain rfl : C.blank = v := some_injective _ (hlookup.symm.trans hm')
      refine .inr (.inl ⟨.cell q', t', ?_, ⟨hm, hroom⟩, hrep, hit⟩)
      simp [hover, hok, hfind]
    · rw [hlookup] at hm'
      cases hm'

/-- **`emplace` keeps the map, and adds the key unless it is there or an allocation fails.** -/
theorem emplace_spec (k : Key) : EmplaceSpec C t m k (t.emplace C k) := by
  unfold emplace
  by_cases hk : k = C.zero
  · rw [if_pos (isZero_iff.2 hk), hk]
    exact emplaceZero_spec h
  · rw [if_neg (by rwa [isZero_iff])]
    obtain ⟨q, hfind, hq⟩ := h.findCell hk
    rw [hfind]
    exact emplaceNonZeroImpl_spec h hk hq

end

/-! ## Removal -/

/-- The three comparisons are one: the path of the element does not go through the free cell. -/
lemma staysInPlace_iff {n hole d p : ℕ} (hhole : hole < n) (hne : d ≠ hole) :
    staysInPlace hole d p = true ↔ ¬OnPath n p d hole := by
  simp only [staysInPlace, Bool.or_eq_true, Bool.and_eq_true, decide_eq_true_eq]
  unfold OnPath
  omega

/-- The element at `d` is copied to the free cell, and its own cell is then the free one. -/
lemma update_setCell {hole d : ℕ} (hhole : hole < t.buf.length) (hne : d ≠ hole) :
    update ((t.setCell hole (t.cellAt C d)).slot C) d none =
      move (update (t.slot C) hole none) d hole := by
  rw [slot_setCell hhole, move, update_of_ne hne, update_comm hne, update_idem]
  rfl

variable (C) in
/-- The invariant of the walk. The entry of the free cell is still there. -/
def GapInv (t : HashTable Key Mapped) (m : Finmap fun _ : Key => Mapped) (e : ℕ)
    (s : Gap Key Mapped) : Prop :=
  SameFrame t s.table ∧
    Hole t.grower.bufSize (home C t.grower)
      (update (s.table.slot C) s.erased_key_position none) m e s.erased_key_position s.next_position

/-- One step of the walk. -/
lemma GapInv.step {e : ℕ} {s : Gap Key Mapped} (hlength : t.buf.length = t.grower.bufSize)
    (h : GapInv C t m e s) (hnonzero : isZero C (s.table.cellAt C s.next_position).key = false) :
    GapInv C t m e (s.step C) ∧
      steps t.grower.bufSize (s.step C).next_position e <
        steps t.grower.bufSize s.next_position e := by
  obtain ⟨t₁, hole, d⟩ := s
  obtain ⟨hframe, hinv⟩ := h
  simp only at hframe hinv hnonzero
  have hne : d ≠ hole := hinv.visit.2
  rw [isZero_cellAt, isNone_eq_false_iff, isSome_iff_exists] at hnonzero
  obtain ⟨⟨k, v⟩, hslot⟩ := hnonzero
  have hslot' : update (t₁.slot C) hole none d = some (k, v) := by
    rw [update_of_ne hne, hslot]
  have hkey : (t₁.cellAt C d).key = k := by rw [(entry_eq_some.1 hslot).1]
  have hde : d ≠ e := by grind [hinv.end_empty]
  have hless := steps_next_lt hinv.visit_lt hinv.end_lt hde
  have hstays := @staysInPlace_iff t.grower.bufSize hole d (t.grower.place (C.hash k))
    hinv.hole_lt hne
  unfold Gap.step
  simp only [hkey, hframe.grower, next_eq]
  by_cases hthrough : OnPath t.grower.bufSize (t.grower.place (C.hash k)) d hole
  · -- the entry goes into the hole, and its cell is the new hole
    rw [if_neg (by rwa [hstays, not_not])]
    refine ⟨⟨hframe.trans (sameFrame_setCell ..), ?_⟩, hless⟩
    rw [update_setCell (by rw [hframe.length, hlength]; exact hinv.hole_lt) hne]
    exact hinv.fill hslot' hthrough
  · -- the entry stays where it is
    rw [if_pos (hstays.2 hthrough)]
    exact ⟨⟨hframe, hinv.keep hslot' hthrough⟩, hless⟩

/-- **The walk ends, and then every element but the free one is in its place.** -/
theorem closeGap_spec {e hole : ℕ} (hlength : t.buf.length = t.grower.bufSize)
    (h : Hole t.grower.bufSize (home C t.grower) (update (t.slot C) hole none) m e hole
      (next t.grower.bufSize hole)) :
    ∃ s, t.closeGap C hole = some s ∧ SameFrame t s.table ∧
      s.erased_key_position < t.grower.bufSize ∧
      Placed t.grower.bufSize (home C t.grower)
        (update (s.table.slot C) s.erased_key_position none) m := by
  obtain ⟨s, hloop, ⟨hframe, hinv⟩, hcond⟩ := Lib.whileLoop_spec
    (fun s : Gap Key Mapped => !isZero C (s.table.cellAt C s.next_position).key)
    (fun s => some (s.step C)) (GapInv C t m e)
    (fun s => steps t.grower.bufSize s.next_position e)
    (fun s hinv hcond => ⟨s.step C, rfl, hinv.step hlength (by simpa using hcond)⟩)
    t.grower.bufSize ⟨t, hole, t.grower.next hole⟩
    ⟨.refl t, by rw [next_eq]; exact h⟩ (steps_le h.end_lt)
  refine ⟨s, hloop, hframe, hinv.hole_lt, hinv.placed ?_⟩
  rw [update_of_ne hinv.visit.2]
  simpa [isZero_cellAt] using hcond

include h in
/-- **`erase` removes the key from the map.** -/
theorem erase_spec (k : Key) :
    ∃ t', t.erase C k = some ((m.lookup k).isSome, t') ∧ Represents C t' (m.erase k) := by
  unfold erase
  by_cases hk : k = C.zero
  · rw [if_pos (isZero_iff.2 hk), hk]
    -- the zero key has no cell, only a flag
    have hlookup := h.zero
    cases hzero : t.has_zero with
    | true =>
      rw [hzero] at hlookup
      refine ⟨{ t with m_size := t.m_size - 1, has_zero := false }, by rw [hlookup]; rfl,
        ⟨h.length, h.degree, ?_, h.zero_key, ?_, ?_⟩, ?_⟩
      · rw [erase_erase, erase_of_absent (lookup_erase ..)]
        exact h.placed
      · exact lookup_erase ..
      · rw [card_keys_erase (mem_of_lookup_eq_some hlookup), ← h.size]
      · rw [erase_of_absent (lookup_erase ..)]
        exact h.fill
    | false =>
      rw [hzero] at hlookup
      refine ⟨t, by rw [hlookup]; rfl, ?_⟩
      rw [erase_of_absent hlookup]
      exact h
  rw [if_neg (by rwa [isZero_iff])]
  obtain ⟨q, hfind, hq⟩ := h.findCell hk
  rw [hfind]
  rcases h.probed_cases hk hq with ⟨v, hm, hit, hzero⟩ | ⟨hm, -, hzero⟩
  · -- the cell becomes a hole, which the entries behind it close up
    obtain ⟨e, -, hhole⟩ := h.placed.hole hq.lt hit.2 h.exists_empty
    obtain ⟨⟨t', hole, d⟩, hgap, hframe, hlt, hplaced⟩ := closeGap_spec h.length hhole
    rw [← slot_clearCell (by rw [hframe.length, h.length]; exact hlt), ← erase_erase] at hplaced
    obtain ⟨_, rfl⟩ := hframe.exists_eq
    refine ⟨_, ?_, ⟨(length_clearCell ..).trans (hframe.length.trans h.length), h.degree, hplaced,
      h.zero_key, ?_, ?_⟩, ?_⟩
    · rw [hm]
      simp [hzero, hgap]
    · rw [lookup_erase_ne (Ne.symm hk)]
      exact h.zero
    · rw [card_keys_erase (mem_of_lookup_eq_some hm), ← h.size]
      rfl
    · rw [erase_erase, keys_erase]
      exact card_erase_le.trans h.fill
  · refine ⟨t, ?_, ?_⟩
    · rw [hm]
      simp [hzero]
    · rw [erase_of_absent hm]
      exact h

/-! ## Runs -/

/-- What an operation does to the map. An `emplace` that throws does nothing. -/
def effect (m : Finmap fun _ : Key => Mapped) :
    Op Key Mapped × Answer → Finmap fun _ : Key => Mapped
  | (.emplace key value, .emplaced (.returned _ _)) => if key ∈ m then m else m.insert key value
  | (.assign key value, _) => if key ∈ m then m.insert key value else m
  | (.erase key, _) => m.erase key
  | _ => m

/-- The map after a history. -/
def contents (history : List (Op Key Mapped × Answer)) : Finmap fun _ : Key => Mapped :=
  history.foldl effect ∅

include h in
/-- **Every operation ends, and does to the table what it does to the map.** An `emplace` throws
exactly if its key is new and the table cannot grow for it. -/
theorem apply_spec (op : Op Key Mapped) :
    ∃ answer t', op.apply C t = some (answer, t') ∧ Represents C t' (effect m (op, answer)) ∧
      ∀ key value, op = .emplace key value →
        ((∃ error, answer = .emplaced (.thrown error)) ↔ key ∉ m ∧ CannotGrow C t key) := by
  cases op with
  | emplace key value =>
    rcases emplace_spec h key with ⟨it, v, hemplace, hm, -⟩ |
      ⟨it, t', hemplace, ⟨hm, hroom⟩, hrep, hit⟩ | ⟨error, t', hemplace, ⟨hm, hgrow⟩, hrep⟩
    · -- the key is there: nothing changes
      have hmem := mem_of_lookup_eq_some hm
      refine ⟨.emplaced (.returned it false), t, by simp [Op.apply, hemplace], ?_, ?_⟩
      · rw [effect, if_pos hmem]
        exact h
      · rintro _ _ ⟨⟩
        exact iff_of_false (by simp) fun hnew => hnew.1 hmem
    · -- a new cell, which the caller then writes to
      refine ⟨.emplaced (.returned it true), t'.setMapped C it value, by simp [Op.apply, hemplace],
        ?_, ?_⟩
      · rw [effect, if_neg (lookup_eq_none.1 hm), ← @Finmap.insert_insert _ _ _ key C.blank value m]
        exact setMapped_spec hrep hit value
      · rintro _ _ ⟨⟩
        exact iff_of_false (by simp) fun hnew => hroom hnew.2
    · -- it threw, and the map is as before
      refine ⟨.emplaced (.thrown error), t', by simp [Op.apply, hemplace], hrep, ?_⟩
      rintro _ _ ⟨⟩
      exact iff_of_true ⟨error, rfl⟩ ⟨lookup_eq_none.1 hm, hgrow⟩
  | find key =>
    rcases find_spec h key with ⟨it, v, hfind, -, -⟩ | ⟨hfind, -⟩
    · exact ⟨.found (some it), t, by simp [Op.apply, hfind], h, nofun⟩
    · exact ⟨.found none, t, by simp [Op.apply, hfind], h, nofun⟩
  | assign key value =>
    rcases find_spec h key with ⟨it, v, hfind, hm, hit⟩ | ⟨hfind, hm⟩
    · refine ⟨.found (some it), t.setMapped C it value, by simp [Op.apply, hfind], ?_, nofun⟩
      rw [effect, if_pos (mem_of_lookup_eq_some hm)]
      exact setMapped_spec h hit value
    · refine ⟨.found none, t, by simp [Op.apply, hfind], ?_, nofun⟩
      rw [effect, if_neg (lookup_eq_none.1 hm)]
      exact h
  | erase key =>
    obtain ⟨t', herase, hrep⟩ := erase_spec h key
    exact ⟨.erased (m.lookup key).isSome, t', by simp [Op.apply, herase], hrep, nofun⟩
  | reserve num_elements =>
    rcases resize_spec h num_elements with herror | ⟨t', hok, hrep⟩
    · exact ⟨.reserved (some .CANNOT_ALLOCATE_MEMORY), t, by simp [Op.apply, herror], h, nofun⟩
    · exact ⟨.reserved none, t', by simp [Op.apply, hok], hrep, nofun⟩

include h in
/-- **Every run ends, and the table is then the map of its history.** For each `emplace` in it the
table before it is the one after the operations before it. -/
theorem run_spec (ops : List (Op Key Mapped)) :
    ∃ history t', t.run C ops = some (history, t') ∧ history.map Prod.fst = ops ∧
      Represents C t' (history.foldl effect m) ∧
      ∀ before key value answer after, history = before ++ (.emplace key value, answer) :: after →
        ∃ t₀, t.run C (before.map Prod.fst) = some (before, t₀) ∧
          ((∃ error, answer = .emplaced (.thrown error)) ↔
            key ∉ before.foldl effect m ∧ CannotGrow C t₀ key) := by
  induction ops generalizing t m with
  | nil =>
    refine ⟨[], t, rfl, rfl, h, fun before key value answer after heq => ?_⟩
    simp at heq
  | cons op ops ih =>
    obtain ⟨answer, t₁, happly, hrep₁, hthrows⟩ := apply_spec h op
    obtain ⟨history, t₂, hrun, hmap, hrep₂, hbefore⟩ := ih hrep₁
    refine ⟨(op, answer) :: history, t₂, ?_, ?_, hrep₂,
      fun before key value answer' after heq => ?_⟩
    · simp [run, happly, hrun]
    · rw [List.map_cons, hmap]
    -- the event is that of `op`, or one of the rest
    cases before with
    | nil =>
      cases heq
      exact ⟨t, rfl, hthrows key value rfl⟩
    | cons event before =>
      obtain ⟨rfl, hrest⟩ := List.cons.inj heq
      obtain ⟨t₀, hrun₀, hthrows₀⟩ := hbefore before key value answer' after hrest
      exact ⟨t₀, by simp [run, happly, hrun₀], hthrows₀⟩

/-- A new table is empty. -/
lemma represents_create : Represents C (create C) ∅ := by
  have hslot : (create C).slot C = fun _ => none := by
    funext i
    have hcell : (create C).cellAt C i = blankCell C := by
      rw [cellAt, create]
      rcases lt_or_ge i (HashTableGrower.mk C.initial_size_degree).bufSize with hi | hi
      · exact getD_replicate _ hi
      · exact getD_eq_default _ _ (by rw [length_replicate]; exact hi)
    rw [slot, hcell]
    exact entry_eq_none.2 (isZero_iff.2 rfl)
  have herase : (∅ : Finmap fun _ : Key => Mapped).erase C.zero = ∅ :=
    erase_of_absent (lookup_empty _)
  refine ⟨⟨length_replicate .., C.degree_pos, ?_, rfl, lookup_empty _, rfl⟩, ?_⟩
  · rw [hslot, herase]
    refine ⟨⟨fun k v => ?_, ?_⟩, ?_⟩
    · rw [lookup_empty]
      simp
    · intro s t k v w _ _ hs
      cases hs
    · intro t k v _ hs
      cases hs
  · rw [herase]
    exact zero_le _

/-- The key was inserted, and not erased after that. -/
def InsertedSinceErased (history : List (Op Key Mapped × Answer)) (k : Key) : Prop :=
  ∃ before value it inserted after,
    history = before ++ (.emplace k value, .emplaced (.returned it inserted)) :: after ∧
      ∀ answer, (.erase k, answer) ∉ after

/-- What one more operation means for a key. -/
lemma mem_effect (event : Op Key Mapped × Answer) :
    k ∈ effect m event ↔
      (∃ value it inserted, event = (.emplace k value, .emplaced (.returned it inserted))) ∨
        k ∈ m ∧ ∀ answer, event ≠ (.erase k, answer) := by
  obtain ⟨op, answer⟩ := event
  cases op with
  | emplace key value =>
    cases answer with
    | emplaced result =>
      cases result with
      | returned it inserted =>
        have hmem : k ∈ effect m (.emplace key value, .emplaced (.returned it inserted)) ↔
            k = key ∨ k ∈ m := by
          rw [effect]
          split_ifs with hkey
          · exact ⟨.inr, fun h => h.elim (fun h => h ▸ hkey) id⟩
          · exact Finmap.mem_insert
        rw [hmem]
        simp [eq_comm]
      | thrown error => simp [effect]
    | found it => simp [effect]
    | erased result => simp [effect]
    | reserved error => simp [effect]
  | find key => simp [effect]
  | assign key value =>
    have hmem : k ∈ effect m (.assign key value, answer) ↔ k ∈ m := by
      rw [effect]
      split_ifs with hkey
      · rw [Finmap.mem_insert]
        exact ⟨fun h => h.elim (fun h => h ▸ hkey) id, .inr⟩
      · rfl
    rw [hmem]
    simp
  | erase key =>
    rw [effect, Finmap.mem_erase]
    simp [and_comm, eq_comm]
  | reserve num_elements => simp [effect]

/-- The keys that the history leaves are those inserted and not erased since. -/
lemma mem_contents (history : List (Op Key Mapped × Answer)) (k : Key) :
    k ∈ contents history ↔ InsertedSinceErased history k := by
  induction history using reverseRecOn with
  | nil =>
    refine ⟨fun h => absurd h Finmap.notMem_empty, ?_⟩
    rintro ⟨before, value, it, inserted, after, h, -⟩
    simp at h
  | append_singleton history event ih =>
    -- the last event decides, unless it is about another key
    have hcontents : contents (history ++ [event]) = effect (contents history) event := by
      rw [contents, foldl_append]
      rfl
    rw [hcontents, mem_effect, ih]
    constructor
    · rintro
        (⟨value, it, inserted, rfl⟩ | ⟨⟨before, value, it, inserted, after, rfl, hafter⟩, hevent⟩)
      · exact ⟨history, value, it, inserted, [], rfl, by simp⟩
      · refine ⟨before, value, it, inserted, after ++ [event], by simp, fun answer hmem => ?_⟩
        rcases mem_append.1 hmem with hmem | hmem
        · exact hafter answer hmem
        · exact hevent answer (List.mem_singleton.1 hmem).symm
    · rintro ⟨before, value, it, inserted, after, h, hafter⟩
      -- the insertion is the last event, or the last event comes after it
      rcases eq_nil_or_concat after with rfl | ⟨after, last, rfl⟩
      · exact .inl ⟨value, it, inserted, (append_inj' h rfl).2 |> singleton_inj.1⟩
      rw [concat_eq_append, ← cons_append, ← append_assoc] at h
      obtain ⟨rfl, hlast⟩ := append_inj' h rfl
      obtain rfl := singleton_inj.1 hlast
      refine .inr ⟨⟨before, value, it, inserted, after, rfl, fun answer hmem => ?_⟩, ?_⟩
      · exact hafter answer (by simp [hmem])
      · rintro answer rfl
        exact hafter answer (by simp)

/-! ## The stored keys -/

lemma slot_of_lt (hi : i < t.buf.length) : t.slot C i = entry C t.buf[i] := by
  rw [slot, cellAt, getD_eq_getElem _ _ hi]

lemma mem_bufferKeys :
    k ∈ (t.buf.map HashMapCell.key).filter (fun key => !isZero C key) ↔
      ∃ i < t.buf.length, ∃ v, t.slot C i = some (k, v) := by
  rw [mem_filter, List.mem_map]
  constructor
  · rintro ⟨⟨cell, hcell, rfl⟩, hk⟩
    obtain ⟨i, hi, rfl⟩ := getElem_of_mem hcell
    refine ⟨i, hi, t.buf[i].mapped, ?_⟩
    rw [slot_of_lt hi, entry_eq_some]
    exact ⟨rfl, not_isZero_iff.1 hk⟩
  · rintro ⟨i, hi, v, hslot⟩
    rw [slot_of_lt hi] at hslot
    obtain ⟨hcell, hk⟩ := entry_eq_some.1 hslot
    exact ⟨⟨t.buf[i], getElem_mem hi, by rw [hcell]⟩, not_isZero_iff.2 hk⟩

/-- The cells hold the keys of the map. -/
lemma mem_storedKeys (h : Holds C t m) (k : Key) : k ∈ t.storedKeys C ↔ k ∈ m := by
  rw [storedKeys, mem_append, mem_bufferKeys, mem_iff]
  by_cases hk : k = C.zero
  · -- the buffer does not have the zero key
    have hbuffer : ¬∃ i < t.buf.length, ∃ v, t.slot C i = some (k, v) := by
      rintro ⟨i, -, v, hslot⟩
      exact (entry_eq_some.1 hslot).2 hk
    rw [hk, h.zero]
    cases hzero : t.has_zero with
    | true => simp [h.zero_key]
    | false => simpa [hk] using hbuffer
  · have hzero : k ∉ if t.has_zero = true then [t.zero_value.key] else [] := by
      cases t.has_zero with
      | true => simpa [h.zero_key] using hk
      | false => simp
    rw [or_iff_right hzero, h.length, ← lookup_erase_ne hk]
    constructor
    · rintro ⟨i, hi, v, hslot⟩
      exact ⟨v, (h.placed.lookup_iff k v).2 ⟨i, hi, hslot⟩⟩
    · rintro ⟨v, hlookup⟩
      obtain ⟨i, hi, hslot⟩ := (h.placed.lookup_iff k v).1 hlookup
      exact ⟨i, hi, v, hslot⟩

/-- No key is in two cells. -/
lemma nodup_storedKeys (h : Holds C t m) : (t.storedKeys C).Nodup := by
  have hzero : (if t.has_zero = true then [t.zero_value.key] else []).Nodup := by
    cases t.has_zero with
    | true => exact nodup_singleton _
    | false => exact nodup_nil
  refine Nodup.append hzero ?_ ?_
  · -- two cells with one key are one cell
    rw [List.Nodup, pairwise_filter, pairwise_map, pairwise_iff_getElem]
    intro i j hi hj hij hzi hzj heq
    have hslot : ∀ l (hl : l < t.buf.length), (!isZero C t.buf[l].key) = true →
        t.slot C l = some (t.buf[l].key, t.buf[l].mapped) := fun l hl hzl => by
      rw [slot_of_lt hl, entry_eq_some]
      exact ⟨rfl, not_isZero_iff.1 hzl⟩
    have hsloti := hslot i hi hzi
    rw [heq] at hsloti
    exact hij.ne (h.placed.unique i j _ _ _ (by rw [← h.length]; exact hi)
      (by rw [← h.length]; exact hj) hsloti (hslot j hj hzj))
  · -- the zero key is in no cell
    intro k hk hbuffer
    obtain ⟨i, -, v, hslot⟩ := mem_bufferKeys.1 hbuffer
    refine (entry_eq_some.1 hslot).2 ?_
    cases hhas : t.has_zero with
    | true =>
      rw [hhas, if_pos rfl, List.mem_singleton] at hk
      exact hk.trans h.zero_key
    | false =>
      rw [hhas] at hk
      cases hk

/-- **The hash table is a finite map.** For every hash function, every initial size, every
allocator and every sequence of operations: the run ends, and after it `find` succeeds for
exactly the keys that were inserted and not erased since, and gives the cell with that key
and the value last written to it; no key is stored twice; and the size is the number of the
keys that are present. An `emplace` throws, and changes nothing, exactly if its key is not present,
one more key would fill more than half of the table as it then is, and the allocation of a larger
buffer fails. -/
theorem run_finite_map (C : HashTableTraits Key Mapped) (ops : List (Op Key Mapped)) :
    ∃ history t, (create C).run C ops = some (history, t) ∧ history.map Prod.fst = ops ∧
      (∀ k, ∃ result, t.find C k = some result ∧
        (result.isSome = true ↔ InsertedSinceErased history k) ∧
        ∀ it ∈ result, (t.deref C it).key = k ∧
          (contents history).lookup k = some (t.deref C it).mapped) ∧
      (t.storedKeys C).Nodup ∧ (∀ k, k ∈ t.storedKeys C ↔ InsertedSinceErased history k) ∧
      t.m_size = (t.storedKeys C).length ∧
      ∀ before key value answer after, history = before ++ (.emplace key value, answer) :: after →
        ∃ t₀, (create C).run C (before.map Prod.fst) = some (before, t₀) ∧
          ((∃ error, answer = .emplaced (.thrown error)) ↔
            ¬ InsertedSinceErased before key ∧ CannotGrow C t₀ key) := by
  obtain ⟨history, t, hrun, hops, hrep, hthrows⟩ := run_spec (represents_create (C := C)) ops
  have hnodup := nodup_storedKeys hrep.toHolds
  have hmem := mem_storedKeys hrep.toHolds
  refine ⟨history, t, hrun, hops, fun k => ?_, hnodup, fun k => ?_, ?_, ?_⟩
  · rw [← mem_contents]
    rcases find_spec hrep k with ⟨it, v, hfind, hm, hit⟩ | ⟨hfind, hm⟩
    · refine ⟨some it, hfind, ?_, ?_⟩
      · exact ⟨fun _ => Finmap.mem_of_lookup_eq_some hm, fun _ => rfl⟩
      · rintro it ⟨⟩
        rw [hit.deref_eq hrep.toHolds]
        exact ⟨rfl, hm⟩
    · refine ⟨none, hfind, ?_, ?_⟩
      · refine ⟨nofun, fun h => ?_⟩
        exact absurd h (Finmap.lookup_eq_none.1 hm)
      · rintro it ⟨⟩
  · rw [hmem, ← mem_contents]
    rfl
  · -- the stored keys are those of the map, each of them once
    have hkeys : (t.storedKeys C).toFinset = (history.foldl effect ∅).keys := by
      ext k
      rw [mem_toFinset, hmem, Finmap.mem_keys]
    rw [hrep.size, ← hkeys, toFinset_card_of_nodup hnodup]
  · simp only [← mem_contents]
    exact hthrows

end HashTable

end ClickHouse.OpenAddressing
