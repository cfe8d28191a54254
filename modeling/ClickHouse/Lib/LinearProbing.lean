/-
Hash tables with linear probing: what an arrangement of entries over a ring of cells must
satisfy so that a search from an entry's home cell finds it.

A buffer is a function `slot` that gives the entry of each cell, and `home` gives the cell
where the search for a key starts. The arrangement is right if no key is in two cells and
every cell on the path from an entry's home to the entry is occupied (`Placed`); a search
stops at the key or at an empty cell, so it then answers as the finite map of the entries
does.

Paths go round the ring. They are stated as sets of cells (`OnPath`) by comparisons alone, so
that every fact about them is one of linear arithmetic.

* Removal leaves a hole and walks on. `Hole` says what is then still wrong: a path may go
  through the hole, but only the path of an entry that has not been visited yet.
* Growth in place visits the cells of the old buffer in turn (`Growing`). An entry is in its
  final place once its path avoids the cells that are still to be visited. Entries whose path
  went over the end of the old buffer are put behind it, and are for the time being out of
  place; they are in one run from there on, and `Tail` is the invariant of the second pass,
  which visits that run.
-/
import ClickHouse.Lib.FiniteMap
import ClickHouse.Lib.WhileLoop

set_option autoImplicit false

namespace ClickHouse.Lib.Probing

open FiniteMap Option
open Function (update update_apply update_of_ne update_self)

/-! ## Paths -/

/-- The cell `c` is on the way from `p` to `t`, both ends included, in a ring of `n` cells. -/
def OnPath (n p t c : ℕ) : Prop :=
  c < n ∧ ((p ≤ t ∧ p ≤ c ∧ c ≤ t) ∨ (t < p ∧ (p ≤ c ∨ c ≤ t)))

/-- The next cell. -/
def next (n c : ℕ) : ℕ := (c + 1) % n

lemma next_cases {n c : ℕ} (hc : c < n) :
    c + 1 < n ∧ next n c = c + 1 ∨ c + 1 = n ∧ next n c = 0 := by
  rcases Nat.lt_or_ge (c + 1) n with h | h
  · exact .inl ⟨h, Nat.mod_eq_of_lt h⟩
  · obtain rfl : c + 1 = n := by omega
    exact .inr ⟨rfl, Nat.mod_self _⟩

/-- How many steps it is from `a` to `b`. -/
def steps (n a b : ℕ) : ℕ := if a ≤ b then b - a else n + b - a

lemma steps_next_lt {n a b : ℕ} (ha : a < n) (hb : b < n) (hne : a ≠ b) :
    steps n (next n a) b < steps n a b := by
  have hcases := next_cases ha
  unfold steps
  split_ifs <;> omega

lemma steps_le {n a b : ℕ} (hb : b < n) : steps n a b ≤ n := by
  unfold steps
  split_ifs <;> omega

/-- **A walk from `p` ends at the first cell where it may stop.** -/
theorem walk_spec {n p : ℕ} {stop : ℕ → Bool} (hp : p < n) (hstop : ∃ z < n, stop z = true) :
    ∃ q, whileLoop (fun c => !stop c) (fun c => some (next n c)) n p = some q ∧ q < n ∧
      stop q = true ∧ ∀ c, OnPath n p q c → c ≠ q → stop c = false := by
  -- a place to stop at lies on the path around the table, so that the walk comes to it
  obtain ⟨z, hz, hstop⟩ := hstop
  obtain ⟨q, hloop, ⟨hq, -, hbefore⟩, hcond⟩ := whileLoop_spec (fun c => !stop c)
    (fun c => some (next n c))
    (fun c => c < n ∧ OnPath n p z c ∧ ∀ c', OnPath n p c c' → c' ≠ c → stop c' = false)
    (fun c => steps n c z) (fun c ⟨hc, hpath, hbefore⟩ hgo => by
      have hne : c ≠ z := by
        rintro rfl
        simp [hstop] at hgo
      have hcases := next_cases hc
      refine ⟨next n c, rfl, ⟨?_, ?_, fun c' hpath' hne' => ?_⟩, ?_⟩
      · omega
      · unfold OnPath at *
        omega
      · by_cases h : c' = c
        · simpa [h] using hgo
        · refine hbefore c' ?_ h
          unfold OnPath at *
          omega
      · exact steps_next_lt hc hz hne) n p ⟨hp, by unfold OnPath; omega, fun c hpath hne => by
          unfold OnPath at hpath
          omega⟩ (steps_le hz)
  exact ⟨q, hloop, hq, by simpa using hcond, hbefore⟩

/-! ## Arrangements -/

variable {κ μ : Type*}

/-- The search for a key ends at `q`. -/
structure Probed (n : ℕ) (home : κ → ℕ) (slot : ℕ → Option (κ × μ)) (k : κ) (q : ℕ) : Prop where
  lt : q < n
  stop : slot q = none ∨ ∃ v, slot q = some (k, v)
  before : ∀ c, OnPath n (home k) q c → c ≠ q → ∃ k' v, slot c = some (k', v) ∧ k' ≠ k

variable {k : κ}

/-- A search on the way of which there is the key or an empty cell ends. -/
lemma probe_spec {n : ℕ} {home : κ → ℕ} {slot : ℕ → Option (κ × μ)} {stop : ℕ → Bool}
    (hhome : home k < n) (hstop : ∀ c, stop c = true ↔ slot c = none ∨ ∃ v, slot c = some (k, v))
    (hex : ∃ z < n, slot z = none ∨ ∃ v, slot z = some (k, v)) :
    ∃ q, whileLoop (fun c => !stop c) (fun c => some (next n c)) n (home k) = some q ∧
      Probed n home slot k q := by
  obtain ⟨z, hz, hzstop⟩ := hex
  obtain ⟨q, hloop, hq, hqstop, hbefore⟩ := walk_spec hhome ⟨z, hz, (hstop z).2 hzstop⟩
  refine ⟨q, hloop, hq, (hstop q).1 hqstop, fun c hpath hne => ?_⟩
  have hgo : ¬(slot c = none ∨ ∃ v, slot c = some (k, v)) := by
    rw [← hstop, hbefore c hpath hne]
    exact Bool.false_ne_true
  rw [not_or, not_exists] at hgo
  obtain ⟨⟨k', v⟩, hslot⟩ := ne_none_iff_exists'.1 hgo.1
  refine ⟨k', v, hslot, ?_⟩
  rintro rfl
  exact hgo.2 v hslot

section Move

variable {slot : ℕ → Option (κ × μ)}

/-- The entry of the cell `i` is moved to the cell `q`. -/
def move (slot : ℕ → Option (κ × μ)) (i q : ℕ) : ℕ → Option (κ × μ) :=
  update (update slot i none) q (slot i)

lemma move_self (slot : ℕ → Option (κ × μ)) (i : ℕ) : move slot i i = slot := by
  rw [move, Function.update_idem, Function.update_eq_self]

lemma move_apply (slot : ℕ → Option (κ × μ)) (i q t : ℕ) :
    move slot i q t = if t = q then slot i else if t = i then none else slot t := by
  rw [move, update_apply, update_apply]

/-- What is in the cells after a move. -/
lemma move_eq_some {i q t : ℕ} {v : μ} (h : move slot i q t = some (k, v)) :
    t = q ∧ slot i = some (k, v) ∨ t ≠ q ∧ t ≠ i ∧ slot t = some (k, v) := by
  grind [move_apply]

/-- A cell that was occupied and is not the one moved from stays so. -/
lemma move_ne_none {i q c : ℕ} {v : μ} (hi : slot i = some (k, v)) (hc : slot c ≠ none)
    (hci : c ≠ i) : move slot i q c ≠ none := by
  grind [move_apply]

section

variable {n i q : ℕ} {home : κ → ℕ} {k : κ} {v : μ} (hslot : slot i = some (k, v))
  (hq : Probed n home slot k q)
include hslot hq

/-- The search does not pass the entry. -/
lemma Probed.not_passed (hqi : q ≠ i) : ¬OnPath n (home k) q i := fun hpath => by
  obtain ⟨k', w, hslot', hne⟩ := hq.before i hpath (Ne.symm hqi)
  grind

/-- The path to where an entry is moved is occupied. -/
lemma Probed.move_occupied {c : ℕ} (hpath : OnPath n (home k) q c) : move slot i q c ≠ none := by
  by_cases hcq : c = q
  · simp [move_apply, hcq, hslot]
  · obtain ⟨k', w, hslot', -⟩ := hq.before c hpath hcq
    have hci : c ≠ i := by
      rintro rfl
      exact hq.not_passed hslot (Ne.symm hcq) hpath
    simp [move_apply, hcq, hci, hslot']

end

end Move

variable [DecidableEq κ]

/-- The cells hold the entries of the map, each in one cell. -/
structure Stores (n : ℕ) (slot : ℕ → Option (κ × μ)) (m : Finmap fun _ : κ => μ) : Prop where
  lookup_iff : ∀ k v, m.lookup k = some v ↔ ∃ t < n, slot t = some (k, v)
  unique : ∀ s t k v w, s < n → t < n → slot s = some (k, v) → slot t = some (k, w) → s = t

/-- The cells hold the entries of the map, and each is reached from its home. -/
structure Placed (n : ℕ) (home : κ → ℕ) (slot : ℕ → Option (κ × μ))
    (m : Finmap fun _ : κ => μ) : Prop extends Stores n slot m where
  reach : ∀ t k v, t < n → slot t = some (k, v) → ∀ c, OnPath n (home k) t c → slot c ≠ none

section

variable {n : ℕ} {home : κ → ℕ} {slot : ℕ → Option (κ × μ)} {m : Finmap fun _ : κ => μ}

lemma onPath_end {p t : ℕ} (ht : t < n) : OnPath n p t t := by
  unfold OnPath
  omega

variable {k : κ} {q : ℕ} {v : μ}

/-- The search for a key that is there ends at it. -/
lemma Placed.probed_of_lookup (h : Placed n home slot m) (hk : m.lookup k = some v)
    (hq : Probed n home slot k q) : slot q = some (k, v) := by
  obtain ⟨t, ht, hslot⟩ := (h.lookup_iff k v).1 hk
  by_cases hpath : OnPath n (home k) t q
  · rcases hq.stop with hnone | ⟨w, hsome⟩
    · exact absurd hnone (h.reach t k v ht hslot q hpath)
    · rwa [h.unique q t k w v hq.lt ht hsome hslot]
  -- the search would have passed the cell of the key
  have hne : q ≠ t := by
    rintro rfl
    exact hpath (onPath_end ht)
  refine absurd ?_ (hq.not_passed hslot hne)
  have := hq.lt
  unfold OnPath at *
  omega

/-- The search for a key that is not there ends at an empty cell. -/
lemma Stores.probed_of_absent (h : Stores n slot m) (hk : m.lookup k = none)
    (hq : Probed n home slot k q) : slot q = none := by
  rcases hq.stop with hnone | ⟨v, hsome⟩
  · exact hnone
  · rw [(h.lookup_iff k v).2 ⟨q, hq.lt, hsome⟩] at hk
    cases hk

/-- With fewer entries than cells from `a` on, one of these is empty. -/
lemma Stores.exists_empty (h : Stores n slot m) {a : ℕ} (hcard : a + m.keys.card < n) :
    ∃ e, a ≤ e ∧ e < n ∧ slot e = none := by
  -- otherwise the cells from `a` on have as many different keys
  by_contra hnone
  push Not at hnone
  have hfull : ∀ t ∈ Finset.Ico a n, ∃ k v, slot t = some (k, v) := fun t ht => by
    obtain ⟨hat, htn⟩ := Finset.mem_Ico.1 ht
    obtain ⟨⟨k, v⟩, hslot⟩ := ne_none_iff_exists'.1 (hnone t hat htn)
    exact ⟨k, v, hslot⟩
  obtain ⟨k₀, v₀, -⟩ := hfull a (Finset.mem_Ico.2 ⟨le_rfl, by omega⟩)
  have : Nonempty κ := ⟨k₀⟩
  have : Nonempty μ := ⟨v₀⟩
  choose! key value hslot using hfull
  have hle : (Finset.Ico a n).card ≤ m.keys.card := by
    refine Finset.card_le_card_of_injOn key (fun t ht => ?_) (fun s hs t ht hst => ?_)
    · have htn := (Finset.mem_Ico.1 ht).2
      have hlookup := (h.lookup_iff (key t) (value t)).2 ⟨t, htn, hslot t ht⟩
      exact Finmap.mem_keys.2 (Finmap.mem_of_lookup_eq_some hlookup)
    · have hs' := hslot s hs
      rw [hst] at hs'
      exact h.unique s t _ _ _ (Finset.mem_Ico.1 hs).2 (Finset.mem_Ico.1 ht).2 hs' (hslot t ht)
  rw [Nat.card_Ico] at hle
  omega

/-- The contents after an entry is written into a cell that has no other, and that is the only
one for its key. -/
lemma Stores.update_some (h : Stores n slot m) (hq : q < n)
    (hcell : ∀ k' w, slot q = some (k', w) → k' = k)
    (hkey : ∀ t w, t < n → slot t = some (k, w) → t = q) (v : μ) :
    Stores n (update slot q (some (k, v))) (m.insert k v) := by
  constructor
  · intro k' w
    by_cases hkk : k' = k
    · subst hkk
      rw [Finmap.lookup_insert]
      constructor
      · rintro ⟨⟩
        exact ⟨q, hq, update_self ..⟩
      · rintro ⟨t, ht, hslott⟩
        grind [update_apply]
    · rw [Finmap.lookup_insert_of_ne _ hkk, h.lookup_iff]
      refine exists_congr fun t => and_congr_right fun ht => ?_
      grind [update_apply]
  · intro s t k' w w' hs ht hslots hslott
    have := h.unique s t k' w w' hs ht
    grind [update_apply]

/-- The contents after a cell is emptied. -/
lemma Stores.update_none (h : Stores n slot m) (hq : q < n) (hslot : slot q = some (k, v)) :
    Stores n (update slot q none) (m.erase k) := by
  constructor
  · intro k' w
    by_cases hkk : k' = k
    · subst hkk
      have := fun t ht hslott => h.unique t q k' w v ht hq hslott hslot
      grind [update_apply]
    · rw [Finmap.lookup_erase_ne hkk, h.lookup_iff]
      refine exists_congr fun t => and_congr_right fun ht => ?_
      grind [update_apply]
  · intro s t k' w w' hs ht hslots hslott
    have := h.unique s t k' w w' hs ht
    grind [update_apply]

/-- Moving an entry to an empty cell changes nothing in the contents. -/
lemma Stores.move (h : Stores n slot m) {i q : ℕ} (hi : i < n) (hq : q < n)
    (hslot : slot i = some (k, v)) (hempty : slot q = none) : Stores n (move slot i q) m := by
  have hunique := fun t w ht hslott => h.unique t i k w v ht hi hslott hslot
  have hstores := (h.update_none hi hslot).update_some (k := k) hq (by grind [update_apply])
    (by grind [update_apply]) v
  rwa [insert_erase, insert_of_lookup ((h.lookup_iff k v).2 ⟨i, hi, hslot⟩), ← hslot] at hstores

/-! ## Insertion -/

/-- **A new key goes where the search for it ends.** -/
theorem Placed.insert (h : Placed n home slot m) (hk : m.lookup k = none)
    (hq : Probed n home slot k q) (v : μ) :
    Placed n home (update slot q (some (k, v))) (m.insert k v) := by
  have hempty := h.toStores.probed_of_absent hk hq
  have habsent : ∀ t w, t < n → slot t = some (k, w) → t = q := fun t w ht hslot => by
    grind [(h.lookup_iff k w).2 ⟨t, ht, hslot⟩]
  refine ⟨h.toStores.update_some hq.lt (by simp [hempty]) habsent v,
    fun t k' w ht hslot c hpath => ?_⟩
  -- the new cell itself is filled
  by_cases hcq : c = q
  · rw [hcq, update_self]
    exact some_ne_none _
  rw [update_of_ne hcq]
  -- the path of the new key is what the search has passed
  by_cases htq : t = q
  · rw [htq, update_self] at hslot
    cases hslot
    obtain ⟨k', w, hslot', -⟩ := hq.before c (htq ▸ hpath) hcq
    rw [hslot']
    exact some_ne_none _
  · rw [update_of_ne htq] at hslot
    exact h.reach t k' w ht hslot c hpath

/-- The value of an entry is replaced. -/
lemma Placed.assign (h : Placed n home slot m) (hq : q < n) (hslot : slot q = some (k, v))
    (w : μ) : Placed n home (update slot q (some (k, w))) (m.insert k w) := by
  have hstores := h.toStores.update_some hq (by simp [hslot])
    (fun t w' ht hslott => h.unique t q k w' v ht hq hslott hslot) w
  refine ⟨hstores, fun t k' w' ht hslot' c hpath => ?_⟩
  have hreach : slot c ≠ none := by
    by_cases htq : t = q
    · rw [htq, update_self] at hslot'
      cases hslot'
      exact h.reach q k v hq hslot c (htq ▸ hpath)
    · rw [update_of_ne htq] at hslot'
      exact h.reach t k' w' ht hslot' c hpath
  grind [update_apply]

/-! ## Removal -/

/-- The cell `hole` has been emptied and the cells from `d` up to the empty cell `e` are to be
visited: only their entries can have a path through the hole. -/
structure Hole (n : ℕ) (home : κ → ℕ) (slot : ℕ → Option (κ × μ)) (m : Finmap fun _ : κ => μ)
    (e hole d : ℕ) : Prop extends Stores n slot m where
  hole_lt : hole < n
  hole_empty : slot hole = none
  end_lt : e < n
  end_empty : slot e = none
  end_ne : e ≠ hole
  visit : OnPath n hole e d ∧ d ≠ hole
  run : ∀ c, OnPath n d e c → c ≠ e → slot c ≠ none
  reach : ∀ t k v, t < n → slot t = some (k, v) → ∀ c, OnPath n (home k) t c →
    slot c ≠ none ∨ c = hole ∧ OnPath n d e t

/-- There is an empty cell behind a cell that is emptied, and every path through the latter
ends in front of the former. -/
lemma Placed.hole (h : Placed n home slot m) (hq : q < n) (hslot : slot q = some (k, v))
    (hempty : ∃ z < n, slot z = none) :
    ∃ e, slot e = none ∧ Hole n home (update slot q none) (m.erase k) e q (next n q) := by
  have hcases := next_cases hq
  obtain ⟨e, -, he, hstop, hbefore⟩ := @walk_spec n (next n q) (fun c => (slot c).isNone) (by omega)
    (by obtain ⟨z, hz, hnone⟩ := hempty; exact ⟨z, hz, by rw [hnone]; rfl⟩)
  have hnone : slot e = none := isNone_iff_eq_none.1 hstop
  have hne : e ≠ q := by grind
  refine ⟨e, hnone, h.toStores.update_none hq hslot, hq, update_self .., he,
    (update_of_ne hne ..).trans hnone, hne, ?_, fun c hpath hce => ?_,
    fun t k' w ht hslot' c hpath => ?_⟩
  · unfold OnPath
    omega
  · have hcq : c ≠ q := by
      rintro rfl
      unfold OnPath at hpath
      omega
    rw [update_of_ne hcq]
    exact isNone_eq_false_iff.1 (hbefore c hpath hce) |> isSome_iff_ne_none.1
  · have htq : t ≠ q := by grind
    have hreach := h.reach t k' w ht (by grind [update_apply])
    by_cases hcq : c = q
    · refine .inr ⟨hcq, ?_⟩
      -- the path does not go on to the empty cell
      have havoid : ¬OnPath n (home k') t e := fun hpath' => hreach e hpath' hnone
      unfold OnPath at *
      omega
    · rw [update_of_ne hcq]
      exact .inl (hreach c hpath)

variable {e hole d : ℕ}

section

variable (h : Hole n home slot m e hole d)
include h

lemma Hole.visit_lt : d < n := h.visit.1.1

/-- An entry whose path does not go through the hole stays. -/
lemma Hole.keep (hslot : slot d = some (k, v)) (havoid : ¬OnPath n (home k) d hole) :
    Hole n home slot m e hole (next n d) := by
  have hd := h.visit_lt
  have hcases := next_cases hd
  have hde : d ≠ e := by grind [h.end_empty]
  have hvisit := h.visit
  have he := h.end_lt
  refine { h with visit := ?_, run := fun c hpath => h.run c ?_,
                  reach := fun t k' w ht hslot' c hpath => ?_ }
  · unfold OnPath at *
    omega
  · unfold OnPath at *
    omega
  · -- the entry that stays is not the one whose path goes through the hole
    rcases h.reach t k' w ht hslot' c hpath with hsome | ⟨rfl, hbehind⟩
    · exact .inl hsome
    · have htd : t ≠ d := by grind
      refine .inr ⟨rfl, ?_⟩
      unfold OnPath at *
      omega

/-- An entry whose path goes through the hole is moved into it, and its cell is the new hole. -/
lemma Hole.fill (hslot : slot d = some (k, v)) (hthrough : OnPath n (home k) d hole) :
    Hole n home (move slot d hole) m e d (next n d) := by
  have hd := h.visit_lt
  have hcases := next_cases hd
  have hde : e ≠ d := by grind [h.end_empty]
  have hvisit := h.visit
  have hhole := h.hole_lt
  have he := h.end_lt
  refine
    { toStores := h.toStores.move hd hhole hslot h.hole_empty
      hole_lt := hd
      hole_empty := by grind [move_apply]
      end_lt := he
      end_empty := by grind [move_apply, h.end_empty, h.end_ne]
      end_ne := hde
      visit := ?_
      run := fun c hpath hce => ?_
      reach := fun t k' w ht hslot' c hpath => ?_ }
  · unfold OnPath at *
    omega
  · have hne : c ≠ hole ∧ c ≠ d ∧ OnPath n d e c := by
      unfold OnPath at *
      omega
    rw [move_apply, if_neg hne.1, if_neg hne.2.1]
    exact h.run c hne.2.2 hce
  · -- before the move, only the hole was missing on a path
    have hreach : c = hole ∨ slot c ≠ none := by
      rcases move_eq_some hslot' with ⟨rfl, hsame⟩ | ⟨-, -, hslott⟩
      · -- the path of the entry that was moved is a part of the old one
        cases hslot.symm.trans hsame
        have hpath' : OnPath n (home k) d c := by
          unfold OnPath at *
          omega
        exact (h.reach d k v hd hslot c hpath').symm.imp_left And.left
      · exact (h.reach t k' w ht hslott c hpath).symm.imp_left And.left
    by_cases hcd : c = d
    · -- the path goes on from the new hole, and not as far as the empty cell
      refine .inr ⟨hcd, ?_⟩
      rcases move_eq_some hslot' with ⟨rfl, hsame⟩ | ⟨hth, htd, hslott⟩
      · exfalso
        cases hslot.symm.trans hsame
        unfold OnPath at *
        omega
      · have havoid : ¬OnPath n (home k') t e := fun hpath' => by
          rcases h.reach t k' w ht hslott e hpath' with hsome | ⟨heh, -⟩
          · exact hsome h.end_empty
          · exact h.end_ne heh
        unfold OnPath at *
        omega
    · exact .inl (by grind [move_apply])

/-- **When the empty cell is met every path is whole again.** -/
theorem Hole.placed (hd : slot d = none) : Placed n home slot m := by
  have hde : d = e := by
    by_contra hne
    exact h.run d (by have := h.visit.1; unfold OnPath at *; omega) hne hd
  refine ⟨h.toStores, fun t k v ht hslot c hpath => ?_⟩
  rcases h.reach t k v ht hslot c hpath with hsome | ⟨-, hbehind⟩
  · exact hsome
  · have hte : t = e := by
      unfold OnPath at hbehind
      omega
    rw [hte, h.end_empty] at hslot
    cases hslot

end

end

/-! ## Growth -/

section Growth

variable {n N : ℕ} {home : κ → ℕ} {old slot : ℕ → Option (κ × μ)} {m : Finmap fun _ : κ => μ}

/-- Every cell on the path of the entry is occupied, and none of them is from `a` up to `b`. -/
def Settled (N : ℕ) (home : κ → ℕ) (slot : ℕ → Option (κ × μ)) (a b : ℕ) (k : κ) (t : ℕ) : Prop :=
  ∀ c, OnPath N (home k) t c → slot c ≠ none ∧ ¬(a ≤ c ∧ c < b)

/-- The first pass, over the cells below `n`, before it visits the cell `i`. -/
structure Growing (n N : ℕ) (home : κ → ℕ) (old slot : ℕ → Option (κ × μ))
    (m : Finmap fun _ : κ => μ) (i : ℕ) : Prop extends Stores N slot m where
  rest : ∀ c, i ≤ c → c < n → slot c = old c
  placed : ∀ t k v, t < N → slot t = some (k, v) → (i ≤ t ∧ t < n) ∨
    (n ≤ t ∧ ∀ c, n ≤ c → c ≤ t → slot c ≠ none) ∨ Settled N home slot i n k t
  home_le : ∀ t k v, n ≤ t → t < N → slot t = some (k, v) → home k ≤ t

/-- The buffer is extended by empty cells. -/
lemma Stores.growing (h : Stores n old m) (hnN : n ≤ N) (hempty : ∀ c, n ≤ c → old c = none) :
    Growing n N home old old m 0 := by
  have hlt : ∀ t k v, old t = some (k, v) → t < n := by
    grind
  refine ⟨⟨fun k v => ?_, fun s t k v w _ _ hs ht => ?_⟩, fun _ _ _ => rfl,
    fun t k v _ hslot => .inl ⟨Nat.zero_le t, hlt t k v hslot⟩,
    fun t k v hge _ hslot => absurd (hlt t k v hslot) (by omega)⟩
  · rw [h.lookup_iff]
    refine exists_congr fun t => ⟨fun ⟨ht, hslot⟩ => ⟨by omega, hslot⟩, fun ⟨_, hslot⟩ => ?_⟩
    exact ⟨hlt t k v hslot, hslot⟩
  · exact h.unique s t k v w (hlt s k v hs) (hlt t k w ht) hs ht

lemma Growing.skip {i : ℕ} (h : Growing n N home old slot m i) (hnone : slot i = none) :
    Growing n N home old slot m (i + 1) := by
  refine { h with rest := fun c hc => h.rest c (by omega), placed := fun t k v ht hslot => ?_ }
  have hti : t ≠ i := by grind
  rcases h.placed t k v ht hslot with hrest | htail | hsettled
  · exact .inl (by omega)
  · exact .inr (.inl htail)
  · refine .inr (.inr fun c hpath => ⟨(hsettled c hpath).1, ?_⟩)
    have := (hsettled c hpath).2
    omega

section

variable {i q : ℕ} {k : κ} {v : μ} (h : Stores N slot m) (hi : i < N) (hslot : slot i = some (k, v))
  (hq : Probed N home slot k q)
include h hi hslot hq

/-- The search for the entry of a cell ends at an empty cell or at the entry itself. -/
lemma Stores.probed_cell : slot q = none ∨ q = i := by
  rcases hq.stop with hnone | ⟨w, hsome⟩
  · exact .inl hnone
  · exact .inr (h.unique q i k w v hq.lt hi hsome hslot)

lemma Stores.move_probed : Stores N (Probing.move slot i q) m := by
  rcases h.probed_cell hi hslot hq with hempty | rfl
  · exact h.move hi hq.lt hslot hempty
  · rwa [move_self]

end

/-- **One step of the first pass.** The path of the entry that is visited is known in the old
buffer, a ring of `n` cells. -/
theorem Growing.visit {i q : ℕ} (h : Growing n N home old slot m i) (hi : i < n) (hnN : n ≤ N)
    (hcard : n + m.keys.card < N) {v : μ} (hslot : slot i = some (k, v))
    (hold : ∀ c, OnPath n (home k % n) i c → old c ≠ none)
    (hq : Probed N home slot k q) : Growing n N home old (move slot i q) m (i + 1) := by
  have hstores := h.toStores.move_probed (by omega) hslot hq
  obtain ⟨e, hne, heN, he⟩ := hstores.exists_empty hcard
  have hpass := hq.not_passed hslot
  -- the new cell is not among those to be visited
  have hvisited : ¬(i + 1 ≤ q ∧ q < n) := by
    rintro ⟨hle, hlt⟩
    have hempty := (h.toStores.probed_cell (by omega) hslot hq).resolve_right (by omega)
    have hpass := hpass (by omega)
    have hlow : home k % n = home k := Nat.mod_eq_of_lt (by unfold OnPath at hpass; omega)
    refine hold q ?_ ((h.rest q (by omega) hlt).symm.trans hempty)
    unfold OnPath at *
    omega
  refine ⟨hstores, fun c hic hcn => ?_, fun t k' w ht hslot' => ?_, fun t k' w hnt htN hslot' => ?_⟩
  · rw [move_apply, if_neg (by omega), if_neg (by omega)]
    exact h.rest c (by omega) hcn
  · rcases move_eq_some hslot' with ⟨rfl, hsame⟩ | ⟨htq, hti, hslott⟩
    · cases hslot.symm.trans hsame
      by_cases htail : n ≤ t ∧ ∀ c, n ≤ c → c ≤ t → move slot i t c ≠ none
      · exact .inr (.inl htail)
      refine .inr (.inr fun c hpath => ⟨hq.move_occupied hslot hpath, fun hc => ?_⟩)
      -- from a cell still to be visited the path goes over everything from `n` on
      by_cases hnt : n ≤ t
      · refine htail ⟨hnt, fun c' hnc' hc't => hq.move_occupied hslot ?_⟩
        unfold OnPath at *
        omega
      · refine hq.move_occupied hslot (c := e) ?_ he
        unfold OnPath at *
        omega
    · rcases h.placed t k' w ht hslott with hrest | ⟨hnt, htail⟩ | hsettled
      · exact .inl (by omega)
      · refine .inr (.inl ⟨hnt, fun c hnc hct => ?_⟩)
        exact move_ne_none hslot (htail c hnc hct) (by omega)
      · refine .inr (.inr fun c hpath => ?_)
        obtain ⟨hocc, havoid⟩ := hsettled c hpath
        exact ⟨move_ne_none hslot hocc (by omega), by omega⟩
  · rcases move_eq_some hslot' with ⟨rfl, hsame⟩ | ⟨htq, hti, hslott⟩
    · cases hslot.symm.trans hsame
      have hpass := hpass (by omega)
      by_contra hgt
      unfold OnPath at hpass
      omega
    · exact h.home_le t k' w hnt htN hslott

/-- The second pass, over the cells from `n` up to the empty cell `e`, before it visits the
cell `j`. -/
structure Tail (N : ℕ) (home : κ → ℕ) (slot : ℕ → Option (κ × μ)) (m : Finmap fun _ : κ => μ)
    (e j : ℕ) : Prop extends Stores N slot m where
  le_end : j ≤ e
  end_lt : e < N
  end_empty : slot e = none
  run : ∀ c, j ≤ c → c < e → slot c ≠ none
  placed : ∀ t k v, t < N → slot t = some (k, v) → (j ≤ t ∧ t < e) ∨ Settled N home slot j e k t
  home_le : ∀ t k v, j ≤ t → t < e → slot t = some (k, v) → home k ≤ t

/-- The first pass leaves out of place only what is in the run behind the old buffer. -/
lemma Growing.tail (h : Growing n N home old slot m n) (hcard : n + m.keys.card < N) :
    ∃ e, Tail N home slot m e n := by
  have hempty := h.toStores.exists_empty hcard
  obtain ⟨hne, heN, he⟩ := Nat.find_spec hempty
  have hrun : ∀ c, n ≤ c → c < Nat.find hempty → slot c ≠ none := fun c hnc hlt hnone =>
    Nat.find_min hempty hlt ⟨hnc, by omega, hnone⟩
  refine ⟨Nat.find hempty, h.toStores, hne, heN, he, hrun, fun t k v ht hslot => ?_,
    fun t k v hnt hlt hslot => h.home_le t k v hnt (by omega) hslot⟩
  rcases h.placed t k v ht hslot with hrest | ⟨hnt, htail⟩ | hsettled
  · omega
  · refine .inl ⟨hnt, ?_⟩
    by_contra hge
    exact htail _ hne (by omega) he
  · by_cases hrun : n ≤ t ∧ t < Nat.find hempty
    · exact .inl hrun
    -- a path that leaves the run goes over the empty cell
    refine .inr fun c hpath =>
      ⟨(hsettled c hpath).1, fun hc => (hsettled (Nat.find hempty) ?_).1 he⟩
    unfold OnPath at *
    omega

/-- **One step of the second pass.** -/
theorem Tail.visit {e j q : ℕ} (h : Tail N home slot m e j) (hj : j < e) {v : μ}
    (hslot : slot j = some (k, v)) (hq : Probed N home slot k q) :
    Tail N home (move slot j q) m e (j + 1) := by
  have heN := h.end_lt
  have hle := h.home_le j k v le_rfl hj hslot
  -- the search for the key ends at its own cell at the latest
  have hqj : q ≤ j := by
    by_contra hlt
    have hpass := hq.not_passed hslot (by omega)
    unfold OnPath at hpass
    omega
  refine ⟨h.toStores.move_probed (by omega) hslot hq, hj, heN, ?_, fun c hjc hce => ?_,
    fun t k' w ht hslot' => ?_, fun t k' w hjt hte hslot' => ?_⟩
  · rw [move_apply, if_neg (by omega), if_neg (by omega)]
    exact h.end_empty
  · exact move_ne_none hslot (h.run c (by omega) hce) (by omega)
  · -- the entry that was moved is settled now, and the others as far as they were
    rcases move_eq_some hslot' with ⟨rfl, hsame⟩ | ⟨htq, hti, hslott⟩
    · cases hslot.symm.trans hsame
      refine .inr fun c hpath => ⟨hq.move_occupied hslot hpath, fun hc => ?_⟩
      by_cases htj : t = j
      · unfold OnPath at hpath
        omega
      · have hpass := hq.not_passed hslot htj
        unfold OnPath at hpass hpath
        omega
    · rcases h.placed t k' w ht hslott with hrest | hsettled
      · exact .inl (by omega)
      · refine .inr fun c hpath => ?_
        obtain ⟨hocc, havoid⟩ := hsettled c hpath
        exact ⟨move_ne_none hslot hocc (by omega), by omega⟩
  · rcases move_eq_some hslot' with ⟨rfl, -⟩ | ⟨-, -, hslott⟩
    · omega
    · exact h.home_le t k' w (by omega) hte hslott

/-- **When the empty cell is met everything is in its place.** -/
theorem Tail.placed_of_empty {e j : ℕ} (h : Tail N home slot m e j) (hj : slot j = none) :
    Placed N home slot m := by
  have hje : j = e := by
    by_contra hne
    exact h.run j le_rfl (by have := h.le_end; omega) hj
  refine ⟨h.toStores, fun t k v ht hslot c hpath => ?_⟩
  rcases h.placed t k v ht hslot with hrest | hsettled
  · omega
  · exact (hsettled c hpath).1

end Growth

end ClickHouse.Lib.Probing
