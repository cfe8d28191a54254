/-
Finite maps: `Finmap` of Mathlib, with the value at a key after an insertion or a removal as a
case distinction, and what follows from it for the maps and for the number of their keys.
-/
import Mathlib.Data.Finmap

set_option autoImplicit false

namespace ClickHouse.Lib.FiniteMap

open Finset

variable {κ μ : Type*} [DecidableEq κ] {m : Finmap fun _ : κ => μ} {k : κ}

@[grind =] lemma lookup_insert_eq (m : Finmap fun _ : κ => μ) (k x : κ) (v : μ) :
    (m.insert k v).lookup x = if x = k then some v else m.lookup x := by
  split_ifs with h
  · rw [h, Finmap.lookup_insert]
  · exact Finmap.lookup_insert_of_ne _ h

@[grind =] lemma lookup_erase_eq (m : Finmap fun _ : κ => μ) (k x : κ) :
    (m.erase k).lookup x = if x = k then none else m.lookup x := by
  split_ifs with h
  · rw [h, Finmap.lookup_erase]
  · exact Finmap.lookup_erase_ne h

lemma erase_insert_self (m : Finmap fun _ : κ => μ) (k : κ) (v : μ) :
    (m.insert k v).erase k = m.erase k := Finmap.ext_lookup fun x => by grind

lemma erase_insert {k' : κ} (h : k ≠ k') (v : μ) :
    (m.insert k v).erase k' = (m.erase k').insert k v := Finmap.ext_lookup fun x => by grind

lemma insert_erase (m : Finmap fun _ : κ => μ) (k : κ) (v : μ) :
    (m.erase k).insert k v = m.insert k v := Finmap.ext_lookup fun x => by grind

lemma insert_of_lookup {v : μ} (h : m.lookup k = some v) : m.insert k v = m :=
  Finmap.ext_lookup fun x => by grind

lemma erase_of_absent (h : m.lookup k = none) : m.erase k = m :=
  Finmap.ext_lookup fun x => by grind

lemma card_keys_insert (h : k ∉ m) (v : μ) : (m.insert k v).keys.card = m.keys.card + 1 := by
  have hkeys : (m.insert k v).keys = insert k m.keys := by
    ext k'
    rw [Finmap.mem_keys, Finmap.mem_insert, mem_insert, Finmap.mem_keys]
  rw [hkeys, card_insert_of_notMem (by rwa [Finmap.mem_keys])]

lemma keys_insert_of_mem (h : k ∈ m) (v : μ) : (m.insert k v).keys = m.keys := by
  ext k'
  rw [Finmap.mem_keys, Finmap.mem_insert, Finmap.mem_keys]
  exact ⟨fun hk' => hk'.elim (fun heq => heq ▸ h) id, .inr⟩

lemma card_keys_erase (h : k ∈ m) : (m.erase k).keys.card = m.keys.card - 1 := by
  rw [Finmap.keys_erase, card_erase_of_mem (Finmap.mem_keys.2 h)]

end ClickHouse.Lib.FiniteMap
