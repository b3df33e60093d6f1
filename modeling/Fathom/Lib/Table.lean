import Mathlib.Data.List.AList
import Mathlib.Data.List.Sort

/-!
# Tables numbered by integers

A finite map from integers to entries, as a program keeps one to hand out numbers: the
list of its entries, no number twice.
-/

namespace Fathom.Lib

/-- Entries by number. -/
abbrev Table (α : Type) := AList fun _ : Int => α

namespace Table

variable {α : Type}

def empty : Table α := ∅

section

variable (t : Table α) (k : Int)

def get : Option α := t.lookup k

def put (v : α) : Table α := t.insert k v

def drop : Table α := t.erase k

def update (f : α → α) : Table α :=
  match t.get k with
  | none => t
  | some v => t.put k (f v)

end

@[simp] theorem get_empty (k : Int) : (empty : Table α).get k = none := AList.lookup_empty k

theorem mem_iff {t : Table α} {k : Int} : k ∈ t.keys ↔ ∃ v, t.get k = some v := by
  rw [← AList.mem_keys, ← AList.lookup_isSome, Option.isSome_iff_exists]
  rfl

theorem get_eq_none {t : Table α} {k : Int} : t.get k = none ↔ k ∉ t.keys := AList.lookup_eq_none

theorem get_put (t : Table α) (k : Int) (v : α) (x : Int) :
    (t.put k v).get x = if x = k then some v else t.get x := by
  by_cases h : x = k
  · subst h
    rw [if_pos rfl]
    exact AList.lookup_insert t
  · rw [if_neg h]
    exact AList.lookup_insert_ne h

theorem get_drop (t : Table α) (k x : Int) :
    (t.drop k).get x = if x = k then none else t.get x := by
  by_cases h : x = k
  · subst h
    rw [if_pos rfl]
    exact AList.lookup_erase x t
  · rw [if_neg h]
    exact AList.lookup_erase_ne h

theorem get_update (t : Table α) (k : Int) (f : α → α) (x : Int) :
    (t.update k f).get x = if x = k then (t.get x).map f else t.get x := by
  rw [update]
  split
  next hnone =>
    split
    next heq => rw [heq, hnone, Option.map_none]
    next => rfl
  next v hv =>
    rw [get_put]
    split
    next heq => rw [heq, hv, Option.map_some]
    next => rfl

theorem update_put (t : Table α) (k : Int) (v : α) (f : α → α) :
    (t.put k v).update k f = t.put k (f v) := by
  simp only [update, get_put]
  exact AList.insert_insert t

/-! ## One table over another -/

section Overlay

variable {β : Type} (f : Int → α → Option β)

def overlay (t : Table α) (under : Table β) : Table β :=
  t.entries.foldl (fun acc entry =>
    match f entry.1 entry.2 with
    | none => acc
    | some v => acc.put entry.1 v) under

theorem get_foldl_overlay (entries : List ((_ : Int) × α)) (hnodup : entries.NodupKeys)
    (under : Table β) (k : Int) : (entries.foldl (fun acc entry =>
      match f entry.1 entry.2 with
      | none => acc
      | some v => acc.put entry.1 v) under).get k =
        ((entries.dlookup k).bind (f k)).or (under.get k) := by
  induction entries generalizing under with
  | nil => rfl
  | cons entry _ ih =>
    obtain ⟨k', v⟩ := entry
    obtain ⟨hnot, hrest⟩ := List.nodupKeys_cons.mp hnodup
    rw [List.foldl_cons, ih hrest]
    by_cases hk : k' = k
    · subst hk
      rw [List.dlookup_eq_none.mpr hnot]
      cases hv : f k' v with
      | none => simp [hv]
      | some w => simp [hv, get_put]
    · rw [List.dlookup_cons_ne _ _ (Ne.symm hk)]
      congr 1
      cases hv : f k' v with
      | none => rfl
      | some w => simp [get_put, Ne.symm hk]

theorem get_overlay (t : Table α) (under : Table β) (k : Int) :
    (t.overlay f under).get k = ((t.get k).bind (f k)).or (under.get k) :=
  get_foldl_overlay f t.entries t.nodupKeys under k

end Overlay

def firstWhere (t : Table α) (p : α → Bool) : Option Int :=
  (t.keys.insertionSort (· ≤ ·)).find? fun k => (t.get k).any p

theorem firstWhere_spec {t : Table α} {p : α → Bool} {k : Int} (h : t.firstWhere p = some k) :
    ∃ v, t.get k = some v ∧ p v = true := by
  have hany := List.find?_some h
  rw [Option.any_eq_true] at hany
  exact hany

def lowestFree (t : Table α) : Nat :=
  ((List.range (t.keys.length + 1)).find? fun n : Nat => !t.keys.contains (n : Int)).getD 0

theorem exists_free (t : Table α) : ∃ n ∈ List.range (t.keys.length + 1), (n : Int) ∉ t.keys := by
  by_contra hall
  have hmem : ∀ n ∈ List.range (t.keys.length + 1), (n : Int) ∈ t.keys := by
    intro n hn
    by_contra hfree
    exact hall ⟨n, hn, hfree⟩
  -- as many numbers as that are more than there are entries
  have hnodup : ((List.range (t.keys.length + 1)).map fun n : Nat => (n : Int)).Nodup :=
    List.nodup_range.map fun _ _ h => Int.ofNat.inj h
  have hsub : ((List.range (t.keys.length + 1)).map fun n : Nat => (n : Int)) ⊆ t.keys := by
    intro k hk
    obtain ⟨n, hn, rfl⟩ := List.mem_map.mp hk
    exact hmem n hn
  have hle := (List.subperm_of_subset hnodup hsub).length_le
  rw [List.length_map, List.length_range] at hle
  exact absurd hle (by omega)

theorem lowestFree_spec (t : Table α) :
    t.get t.lowestFree = none ∧ ∀ n : Nat, n < t.lowestFree → ∃ v, t.get n = some v := by
  have hfound : ∃ n, (List.range (t.keys.length + 1)).find?
      (fun n : Nat => !t.keys.contains (n)) = some n := by
    rw [← Option.isSome_iff_exists, List.find?_isSome]
    obtain ⟨n, hn, hfree⟩ := t.exists_free
    exact ⟨n, hn, by simpa using hfree⟩
  obtain ⟨n, hn⟩ := hfound
  have hlowest : t.lowestFree = n := by rw [lowestFree, hn, Option.getD_some]
  rw [List.find?_range_eq_some] at hn
  rw [hlowest]
  refine ⟨get_eq_none.mpr (by simpa using hn.1), fun m hm => ?_⟩
  exact mem_iff.mp (by simpa using hn.2.2 m hm)

end Table

end Fathom.Lib
