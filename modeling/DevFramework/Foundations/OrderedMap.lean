import Mathlib.Data.List.AList
import Mathlib.Data.List.Dedup
import Mathlib.Data.List.MinMax

/-! # Ordered maps

A `std::map` is an association list without duplicate keys, up to the order of its entries;
`firstKey?` is the key at `begin()`. A map of lists sorts its items into buckets, and `items` are
the items of all buckets.
-/
namespace DevFramework.OrderedMap
set_option autoImplicit false
set_option maxHeartbeats 250000

abbrev Map (κ ν : Type*) := AList fun _ : κ => ν

variable {κ ν : Type*}

section First
variable [LinearOrder κ]

/-- The key at `begin()`. -/
def firstKey? (m : Map κ ν) : Option κ := m.keys.argmin id

theorem firstKey?_le {m : Map κ ν} {k a : κ} (h : firstKey? m = some k) (ha : a ∈ m) : k ≤ a :=
  List.le_of_mem_argmin (f := id) (AList.mem_keys.mp ha) h

theorem firstKey?_mem {m : Map κ ν} {k : κ} (h : firstKey? m = some k) : k ∈ m :=
  AList.mem_keys.mpr (List.argmin_mem h)

end First

/-! ## Buckets -/

/-- The items of all buckets. -/
def items (m : Map κ (List ν)) : List ν := m.entries.flatMap fun e => e.2

@[simp] theorem items_empty : items (∅ : Map κ (List ν)) = [] := rfl

section Buckets
variable [DecidableEq κ]

theorem items_insert (k : κ) (l : List ν) (m : Map κ (List ν)) :
    items (m.insert k l) = l ++ items (m.erase k) := by
  rw [items, AList.entries_insert, List.flatMap_cons]
  rfl

/-- A map is the same map after its own bucket is inserted again. -/
theorem entries_perm_insert {k : κ} {v : ν} {m : Map κ ν} (h : m.lookup k = some v) :
    m.entries.Perm (m.insert k v).entries := by
  refine List.lookup_ext m.nodupKeys (m.insert k v).nodupKeys fun a b => ?_
  change b ∈ m.lookup a ↔ b ∈ (m.insert k v).lookup a
  by_cases ha : a = k
  · subst ha
    rw [h, AList.lookup_insert]
  · rw [AList.lookup_insert_ne ha]

theorem items_perm (k : κ) (m : Map κ (List ν)) :
    (items m).Perm ((m.lookup k).getD [] ++ items (m.erase k)) := by
  cases h : m.lookup k with
  | none =>
    have hk : k ∉ m.entries.keys := AList.lookup_eq_none.mp h
    have herase : (m.erase k).entries = m.entries := List.kerase_of_notMem_keys hk
    rw [items, items, herase]
    rfl
  | some l =>
    rw [Option.getD_some, ← items_insert]
    exact (entries_perm_insert h).flatMap_right _

theorem mem_items {m : Map κ (List ν)} {x : ν} :
    x ∈ items m ↔ ∃ k l, m.lookup k = some l ∧ x ∈ l := by
  simp only [items, List.mem_flatMap]
  constructor
  · rintro ⟨⟨k, l⟩, he, hx⟩
    exact ⟨k, l, AList.mem_lookup_iff.mpr he, hx⟩
  · rintro ⟨k, l, hl, hx⟩
    exact ⟨⟨k, l⟩, AList.mem_lookup_iff.mp hl, hx⟩

end Buckets

/-! ## Items under a key each -/

section Index
variable {α : Type*} [DecidableEq κ] {key : α → κ} {val : α → ν}

/-- The items of a list under their keys; of two with one key the earlier one is kept. -/
def index (key : α → κ) (val : α → ν) (l : List α) : Map κ ν :=
  l.foldr (fun a m => m.insert (key a) (val a)) ∅

theorem lookup_index (l : List α) (k : κ) :
    (index key val l).lookup k = (l.find? fun a => key a = k).map val := by
  induction l with
  | nil => rfl
  | cons a l ih =>
    by_cases h : key a = k
    · subst h
      simp [index]
    · rw [index, List.foldr_cons, AList.lookup_insert_ne (Ne.symm h), List.find?_cons_of_neg (by simpa)]
      exact ih

theorem mem_keys_index (l : List α) (k : κ) : k ∈ (index key val l).keys ↔ k ∈ l.map key := by
  rw [← AList.mem_keys, ← AList.lookup_isSome, lookup_index, Option.isSome_map, List.find?_isSome]
  simp

/-- There are as many entries as there are different keys. -/
theorem length_keys_index (l : List α) :
    (index key val l).keys.length = (l.map key).dedup.length := by
  refine ((List.perm_ext_iff_of_nodup (index key val l).keys_nodup (List.nodup_dedup _)).mpr
    fun k => ?_).length_eq
  rw [mem_keys_index, List.mem_dedup]

end Index

end DevFramework.OrderedMap
