import Mathlib.Data.List.Nodup
import Mathlib.Order.Nat

/-! # Identities from a counter

Every new object takes the next number as its identity. A list of identities in which none occurs
twice and all are below the counter stays one when an identity moves within the list or leaves it,
and when the next number is added.
-/
namespace DevFramework
set_option autoImplicit false
set_option maxHeartbeats 250000

structure Issued (made : ℕ) (ids : List ℕ) : Prop where
  nodup : ids.Nodup
  below : ∀ id ∈ ids, id < made

namespace Issued
variable {made : ℕ} {ids ids' : List ℕ}

theorem mono {made' : ℕ} (h : Issued made ids) (hmade : made ≤ made') : Issued made' ids :=
  ⟨h.nodup, fun id hid => (h.below id hid).trans_le hmade⟩

/-- Identities that have moved. -/
theorem moved (h : Issued made ids) (hle : ∀ id, ids'.count id ≤ ids.count id) :
    Issued made ids' := by
  refine ⟨?_, fun id hid => ?_⟩
  · refine List.nodup_iff_count_le_one.mpr fun id => ?_
    exact (hle id).trans (List.nodup_iff_count_le_one.mp h.nodup id)
  · apply h.below
    apply List.count_pos_iff.mp
    exact (List.count_pos_iff.mpr hid).trans_le (hle id)

/-- The next identity. -/
theorem next (h : Issued made ids) : Issued (made + 1) (ids ++ [made]) := by
  refine ⟨List.nodup_append.mpr ⟨h.nodup, List.nodup_singleton made, ?_⟩, fun id hid => ?_⟩
  · intro id hid new hnew
    rw [List.mem_singleton.mp hnew]
    exact (h.below id hid).ne
  · rcases List.mem_append.mp hid with hold | hnew
    · exact (h.below id hold).trans (Nat.lt_succ_self made)
    · rw [List.mem_singleton.mp hnew]
      exact Nat.lt_succ_self made

/-- What is in one part of the list is not in another. -/
theorem apart (h : Issued made (ids ++ ids')) {id : ℕ} (hid : id ∈ ids') : id ∉ ids :=
  fun hmem => List.disjoint_of_nodup_append h.nodup hmem hid

end Issued
end DevFramework
