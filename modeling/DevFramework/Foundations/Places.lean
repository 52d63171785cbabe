import Mathlib.Data.List.Perm.Basic
import Mathlib.Tactic.Common

/-! # What the places of a list hold

A list of places (threads, sockets, operations), each of which may hold an item. When one place
changes, what all of them hold changes by what that place held and holds.
-/
namespace DevFramework.Places
set_option autoImplicit false
set_option maxHeartbeats 250000

variable {α β : Type*} {f : α → Option β} {l : List α} {i : ℕ} {a a' : α}

theorem filterMap_split (h : l[i]? = some a) :
    (l.filterMap f).Perm ((f a).toList ++ (l.eraseIdx i).filterMap f) := by
  obtain ⟨hi, hget⟩ := List.getElem?_eq_some_iff.mp h
  have hperm := (List.getElem_cons_eraseIdx_perm hi).symm.filterMap f
  rw [hget, List.filterMap_cons] at hperm
  cases hf : f a <;> simpa [hf] using hperm

theorem filterMap_set (h : l[i]? = some a) (a' : α) :
    ((l.set i a').filterMap f).Perm ((f a').toList ++ (l.eraseIdx i).filterMap f) := by
  obtain ⟨hi, -⟩ := List.getElem?_eq_some_iff.mp h
  have hperm := (List.set_perm_cons_eraseIdx hi a').filterMap f
  rw [List.filterMap_cons] at hperm
  cases hf : f a' <;> simpa [hf] using hperm

/-- The place holds what it held. -/
theorem filterMap_same (h : l[i]? = some a) (hf : f a' = f a) :
    ((l.set i a').filterMap f).Perm (l.filterMap f) := by
  have hset := filterMap_set (f := f) h a'
  rw [hf] at hset
  exact hset.trans (filterMap_split h).symm

/-- An item comes to a place that held none. -/
theorem filterMap_put {b : β} (h : l[i]? = some a) (hf : f a = none) (hf' : f a' = some b) :
    ((l.set i a').filterMap f).Perm (b :: l.filterMap f) := by
  have hset := filterMap_set (f := f) h a'
  have hsplit := filterMap_split (f := f) h
  rw [hf] at hsplit
  rw [hf'] at hset
  exact hset.trans (hsplit.symm.cons b)

/-- The item of a place leaves it. -/
theorem filterMap_take {b : β} (h : l[i]? = some a) (hf : f a = some b) (hf' : f a' = none) :
    (l.filterMap f).Perm (b :: (l.set i a').filterMap f) := by
  have hset := filterMap_set (f := f) h a'
  have hsplit := filterMap_split (f := f) h
  rw [hf] at hsplit
  rw [hf'] at hset
  exact hsplit.trans (hset.symm.cons b)

end DevFramework.Places
