import Mathlib.Data.List.Basic
import Mathlib.Data.List.Forall2
import Mathlib.Data.List.TakeWhile
import Mathlib.Tactic.Common

/-! # A list cut at its markers

`start` picks the markers of a list. A group is a marker with what follows it up to the next one;
what precedes the first marker belongs to no group. The lemmas say what one more item at the end
of the list does.
-/
namespace DevFramework.Groups
set_option autoImplicit false
set_option maxHeartbeats 250000

variable {α β : Type*}

/-- Each marker with what follows it up to the next one. -/
def groups (start : α → Option β) : List α → List (β × List α)
  | [] => []
  | a :: l =>
    match start a with
    | some b => (b, l.takeWhile fun x => (start x).isNone) :: groups start l
    | none => groups start l

variable {start : α → Option β}

theorem groups_markers (l : List α) : (groups start l).map Prod.fst = l.filterMap start := by
  induction l with
  | nil => rfl
  | cons a l ih =>
    cases h : start a with
    | none => simp [groups, h, ih]
    | some b => simp [groups, h, ih]

theorem groups_eq_nil {l : List α} : groups start l = [] ↔ ∀ a ∈ l, start a = none := by
  rw [← List.map_eq_nil_iff (f := Prod.fst), groups_markers, List.filterMap_eq_nil_iff]

/-- A list is cut at the same place when it, or the item after it, has what ends the cut. -/
theorem takeWhile_append_stop (p : α → Bool) (l : List α) (a : α)
    (h : p a = false ∨ ∃ y ∈ l, p y = false) : (l ++ [a]).takeWhile p = l.takeWhile p := by
  induction l with
  | nil =>
    have ha : p a = false := by simpa using h
    simp [ha]
  | cons x l ih =>
    cases hx : p x with
    | false => simp [hx]
    | true =>
      have hrest : p a = false ∨ ∃ y ∈ l, p y = false := by simpa [hx] using h
      simp [hx, ih hrest]

theorem groups_append_marker (l : List α) {a : α} {b : β} (h : start a = some b) :
    groups start (l ++ [a]) = groups start l ++ [(b, [])] := by
  induction l with
  | nil => simp [groups, h]
  | cons x l ih =>
    have htake := takeWhile_append_stop (fun x => (start x).isNone) l a (.inl (by simp [h]))
    cases hx : start x with
    | none => simp [groups, hx, ih]
    | some b' => simp [groups, hx, ih, htake]

theorem groups_append_none {l : List α} {a : α} (h : start a = none) (hl : groups start l = []) :
    groups start (l ++ [a]) = [] := by
  rw [groups_eq_nil] at hl ⊢
  intro x hx
  rcases List.mem_append.mp hx with hx | hx
  · exact hl x hx
  · rw [List.mem_singleton.mp hx]
    exact h

/-- Another item goes to the last group. -/
theorem groups_append_last {l : List α} {a : α} (h : start a = none) {gs : List (β × List α)}
    {b : β} {body : List α} (hl : groups start l = gs ++ [(b, body)]) :
    groups start (l ++ [a]) = gs ++ [(b, body ++ [a])] := by
  induction l generalizing gs with
  | nil => simp [groups] at hl
  | cons x l ih =>
    cases hx : start x with
    | none =>
      simp only [groups, hx, List.cons_append] at hl ⊢
      exact ih hl
    | some b' =>
      simp only [groups, hx, List.cons_append] at hl ⊢
      cases gs with
      | nil =>
        -- the marker at the head is the only one
        obtain ⟨hhead, htail⟩ := List.cons.inj hl
        obtain ⟨rfl, rfl⟩ := Prod.mk.inj hhead
        have hall : ∀ y ∈ l, (start y).isNone = true := by
          intro y hy
          rw [groups_eq_nil.mp htail y hy]
          rfl
        rw [groups_append_none h htail, List.takeWhile_append_of_pos hall,
          List.takeWhile_eq_self_iff.mpr hall]
        simp [h]
      | cons g gs =>
        obtain ⟨rfl, htail⟩ := List.cons.inj hl
        -- a later marker ends the group of the head before the new item
        have hstop : ∃ y ∈ l, (start y).isNone = false := by
          by_contra hno
          push Not at hno
          have : groups start l = [] := groups_eq_nil.mpr fun y hy => by simpa using hno y hy
          rw [this] at htail
          simp at htail
        have htake := takeWhile_append_stop (fun x => (start x).isNone) l a (.inr hstop)
        rw [ih htail, htake]
        rfl

/-! ## Two kinds of markers -/

section Within
variable {γ : Type*} {outer : α → Option γ}

/-- What the groups of one kind of marker hold when they are cut at another kind. -/
def within (outer : α → Option γ) (start : α → Option β) (l : List α) : List (β × List α) :=
  (groups outer l).flatMap fun g => groups start g.2

/-- The same group, cut where the outer group ends. -/
def CutAt (outer : α → Option γ) (g h : β × List α) : Prop :=
  h = (g.1, g.2.takeWhile fun x => (outer x).isNone)

theorem takeWhile_comm (p q : α → Bool) (l : List α) :
    (l.takeWhile p).takeWhile q = (l.takeWhile q).takeWhile p := by
  induction l with
  | nil => rfl
  | cons a l ih => cases hp : p a <;> cases hq : q a <;> simp [hp, hq, ih]

theorem cutAt_groups (hdisjoint : ∀ a c, outer a = some c → start a = none) (l : List α) :
    List.Forall₂ (CutAt outer) (groups start l)
      (groups start (l.takeWhile fun x => (outer x).isNone) ++ within outer start l) := by
  induction l with
  | nil => exact .nil
  | cons a l ih =>
    cases hout : outer a with
    | some c =>
      -- the outer group that starts here goes on to the next outer marker
      simpa [groups, within, hout, hdisjoint a c hout] using ih
    | none =>
      cases hstart : start a with
      | none => simpa [groups, within, hout, hstart] using ih
      | some b =>
        have hhead : CutAt outer (b, l.takeWhile fun x => (start x).isNone)
            (b, (l.takeWhile fun x => (outer x).isNone).takeWhile fun x => (start x).isNone) :=
          congrArg (Prod.mk b) (takeWhile_comm _ _ l)
        simpa [groups, within, hout, hstart] using ⟨hhead, ih⟩

/-- If the outer groups hold every marker, their groups are the groups of the list, cut. -/
theorem cutAt_within (hdisjoint : ∀ a c, outer a = some c → start a = none) {l : List α}
    (hall : (within outer start l).map Prod.fst = l.filterMap start) :
    List.Forall₂ (CutAt outer) (groups start l) (within outer start l) := by
  have h := cutAt_groups hdisjoint l
  have hlen := h.length_eq
  have hmarkers := congrArg List.length (hall.trans (groups_markers l).symm)
  rw [List.length_append] at hlen
  rw [List.length_map, List.length_map] at hmarkers
  have hnone : groups start (l.takeWhile fun x => (outer x).isNone) = [] :=
    List.length_eq_zero_iff.mp (by omega)
  rwa [hnone, List.nil_append] at h

end Within

end DevFramework.Groups
