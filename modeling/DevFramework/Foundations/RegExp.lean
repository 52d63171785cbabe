import Mathlib.Data.List.Basic
import Mathlib.Tactic.Common

/-! # Regular expressions and their longest match

A lexer takes from the front of its text the longest word that a rule matches. `Matches` says which
words a rule matches; `longest` finds the longest of them by derivatives, one for each item of the
text.
-/
namespace DevFramework.Rules
set_option autoImplicit false
set_option maxHeartbeats 250000

/-- A rule over items of type `α`; `one` is a single item of a class. -/
inductive RegExp (α : Type*) where
  | nothing
  | empty
  | one (p : α → Bool)
  | seq (r s : RegExp α)
  | alt (r s : RegExp α)
  | star (r : RegExp α)

variable {α : Type*}

inductive Matches : RegExp α → List α → Prop where
  | empty : Matches .empty []
  | one {p : α → Bool} {a : α} (ha : p a = true) : Matches (.one p) [a]
  | seq {r s : RegExp α} {u v : List α} (hu : Matches r u) (hv : Matches s v) :
      Matches (.seq r s) (u ++ v)
  | left {r s : RegExp α} {u : List α} (hu : Matches r u) : Matches (.alt r s) u
  | right {r s : RegExp α} {u : List α} (hu : Matches s u) : Matches (.alt r s) u
  | starNil {r : RegExp α} : Matches (.star r) []
  | starMore {r : RegExp α} {u v : List α} (hu : Matches r u) (hv : Matches (.star r) v) :
      Matches (.star r) (u ++ v)

namespace RegExp

/-- This word and no other. -/
def word [DecidableEq α] : List α → RegExp α
  | [] => .empty
  | a :: l => .seq (.one fun b => b = a) (word l)

/-- One or more. -/
def plus (r : RegExp α) : RegExp α := .seq r (.star r)

def nullable : RegExp α → Bool
  | nothing => false
  | empty => true
  | one _ => false
  | seq r s => r.nullable && s.nullable
  | alt r s => r.nullable || s.nullable
  | star _ => true

/-- What is left to match after `a`. -/
def deriv (a : α) : RegExp α → RegExp α
  | nothing => nothing
  | empty => nothing
  | one p => if p a then empty else nothing
  | seq r s => if r.nullable then alt (seq (r.deriv a) s) (s.deriv a) else seq (r.deriv a) s
  | alt r s => alt (r.deriv a) (s.deriv a)
  | star r => seq (r.deriv a) (star r)

/-- The longest word at the front of the text that the rule matches. -/
def longest : RegExp α → List α → Option (List α)
  | r, [] => if r.nullable then some [] else none
  | r, a :: l =>
    match longest (r.deriv a) l with
    | some u => some (a :: u)
    | none => if r.nullable then some [] else none

end RegExp

open RegExp

section
variable {r s : RegExp α} {a : α} {w : List α}

/-! ## Words of a rule -/

theorem matches_nothing : ¬ Matches (nothing : RegExp α) w := nofun

theorem matches_empty : Matches (RegExp.empty : RegExp α) w ↔ w = [] := by
  constructor
  · rintro ⟨⟩
    rfl
  · rintro rfl
    exact .empty

theorem matches_one {p : α → Bool} : Matches (one p) w ↔ ∃ b, p b = true ∧ w = [b] := by
  constructor
  · rintro ⟨⟩
    exact ⟨_, ‹_›, rfl⟩
  · rintro ⟨b, hb, rfl⟩
    exact .one hb

theorem matches_seq : Matches (seq r s) w ↔ ∃ u v, w = u ++ v ∧ Matches r u ∧ Matches s v := by
  constructor
  · rintro ⟨⟩
    exact ⟨_, _, rfl, ‹_›, ‹_›⟩
  · rintro ⟨u, v, rfl, hu, hv⟩
    exact .seq hu hv

theorem matches_alt : Matches (alt r s) w ↔ Matches r w ∨ Matches s w := by
  constructor
  · rintro ⟨⟩
    · exact .inl ‹_›
    · exact .inr ‹_›
  · rintro (h | h)
    · exact .left h
    · exact .right h

/-- The word of a repetition that is not empty begins with a round that is not empty. -/
theorem matches_star_cons : Matches (star r) (a :: w) ↔
    ∃ u v, w = u ++ v ∧ Matches r (a :: u) ∧ Matches (star r) v := by
  constructor
  · intro h
    generalize hq : star r = q at h
    generalize hx : a :: w = x at h
    induction h with
    | @starMore r' u v hu hv _ ih =>
      obtain rfl := RegExp.star.inj hq
      cases u with
      | nil => exact ih rfl hx
      | cons b u =>
        obtain ⟨rfl, rfl⟩ := List.cons.inj hx
        exact ⟨u, v, rfl, hu, hv⟩
    | _ => cases hq <;> cases hx
  · rintro ⟨u, v, rfl, hu, hv⟩
    exact .starMore hu hv

theorem matches_word [DecidableEq α] {l : List α} : Matches (word l) w ↔ w = l := by
  induction l generalizing w with
  | nil => exact matches_empty
  | cons b l ih =>
    rw [word, matches_seq]
    constructor
    · rintro ⟨u, v, rfl, hu, hv⟩
      obtain ⟨c, hc, rfl⟩ := matches_one.mp hu
      rw [ih.mp hv, of_decide_eq_true hc]
      rfl
    · rintro rfl
      exact ⟨[b], l, rfl, .one (decide_eq_true rfl), ih.mpr rfl⟩

/-- A repeated class matches the words over the class. -/
theorem matches_class {p : α → Bool} : Matches (star (one p)) w ↔ ∀ b ∈ w, p b = true := by
  induction w with
  | nil => exact iff_of_true .starNil nofun
  | cons b w ih =>
    rw [matches_star_cons, List.forall_mem_cons, ← ih]
    constructor
    · rintro ⟨u, v, rfl, hu, hv⟩
      obtain ⟨c, hc, hcu⟩ := matches_one.mp hu
      obtain ⟨rfl, rfl⟩ := List.cons.inj hcu
      exact ⟨hc, hv⟩
    · rintro ⟨hb, hw⟩
      exact ⟨[], w, rfl, .one hb, hw⟩

theorem matches_plus_class {p : α → Bool} :
    Matches (plus (one p)) w ↔ w ≠ [] ∧ ∀ b ∈ w, p b = true := by
  constructor
  · intro h
    obtain ⟨u, v, rfl, hu, hv⟩ := matches_seq.mp h
    obtain ⟨b, hb, rfl⟩ := matches_one.mp hu
    exact ⟨List.cons_ne_nil b v, List.forall_mem_cons.mpr ⟨hb, matches_class.mp hv⟩⟩
  · rintro ⟨hne, hall⟩
    cases w with
    | nil => exact absurd rfl hne
    | cons b w =>
      obtain ⟨hb, hw⟩ := List.forall_mem_cons.mp hall
      exact Matches.seq (.one hb) (matches_class.mpr hw)

/-! ## Derivatives -/

theorem nullable_iff : r.nullable = true ↔ Matches r [] := by
  induction r with
  | nothing => simp [nullable, matches_nothing]
  | empty => simp [nullable, matches_empty]
  | one p => simp [nullable, matches_one]
  | seq r s ihr ihs =>
    rw [nullable, Bool.and_eq_true, ihr, ihs, matches_seq]
    constructor
    · rintro ⟨hr, hs⟩
      exact ⟨[], [], rfl, hr, hs⟩
    · rintro ⟨u, v, huv, hr, hs⟩
      obtain ⟨rfl, rfl⟩ := List.append_eq_nil_iff.mp huv.symm
      exact ⟨hr, hs⟩
  | alt r s ihr ihs => rw [nullable, Bool.or_eq_true, ihr, ihs, matches_alt]
  | star r _ => exact iff_of_true rfl .starNil

theorem matches_seq_cons : Matches (seq r s) (a :: w) ↔
    (∃ u v, w = u ++ v ∧ Matches r (a :: u) ∧ Matches s v) ∨ Matches r [] ∧ Matches s (a :: w) := by
  rw [matches_seq]
  constructor
  · rintro ⟨u, v, huv, hu, hv⟩
    cases u with
    | nil =>
      rw [List.nil_append] at huv
      exact .inr ⟨hu, huv ▸ hv⟩
    | cons b u =>
      obtain ⟨rfl, rfl⟩ := List.cons.inj huv
      exact .inl ⟨u, v, rfl, hu, hv⟩
  · rintro (⟨u, v, rfl, hu, hv⟩ | ⟨hu, hv⟩)
    · exact ⟨a :: u, v, rfl, hu, hv⟩
    · exact ⟨[], a :: w, rfl, hu, hv⟩

theorem matches_deriv : Matches (r.deriv a) w ↔ Matches r (a :: w) := by
  induction r generalizing w with
  | nothing => exact iff_of_false matches_nothing matches_nothing
  | empty => exact iff_of_false matches_nothing (by simp [matches_empty])
  | one p =>
    rw [matches_one, RegExp.deriv]
    split
    next hp => simp [matches_empty, hp]
    next hp =>
      refine iff_of_false matches_nothing ?_
      rintro ⟨b, hb, hw⟩
      obtain ⟨rfl, -⟩ := List.cons.inj hw
      exact hp hb
  | seq r s ihr ihs =>
    have hseq : Matches (seq (r.deriv a) s) w ↔
        ∃ u v, w = u ++ v ∧ Matches r (a :: u) ∧ Matches s v := by
      simp only [matches_seq, ihr]
    rw [matches_seq_cons, RegExp.deriv]
    split
    next hnull => rw [matches_alt, hseq, ihs, and_iff_right (nullable_iff.mp hnull)]
    next hnull =>
      have hnot : ¬ Matches r [] := fun h => hnull (nullable_iff.mpr h)
      rw [hseq]
      simp [hnot]
  | alt r s ihr ihs => rw [RegExp.deriv, matches_alt, matches_alt, ihr, ihs]
  | star r ih => simp only [RegExp.deriv, matches_seq, matches_star_cons, ih]

/-- A word is matched if the derivatives by its items end in a rule that matches the empty word. -/
theorem matches_iff_foldl : Matches r w ↔ (w.foldl (fun s a => s.deriv a) r).nullable = true := by
  induction w generalizing r with
  | nil => exact nullable_iff.symm
  | cons a w ih => rw [← matches_deriv, ih, List.foldl_cons]

instance (r : RegExp α) (w : List α) : Decidable (Matches r w) :=
  decidable_of_iff _ matches_iff_foldl.symm

/-! ## Sequences item by item -/

theorem matches_seq_assoc {t : RegExp α} :
    Matches (seq (seq r s) t) w ↔ Matches (seq r (seq s t)) w := by
  simp only [matches_seq]
  constructor
  · rintro ⟨_, z, rfl, ⟨u, v, rfl, hu, hv⟩, hz⟩
    exact ⟨u, v ++ z, List.append_assoc u v z, hu, v, z, rfl, hv, hz⟩
  · rintro ⟨u, _, rfl, hu, v, z, rfl, hv, hz⟩
    exact ⟨u ++ v, z, (List.append_assoc u v z).symm, ⟨u, v, rfl, hu, hv⟩, hz⟩

theorem matches_seq_one_cons {p : α → Bool} :
    Matches (seq (one p) s) (a :: w) ↔ p a = true ∧ Matches s w := by
  constructor
  · intro h
    obtain ⟨u, v, huv, hu, hv⟩ := matches_seq.mp h
    obtain ⟨b, hb, rfl⟩ := matches_one.mp hu
    obtain ⟨rfl, rfl⟩ := List.cons.inj huv
    exact ⟨hb, hv⟩
  · rintro ⟨ha, hw⟩
    exact .seq (.one ha) hw

/-- Another round, or none. -/
theorem matches_seq_star_cons (hr : r.nullable = false) : Matches (seq (star r) s) (a :: w) ↔
    Matches (seq r (seq (star r) s)) (a :: w) ∨ Matches s (a :: w) := by
  have hnot : ¬ Matches r [] := fun h => absurd (nullable_iff.mpr h) (by simp [hr])
  rw [matches_seq_cons, matches_seq_cons (r := r)]
  simp only [matches_star_cons, hnot, false_and, or_false, Matches.starNil, true_and]
  refine or_congr_left ⟨?_, ?_⟩
  · rintro ⟨_, z, rfl, ⟨u, v, rfl, hu, hv⟩, hz⟩
    exact ⟨u, v ++ z, List.append_assoc u v z, hu, .seq hv hz⟩
  · rintro ⟨u, _, rfl, hu, hrest⟩
    obtain ⟨v, z, rfl, hv, hz⟩ := matches_seq.mp hrest
    exact ⟨u ++ v, z, (List.append_assoc u v z).symm, ⟨u, v, rfl, hu, hv⟩, hz⟩

theorem matches_seq_class_cons {p : α → Bool} : Matches (seq (star (one p)) s) (a :: w) ↔
    p a = true ∧ Matches (seq (star (one p)) s) w ∨ Matches s (a :: w) := by
  rw [matches_seq_star_cons rfl, matches_seq_one_cons]

/-! ## The longest match -/

theorem longest_eq_none {l : List α} : r.longest l = none ↔ ∀ u, u <+: l → ¬ Matches r u := by
  induction l generalizing r with
  | nil =>
    simp only [longest, List.prefix_nil, forall_eq, ← nullable_iff]
    cases r.nullable <;> simp
  | cons a l ih =>
    have hrest : (r.deriv a).longest l = none ↔ ∀ u, u <+: l → ¬ Matches r (a :: u) := by
      simp only [ih, matches_deriv]
    have hstarts : (∀ u, u <+: a :: l → ¬ Matches r u) ↔
        ¬ Matches r [] ∧ ∀ u, u <+: l → ¬ Matches r (a :: u) := by
      constructor
      · intro h
        exact ⟨h [] List.nil_prefix, fun u hu => h (a :: u) (List.prefix_cons_inj a |>.mpr hu)⟩
      · rintro ⟨hnil, hcons⟩ u hu
        cases u with
        | nil => exact hnil
        | cons b u =>
          obtain ⟨rfl, htail⟩ := List.cons_prefix_cons.mp hu
          exact hcons u htail
    rw [hstarts, ← hrest, ← nullable_iff, longest]
    cases (r.deriv a).longest l <;> cases r.nullable <;> simp

/-- `longest` finds a word of the rule at the front of the text, and none is longer. -/
theorem longest_spec {l u : List α} (h : r.longest l = some u) :
    u <+: l ∧ Matches r u ∧ ∀ v, v <+: l → Matches r v → v.length ≤ u.length := by
  induction l generalizing r u with
  | nil =>
    rw [longest, Option.ite_none_right_eq_some] at h
    obtain ⟨hnull, h⟩ := h
    obtain rfl := Option.some.inj h
    refine ⟨List.nil_prefix, nullable_iff.mp hnull, fun v hv _ => ?_⟩
    exact Nat.le_of_eq (congrArg List.length (List.prefix_nil.mp hv))
  | cons a l ih =>
    rw [longest] at h
    split at h
    next u' hu' =>
      obtain rfl := Option.some.inj h
      obtain ⟨hpre, hmatch, hlong⟩ := ih hu'
      refine ⟨(List.prefix_cons_inj a).mpr hpre, matches_deriv.mp hmatch, fun v hv hm => ?_⟩
      cases v with
      | nil => exact Nat.zero_le _
      | cons b v =>
        obtain ⟨rfl, htail⟩ := List.cons_prefix_cons.mp hv
        exact Nat.succ_le_succ (hlong v htail (matches_deriv.mpr hm))
    next hnone =>
      split at h
      next hnull =>
        obtain rfl := Option.some.inj h
        refine ⟨List.nil_prefix, nullable_iff.mp hnull, fun v hv hm => ?_⟩
        cases v with
        | nil => exact Nat.le_refl _
        | cons b v =>
          obtain ⟨rfl, htail⟩ := List.cons_prefix_cons.mp hv
          exact absurd (matches_deriv.mpr hm) (longest_eq_none.mp hnone v htail)
      next => cases h

/-- A word of the rule at the front of the text is the longest if no other is there. -/
theorem longest_of_unique {l u : List α} (hpre : u <+: l) (hmatch : Matches r u)
    (honly : ∀ v, v <+: l → Matches r v → v = u) : r.longest l = some u := by
  cases h : r.longest l with
  | none => exact absurd hmatch (longest_eq_none.mp h u hpre)
  | some v =>
    obtain ⟨hv, hm, -⟩ := longest_spec h
    rw [honly v hv hm]

end

end DevFramework.Rules
