import DevFramework.Json.Levels
import Mathlib.Data.List.Induction

/-! # What a sequence of calls does to the stack

Navigation calls are detours, each descent with its `to_upper_level`, between ways up and ways down:
what a sequence leaves of the stack of an object can be read off its calls and the items it descends
from.
-/
namespace DevFramework.Json
open Transition
set_option autoImplicit false
set_option maxHeartbeats 250000

variable {ν : Type}

inductive Move where
  | stay
  | descend
  | ascend
  | toRoot
  deriving DecidableEq, Repr

/-- The move of a call, at the current item `ih`. -/
def Nav.move (ih : Option ℕ) : Nav → Move
  | .getNextItem | .getPrevItem => .stay
  | .getSubItem => if ih.isSome then .descend else .stay
  | .getItemFromName _ | .getArrayItemFromPos _ => .descend
  | .toUpperLevel => .ascend
  | .getRoot => .toRoot

/-- The stack after a move from the item `ih`. -/
def Move.stack (ih : Option ℕ) (stack : List (Option ℕ)) : Move → List (Option ℕ)
  | .stay => stack
  | .descend => ih :: stack
  | .ascend => stack.tail
  | .toRoot => []

/-- The calls keep to the level of the current item, but for descents, each with its
`to_upper_level`. -/
inductive Detour (h : Heap ν) : CJSon → List Nav → CJSon → Prop where
  | done (x : CJSon) : Detour h x [] x
  | stay {x y z : CJSon} {call : Nav} {calls : List Nav} :
    call.move x.ih = .stay → x.go h call = some y → Detour h y calls z →
      Detour h x (call :: calls) z
  | nest {x y z w : CJSon} {call : Nav} {calls more : List Nav} :
    call.move x.ih = .descend → x.go h call = some y → Detour h y calls z →
      Detour h z.toUpperLevel more w → Detour h x (call :: (calls ++ .toUpperLevel :: more)) w

/-- But for detours the calls go up beyond `k` levels of the stack, and then down from `items`, the
last one first. `get_root` goes up beyond all levels, wherever the calls before it have led. -/
inductive Course (h : Heap ν) : CJSon → List Nav → ℕ → List (Option ℕ) → CJSon → Prop where
  | detour {x y : CJSon} {calls : List Nav} : Detour h x calls y → Course h x calls 0 [] y
  | up {x y z : CJSon} {calls more : List Nav} {k : ℕ} {items : List (Option ℕ)} :
    Detour h x calls y → Course h y.toUpperLevel more k items z →
      Course h x (calls ++ .toUpperLevel :: more) (k + 1) items z
  | down {x y z w : CJSon} {call : Nav} {calls more : List Nav} {items : List (Option ℕ)} :
    Detour h x calls y → call.move y.ih = .descend → y.go h call = some z →
      Course h z more 0 items w → Course h x (calls ++ call :: more) 0 (items ++ [y.ih]) w
  | root {x y z : CJSon} {calls more : List Nav} {k : ℕ} {items : List (Option ℕ)} :
    run (CJSon.go h) x calls = some y → Course h y.getRoot more k items z →
      Course h x (calls ++ .getRoot :: more) x.stack.length items z

section Courses
variable {h : Heap ν} {x y z : CJSon} {call : Nav} {calls more : List Nav} {k : ℕ}
  {a : Option ℕ} {items : List (Option ℕ)}

/-- The stack after one call. -/
theorem go_stack (hgo : x.go h call = some y) : y.stack = (call.move x.ih).stack x.ih x.stack := by
  cases call with
  | getSubItem =>
    obtain rfl := Option.some.inj hgo
    simp only [CJSon.getSubItem, Nav.move]
    split <;> rfl
  | getItemFromName name =>
    obtain ⟨ih, -, rfl⟩ := Option.map_eq_some_iff.mp hgo
    rfl
  | toUpperLevel =>
    obtain rfl := Option.some.inj hgo
    exact toUpperLevel_stack x
  | _ =>
    obtain rfl := Option.some.inj hgo
    rfl

theorem go_stay (hmove : call.move x.ih = .stay) (hgo : x.go h call = some y) :
    y.stack = x.stack := by
  rw [go_stack hgo, hmove]
  rfl

theorem go_descend (hmove : call.move x.ih = .descend) (hgo : x.go h call = some y) :
    y.stack = x.ih :: x.stack := by
  rw [go_stack hgo, hmove]
  rfl

/-! ## The stack after a run -/

theorem Detour.stack (hd : Detour h x calls y) : y.stack = x.stack := by
  induction hd with
  | done x => rfl
  | stay hmove hgo _ ih => exact ih.trans (go_stay hmove hgo)
  | nest hmove hgo _ _ ihin ihmore =>
    rw [ihmore, toUpperLevel_stack, ihin, go_descend hmove hgo]
    rfl

theorem Detour.run (hd : Detour h x calls y) : run (CJSon.go h) x calls = some y := by
  induction hd with
  | done x => rfl
  | stay _ hgo _ ih =>
    rw [Transition.run, hgo]
    exact ih
  | nest _ hgo _ _ ihin ihmore =>
    rw [Transition.run, hgo]
    change Transition.run _ _ (_ ++ _) = _
    rw [run_append, ihin]
    exact ihmore

theorem Course.run (hc : Course h x calls k items y) : run (CJSon.go h) x calls = some y := by
  induction hc with
  | detour hd => exact hd.run
  | up hd _ ih =>
    rw [run_append, hd.run]
    exact ih
  | down hd _ hgo _ ih =>
    rw [run_append, hd.run]
    change (Transition.run _ _ (_ :: _)) = _
    rw [Transition.run, hgo]
    exact ih
  | root hrun _ ih =>
    rw [run_append, hrun]
    exact ih

/-- The stack after a sequence of calls: the levels beyond which it has gone up are missing, and the
items from which it has descended since lie on top. -/
theorem Course.stack (hc : Course h x calls k items y) :
    y.stack = items ++ x.stack.drop k := by
  induction hc with
  | detour hd => exact hd.stack
  | up hd _ ih => rw [ih, toUpperLevel_stack, hd.stack, ← List.drop_one, List.drop_drop, Nat.add_comm]
  | down hd hmove hgo _ ih =>
    rw [ih, go_descend hmove hgo, hd.stack, List.drop_zero, List.drop_zero, List.append_assoc,
      List.singleton_append]
  | root _ _ ih => rw [ih, List.drop_length, CJSon.getRoot, List.drop_nil]

/-! ## Every sequence has a course -/

theorem Detour.append (hd : Detour h x calls y) (hmore : Detour h y more z) :
    Detour h x (calls ++ more) z := by
  induction hd with
  | done x => exact hmore
  | stay hmove hgo _ ih => exact .stay hmove hgo (ih hmore)
  | nest hmove hgo hin _ _ ihmore =>
    rw [List.cons_append, List.append_assoc]
    exact .nest hmove hgo hin (ihmore hmore)

theorem Course.stay (hc : Course h x calls k items y) (hmove : call.move y.ih = .stay)
    (hgo : y.go h call = some z) : Course h x (calls ++ [call]) k items z := by
  induction hc with
  | detour hd => exact .detour (hd.append (.stay hmove hgo (.done z)))
  | up hd _ ih =>
    rw [List.append_assoc]
    exact .up hd (ih hmove hgo)
  | down hd hdesc hfirst _ ih =>
    rw [List.append_assoc]
    exact .down hd hdesc hfirst (ih hmove hgo)
  | root hrun _ ih =>
    rw [List.append_assoc]
    exact .root hrun (ih hmove hgo)

theorem Course.descend (hc : Course h x calls k items y) (hmove : call.move y.ih = .descend)
    (hgo : y.go h call = some z) : Course h x (calls ++ [call]) k (y.ih :: items) z := by
  induction hc with
  | detour hd => exact .down hd hmove hgo (.detour (.done z))
  | up hd _ ih =>
    rw [List.append_assoc]
    exact .up hd (ih hmove hgo)
  | down hd hdesc hfirst _ ih =>
    rw [List.append_assoc, ← List.cons_append]
    exact .down hd hdesc hfirst (ih hmove hgo)
  | root hrun _ ih =>
    rw [List.append_assoc]
    exact .root hrun (ih hmove hgo)

/-- Up from where no descent is open: one level more. -/
theorem Course.beyond (hc : Course h x calls k [] y) :
    ∃ k', Course h x (calls ++ [.toUpperLevel]) k' [] y.toUpperLevel := by
  generalize hnil : ([] : List (Option ℕ)) = items at hc
  induction hc with
  | detour hd => exact ⟨1, .up hd (.detour (.done _))⟩
  | up hd _ ih =>
    obtain ⟨k', hc⟩ := ih hnil
    rw [List.append_assoc]
    exact ⟨k' + 1, .up hd hc⟩
  | down => exact absurd hnil.symm (List.append_ne_nil_of_right_ne_nil _ (List.cons_ne_nil _ _))
  | root hrun _ ih =>
    obtain ⟨k', hc⟩ := ih hnil
    rw [List.append_assoc]
    exact ⟨_, .root hrun hc⟩

/-- A course that has neither gone up nor left a descent open is a detour. -/
theorem Course.detour_of_nil (hc : Course h x calls 0 [] y) (hx : x.stack ≠ []) :
    Detour h x calls y := by
  generalize hk : 0 = k at hc
  generalize hnil : ([] : List (Option ℕ)) = items at hc
  cases hc with
  | detour hd => exact hd
  | up => cases hk
  | down => exact absurd hnil.symm (List.append_ne_nil_of_right_ne_nil _ (List.cons_ne_nil _ _))
  | root => exact absurd (List.length_eq_zero_iff.mp hk.symm) hx

/-- Up from an open descent: it has become a detour. -/
theorem Course.back (hc : Course h x calls k (a :: items) y) :
    Course h x (calls ++ [.toUpperLevel]) k items y.toUpperLevel := by
  generalize hcons : a :: items = opened at hc
  induction hc generalizing items with
  | detour => cases hcons
  | up hd _ ih =>
    rw [List.append_assoc]
    exact .up hd (ih hcons)
  | root hrun _ ih =>
    rw [List.append_assoc]
    exact .root hrun (ih hcons)
  | @down x y z w call calls more inner hd hdesc hgo hrest ih =>
    rw [List.append_assoc]
    cases inner with
    | nil =>
      obtain ⟨-, rfl⟩ := List.cons.inj hcons
      have hz : z.stack ≠ [] := by
        rw [go_descend hdesc hgo]
        exact List.cons_ne_nil _ _
      exact .detour (hd.append (.nest hdesc hgo (hrest.detour_of_nil hz) (.done _)))
    | cons b inner =>
      obtain ⟨rfl, rfl⟩ := List.cons.inj hcons
      exact .down hd hdesc hgo (ih rfl)

theorem eq_toUpperLevel_of_ascend (hmove : call.move a = .ascend) : call = .toUpperLevel := by
  cases call with
  | toUpperLevel => rfl
  | getSubItem =>
    simp only [Nav.move] at hmove
    split at hmove <;> cases hmove
  | _ => cases hmove

theorem eq_getRoot_of_toRoot (hmove : call.move a = .toRoot) : call = .getRoot := by
  cases call with
  | getRoot => rfl
  | getSubItem =>
    simp only [Nav.move] at hmove
    split at hmove <;> cases hmove
  | _ => cases hmove

theorem exists_course (hrun : Transition.run (CJSon.go h) x calls = some y) :
    ∃ k items, Course h x calls k items y := by
  induction calls using List.reverseRecOn generalizing y with
  | nil =>
    obtain rfl := Option.some.inj hrun
    exact ⟨0, [], .detour (.done x)⟩
  | append_singleton calls call ih =>
    rw [run_append] at hrun
    obtain ⟨w, hw, hlast⟩ := Option.bind_eq_some_iff.mp hrun
    obtain ⟨y', hgo, hy'⟩ := Option.bind_eq_some_iff.mp hlast
    obtain rfl : y' = y := Option.some.inj hy'
    obtain ⟨k, items, hc⟩ := ih hw
    cases hmove : call.move w.ih with
    | stay => exact ⟨k, items, hc.stay hmove hgo⟩
    | descend => exact ⟨k, w.ih :: items, hc.descend hmove hgo⟩
    | ascend =>
      obtain rfl := eq_toUpperLevel_of_ascend hmove
      obtain rfl := Option.some.inj hgo
      cases items with
      | nil =>
        obtain ⟨k', hc'⟩ := hc.beyond
        exact ⟨k', [], hc'⟩
      | cons a items => exact ⟨k, items, hc.back⟩
    | toRoot =>
      obtain rfl := eq_getRoot_of_toRoot hmove
      obtain rfl := Option.some.inj hgo
      exact ⟨x.stack.length, [], .root hw (.detour (.done _))⟩

end Courses

end DevFramework.Json
