import DevFramework.Json.Document
import DevFramework.Foundations.Transition

/-! # Levels

`to_upper_level` goes back to the item saved last. Every call that moves to a child saves the item
it leaves, but `new_array` does not: after it each `to_upper_level` is off by one.
-/
namespace DevFramework.Json
open Transition
set_option autoImplicit false
set_option maxHeartbeats 250000

variable {ν : Type}

def Call.isNewArray : Call ν → Bool
  | .newArray _ => true
  | _ => false

/-- A call that moves from the current item `p` to a child of it, if it finds one. -/
def Call.Descends (b : Builder ν) (p : ℕ) (call : Call ν) : Prop :=
  b.obj.ih = some p ∧
    match call with
    | .nav .getSubItem | .nav (.getItemFromName _) | .nav (.getArrayItemFromPos _) => True
    | .newObject _ | .newArray _ => True
    | .attachObject => (b.heap.mem p).type = .itArray
    | _ => False

/-- A call that stays on the level of the current item. -/
def Call.isLevel : Call ν → Bool
  | .nav .getNextItem | .nav .getPrevItem => true
  | .setDouble .. | .setBool .. | .setString .. => true
  | .setNumberGroup .. | .setStringGroup .. => true
  | _ => false

/-- Further descents, each with its `to_upper_level`. -/
inductive Tour (parse : Text → ℕ → Option (List (Item ν))) :
    Builder ν → List (Call ν) → Builder ν → Prop where
  | done (b : Builder ν) : Tour parse b [] b
  | level {b b' c : Builder ν} {call : Call ν} {calls : List (Call ν)} :
    call.isLevel → b.step parse call = some b' → Tour parse b' calls c →
      Tour parse b (call :: calls) c
  | nest {b b' c d : Builder ν} {p : ℕ} {call : Call ν} {calls more : List (Call ν)} :
    call.Descends b p → b.step parse call = some b' → Tour parse b' calls c →
      Tour parse { c with obj := c.obj.toUpperLevel } more d →
      Tour parse b (call :: (calls ++ .nav .toUpperLevel :: more)) d

section Levels
variable {parse : Text → ℕ → Option (List (Item ν))} {b b' : Builder ν} {call : Call ν}
  {calls : List (Call ν)}

theorem toUpperLevel_stack (x : CJSon) : x.toUpperLevel.stack = x.stack.tail := by
  unfold CJSon.toUpperLevel
  split <;> simp_all

theorem level_stack (hlevel : call.isLevel) (hstep : b.step parse call = some b') :
    b'.obj.stack = b.obj.stack := by
  cases call with
  | nav call =>
    cases call with
    | getNextItem | getPrevItem =>
      obtain rfl := Option.some.inj hstep
      rfl
    | _ => cases hlevel
  | setString name v =>
    cases v with
    | none =>
      obtain rfl : b = b' := Option.some.inj hstep
      rfl
    | some v =>
      obtain ⟨H, -, rfl⟩ := Option.map_eq_some_iff.mp hstep
      rfl
  | setDouble | setBool | setNumberGroup | setStringGroup =>
    obtain ⟨H, -, rfl⟩ := Option.map_eq_some_iff.mp hstep
    rfl
  | _ => cases hlevel

/-- All the calls that descend push the item they leave, but for `new_array`. -/
theorem descends_stack {p : ℕ} (hdesc : call.Descends b p) (hstep : b.step parse call = some b') :
    b'.obj.stack = if call.isNewArray then b.obj.stack else some p :: b.obj.stack := by
  obtain ⟨hp, hkind⟩ := hdesc
  cases call with
  | nav call =>
    obtain ⟨x, hgo, rfl⟩ := Option.map_eq_some_iff.mp hstep
    cases call with
    | getSubItem =>
      obtain rfl := Option.some.inj hgo
      simp [CJSon.getSubItem, Call.isNewArray, hp]
    | getItemFromName name =>
      obtain ⟨ih, -, rfl⟩ := Option.map_eq_some_iff.mp hgo
      simp [Call.isNewArray, hp]
    | getArrayItemFromPos pos =>
      obtain rfl := Option.some.inj hgo
      simp [CJSon.getArrayItemFromPos, Call.isNewArray, hp]
    | _ => cases hkind
  | newObject name =>
    obtain ⟨H, -, rfl⟩ := Option.map_eq_some_iff.mp hstep
    simp [Call.isNewArray, hp]
  | newArray name =>
    obtain ⟨H, -, rfl⟩ := Option.map_eq_some_iff.mp hstep
    simp [Call.isNewArray]
  | attachObject =>
    have hattach : b.attachObject = some b' := hstep
    have htype : (b.heap.mem p).type = .itArray := hkind
    simp only [Builder.attachObject, hp, htype] at hattach
    obtain ⟨H, -, rfl⟩ := Option.map_eq_some_iff.mp hattach
    simp [Call.isNewArray]
  | _ => cases hkind

/-- A balanced sequence takes one handle more off the stack for every `new_array` in it. -/
theorem tour_stack (htour : Tour parse b calls b') :
    b'.obj.stack = b.obj.stack.drop (calls.countP Call.isNewArray) := by
  induction htour with
  | done b => rfl
  | @level b b₁ c call calls hlevel hstep htour ih =>
    have hnot : call.isNewArray = false := by
      cases call <;> first | rfl | cases hlevel
    rw [ih, level_stack hlevel hstep, List.countP_cons_of_neg (by simp [hnot])]
  | @nest b b₁ c d p call calls more hdesc hstep hinner hrest ihinner ihrest =>
    have hpush := descends_stack hdesc hstep
    have hcount : (Call.nav .toUpperLevel :: more).countP Call.isNewArray =
        more.countP Call.isNewArray := List.countP_cons_of_neg (by simp [Call.isNewArray])
    have hupper : c.obj.toUpperLevel.stack =
        b.obj.stack.drop ((call :: calls).countP Call.isNewArray) := by
      rw [toUpperLevel_stack, ihinner, List.tail_drop, hpush]
      cases hcall : call.isNewArray with
      | true => rw [if_pos rfl, List.countP_cons_of_pos hcall]
      | false => rw [if_neg (by simp), List.countP_cons_of_neg (by simp [hcall]),
          List.drop_succ_cons]
    rw [ihrest, hupper, List.drop_drop, ← List.cons_append, List.countP_append, hcount]

/-- The calls of a balanced sequence are a run. -/
theorem tour_run (htour : Tour parse b calls b') :
    run (Builder.step parse) b calls = some b' := by
  induction htour with
  | done b => rfl
  | level _ hstep _ ih =>
    rw [run, hstep]
    exact ih
  | nest _ hstep _ _ ihinner ihrest =>
    rw [run, hstep]
    change run _ _ (_ ++ _) = _
    rw [run_append, ihinner]
    exact ihrest

theorem run_sound (hparse : Parses parse) (hb : b.Sound)
    (hrun : run (Builder.step parse) b calls = some b') : b'.Sound := by
  have hreach := Reach.of_run hrun
  exact hreach.invariant hb fun _ _ _ hu _ hstep => Builder.step_sound hparse hu hstep

end Levels

/-- **Levels.** Where neither the call that descended from `p` nor a call of the balanced sequence
after it is `new_array`, the next `to_upper_level` makes `p` the current item again, and a value
set then becomes the last child of `p`. -/
theorem to_upper_level_returns (parse : Text → ℕ → Option (List (Item ν))) (hparse : Parses parse)
    (before calls : List (Call ν)) (call : Call ν) (p : ℕ) (b c d : Builder ν)
    (hrun : run (Builder.step parse) .init before = some b) (hdesc : call.Descends b p)
    (hstep : b.step parse call = some c) (htour : Tour parse c calls d)
    (hok : ∀ k ∈ call :: calls, k.isNewArray = false) :
    ∃ e, run (Builder.step parse) .init (before ++ call :: calls ++ [.nav .toUpperLevel]) = some e ∧
      e.obj.ih = some p ∧ e.obj.stack = b.obj.stack ∧
      ∀ (set : Call ν) (name : Text) (r : ℕ × Heap ν), set.sets e.heap = some (name, r) →
        ∃ f, e.step parse set = some f ∧ f.obj = e.obj ∧
          f.heap.children p = e.heap.children p ++ [r.1] ∧
          (f.heap.mem r.1).string = some name := by
  have hnone : calls.countP Call.isNewArray = 0 := by
    rw [List.countP_eq_zero]
    intro k hk
    simp [hok k (List.mem_cons_of_mem _ hk)]
  have hstack : d.obj.stack = some p :: b.obj.stack := by
    have hpush := descends_stack hdesc hstep
    rw [hok call List.mem_cons_self, if_neg (by simp)] at hpush
    rw [tour_stack htour, hnone, hpush, List.drop_zero]
  have hupper : d.obj.toUpperLevel = { d.obj with ih := some p, stack := b.obj.stack } := by
    rw [CJSon.toUpperLevel, hstack]
  have hall : run (Builder.step parse) .init (before ++ call :: calls ++ [.nav .toUpperLevel]) =
      some { d with obj := { d.obj with ih := some p, stack := b.obj.stack } } := by
    rw [List.append_assoc, run_append, hrun]
    change (b.step parse call).bind _ = _
    rw [hstep]
    change run _ c (calls ++ _) = _
    rw [run_append, tour_run htour, ← hupper]
    rfl
  refine ⟨_, hall, rfl, rfl, fun set name r hset => ?_⟩
  obtain ⟨heq, hm⟩ := Builder.step_sets parse hset
  obtain ⟨f, hf, -, hobj, hchildren, hname⟩ :=
    Builder.setItem_made name (run_sound hparse Builder.init_sound hall) hm rfl
  rw [hm.item]
  exact ⟨f, heq.trans hf, hobj, hchildren, hname⟩

/-- In an array `a`, an object with a value and an object in it, and back to the array. -/
theorem to_upper_level_returns_nested :
    ∃ e, run (Builder.step fun _ _ => none) (.init : Builder ℕ)
        ([.newRoot, .newArray ['a']] ++ .attachObject ::
          [.setDouble ['x'] 5, .newObject ['o'], .nav .toUpperLevel] ++ [.nav .toUpperLevel]) =
          some e ∧
      e.obj.ih = some 1 := by
  have hparse : Parses fun (_ : Text) (_ : ℕ) => (none : Option (List (Item ℕ))) := nofun
  obtain ⟨e, hrun, hih, -⟩ := to_upper_level_returns _ hparse [.newRoot, .newArray ['a']]
    [.setDouble ['x'] 5, .newObject ['o'], .nav .toUpperLevel] .attachObject 1 _ _ _ rfl
    ⟨rfl, rfl⟩ rfl (.level rfl rfl (.nest ⟨rfl, trivial⟩ rfl (.done _) (.done _)))
    (by simp [Call.isNewArray])
  exact ⟨e, hrun, hih⟩

/-- `new_root`, `new_array("a")`, `to_upper_level`: the array stays the current item, and what is
set next goes into it and not into the root. -/
theorem new_array_not_left :
    ∃ b c d e : Builder ℕ,
      run (Builder.step fun _ _ => none) .init [.newRoot] = some b ∧
      (Call.newArray ['a'] : Call ℕ).Descends b 0 ∧
      b.step (fun _ _ => none) (.newArray ['a']) = some c ∧
      c.step (fun _ _ => none) (.nav .toUpperLevel) = some d ∧ d.obj.ih = some 1 ∧
      d.step (fun _ _ => none) (.setDouble ['x'] 5) = some e ∧
      e.heap.children 0 = [1] ∧ e.heap.children 1 = [2] :=
  ⟨_, _, _, _, rfl, ⟨rfl, trivial⟩, rfl, rfl, rfl, rfl, rfl, rfl⟩

end DevFramework.Json
