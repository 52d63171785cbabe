import DevFramework.Json.Courses

/-! # Copies of a cursor

The copy constructor and `operator=` are written by hand and copy the document and the current item,
but neither the root nor the stack: a copy has an uninitialised `root_` and an empty stack, and an
object restored from it keeps the stack that it has come to.
-/
namespace DevFramework.Json
open Transition
set_option autoImplicit false
set_option maxHeartbeats 250000

variable {ν : Type}

namespace CJSon

/-- `operator =`. -/
def assign (x json : CJSon) : CJSon := { x with ih := json.ih }

/-- The copy constructor; `junk` is what `root_` holds, which nothing initialises. -/
def copy (junk : Option ℕ) (json : CJSon) : CJSon :=
  assign { root := junk, ih := none, stack := [] } json

/-- `encode`. -/
def encode (print : Heap ν → ℕ → Text) (h : Heap ν) (x : CJSon) : Option Text :=
  x.root.map (print h)

end CJSon

/-! ## What an object answers -/

inductive Query where
  | nav (call : Nav)
  | encode
  deriving DecidableEq, Repr

/-- A navigation call returns the object at its new current item, `encode` a text. -/
inductive Answer where
  | item (ih : Option ℕ)
  | text (str : Option Text)
  deriving DecidableEq, Repr

def answers (print : Heap ν → ℕ → Text) (h : Heap ν) : CJSon → List Query → Option (List Answer)
  | _, [] => some []
  | x, .nav call :: queries => (x.go h call).bind fun x' =>
    (answers print h x' queries).map (.item x'.ih :: ·)
  | x, .encode :: queries => (answers print h x queries).map (.text (x.encode print h) :: ·)

/-- What can be seen of the current item and the handles below it: nulls at the bottom look like
one null, since `to_upper_level` leaves the last handle where it is. -/
def shown : List (Option ℕ) → List (Option ℕ)
  | [] => []
  | a :: l => if a = none ∧ ∀ o ∈ l, o = none then [none] else a :: shown l

theorem shown_nulls {l : List (Option ℕ)} (hl : ∀ o ∈ l, o = none) :
    shown (none :: l) = [none] := if_pos ⟨rfl, hl⟩

theorem shown_cons {a : Option ℕ} {l : List (Option ℕ)} (hl : ¬(a = none ∧ ∀ o ∈ l, o = none)) :
    shown (a :: l) = a :: shown l := if_neg hl

theorem nulls_shown (l : List (Option ℕ)) :
    (∀ o ∈ l, o = none) ↔ shown l = [] ∨ shown l = [none] := by
  constructor
  · intro hl
    cases l with
    | nil => exact .inl rfl
    | cons a l =>
      obtain rfl : a = none := hl a List.mem_cons_self
      exact .inr (shown_nulls fun o ho => hl o (List.mem_cons_of_mem _ ho))
  · intro hl
    cases l with
    | nil => exact nofun
    | cons a l =>
      by_cases hnull : a = none ∧ ∀ o ∈ l, o = none
      · intro o ho
        rcases List.mem_cons.mp ho with rfl | ho
        · exact hnull.1
        · exact hnull.2 o ho
      · rw [shown_cons hnull] at hl
        obtain hl | hl := hl
        · cases hl
        · obtain ⟨rfl, hl⟩ := List.cons.inj hl
          refine absurd ⟨rfl, ?_⟩ hnull
          cases l with
          | nil => exact nofun
          | cons b l =>
            unfold shown at hl
            split at hl <;> cases hl

theorem nulls_congr {l m : List (Option ℕ)} (hlm : shown l = shown m) :
    (∀ o ∈ l, o = none) ↔ ∀ o ∈ m, o = none := by
  rw [nulls_shown, nulls_shown, hlm]

theorem shown_cons_congr (a : Option ℕ) {l m : List (Option ℕ)} (hlm : shown l = shown m) :
    shown (a :: l) = shown (a :: m) := by
  simp only [shown, nulls_congr hlm, hlm]

theorem shown_head {a b : Option ℕ} {l m : List (Option ℕ)}
    (hlm : shown (a :: l) = shown (b :: m)) : a = b := by
  by_cases ha : a = none ∧ ∀ o ∈ l, o = none
  · by_cases hb : b = none ∧ ∀ o ∈ m, o = none
    · rw [ha.1, hb.1]
    · rw [shown_cons hb, ha.1, shown_nulls ha.2] at hlm
      rw [ha.1, (List.cons.inj hlm).1]
  · by_cases hb : b = none ∧ ∀ o ∈ m, o = none
    · rw [shown_cons ha, hb.1, shown_nulls hb.2] at hlm
      rw [hb.1, (List.cons.inj hlm).1]
    · rw [shown_cons ha, shown_cons hb] at hlm
      exact (List.cons.inj hlm).1

/-- Below the same current item lies the same, or nothing but nulls. -/
theorem shown_tail {a : Option ℕ} {l m : List (Option ℕ)}
    (hlm : shown (a :: l) = shown (a :: m)) :
    shown l = shown m ∨ a = none ∧ (∀ o ∈ l, o = none) ∧ ∀ o ∈ m, o = none := by
  have hnulls := nulls_congr hlm
  simp only [List.forall_mem_cons] at hnulls
  by_cases ha : a = none ∧ ∀ o ∈ l, o = none
  · exact .inr ⟨ha.1, ha.2, (hnulls.mp ha).2⟩
  · rw [shown_cons ha, shown_cons (mt hnulls.mpr ha)] at hlm
    exact .inl (List.cons.inj hlm).2

/-- Another item in place of the current one, null if that was null. -/
theorem shown_replace {a c : Option ℕ} {l m : List (Option ℕ)} (hc : a = none → c = none)
    (hlm : shown (a :: l) = shown (a :: m)) : shown (c :: l) = shown (c :: m) := by
  obtain htail | ⟨ha, hl, hm⟩ := shown_tail hlm
  · exact shown_cons_congr c htail
  · rw [hc ha, shown_nulls hl, shown_nulls hm]

theorem shown_eq_nil {l : List (Option ℕ)} : shown l = [] ↔ l = [] := by
  constructor
  · intro hl
    cases l with
    | nil => rfl
    | cons a l =>
      unfold shown at hl
      split at hl <;> cases hl
  · intro hl
    rw [hl]
    rfl

theorem shown_eq_self {l : List (Option ℕ)} (hl : none ∉ shown l) : shown l = l := by
  induction l with
  | nil => rfl
  | cons a l ih =>
    by_cases ha : a = none ∧ ∀ o ∈ l, o = none
    · rw [ha.1, shown_nulls ha.2] at hl
      exact absurd List.mem_cons_self hl
    · rw [shown_cons ha] at hl ⊢
      rw [ih fun hmem => hl (List.mem_cons_of_mem a hmem)]

theorem mem_of_mem_shown {l : List (Option ℕ)} {o : Option ℕ} (ho : o ∈ shown l) : o ∈ l := by
  induction l with
  | nil => exact ho
  | cons a l ih =>
    by_cases ha : a = none ∧ ∀ o ∈ l, o = none
    · rw [ha.1, shown_nulls ha.2] at ho
      rw [ha.1, List.mem_singleton.mp ho]
      exact List.mem_cons_self
    · rw [shown_cons ha] at ho
      exact (List.mem_cons.mp ho).elim (fun heq => heq ▸ List.mem_cons_self)
        fun hmem => List.mem_cons_of_mem a (ih hmem)

/-- The current item and the handles below it after `to_upper_level`. -/
def upper (a : Option ℕ) : List (Option ℕ) → List (Option ℕ)
  | [] => [a]
  | b :: l => b :: l

theorem toUpperLevel_upper (x : CJSon) :
    x.toUpperLevel.ih :: x.toUpperLevel.stack = upper x.ih x.stack := by
  unfold CJSon.toUpperLevel
  split
  · rename_i hstack
    simp [hstack, upper]
  · rename_i hstack
    simp [hstack, upper]

theorem shown_upper_nulls {l : List (Option ℕ)} (hl : ∀ o ∈ l, o = none) :
    shown (upper none l) = [none] := by
  cases l with
  | nil => rfl
  | cons b l =>
    obtain rfl : b = none := hl b List.mem_cons_self
    exact shown_nulls fun o ho => hl o (List.mem_cons_of_mem _ ho)

theorem shown_upper {a : Option ℕ} {l m : List (Option ℕ)}
    (hlm : shown (a :: l) = shown (a :: m)) : shown (upper a l) = shown (upper a m) := by
  obtain htail | ⟨rfl, hl, hm⟩ := shown_tail hlm
  · have hnil : l = [] ↔ m = [] := by rw [← shown_eq_nil, htail, shown_eq_nil]
    cases l with
    | nil => rw [hnil.mp rfl]
    | cons b l =>
      cases m with
      | nil => cases hnil.mpr rfl
      | cons c m => exact htail
  · rw [shown_upper_nulls hl, shown_upper_nulls hm]

/-! ## Objects that look alike -/

structure Alike (x y : CJSon) : Prop where
  root : x.root = y.root
  handles : shown (x.ih :: x.stack) = shown (y.ih :: y.stack)

section Alike
variable {print : Heap ν → ℕ → Text} {h : Heap ν} {x y : CJSon}

theorem Alike.ih (hxy : Alike x y) : x.ih = y.ih := shown_head hxy.handles

/-- Another current item over the same handles. -/
theorem Alike.replace (hxy : Alike x y) {c : Option ℕ} (hc : x.ih = none → c = none) :
    Alike { x with ih := c } { y with ih := c } where
  root := hxy.root
  handles := by
    have hhandles := hxy.handles
    rw [← hxy.ih] at hhandles
    exact shown_replace hc hhandles

/-- Another current item over the current one. -/
theorem Alike.push (hxy : Alike x y) (c : Option ℕ) :
    Alike { x with stack := x.ih :: x.stack, ih := c }
      { y with stack := y.ih :: y.stack, ih := c } where
  root := hxy.root
  handles := shown_cons_congr c hxy.handles

theorem Alike.upper (hxy : Alike x y) : Alike x.toUpperLevel y.toUpperLevel where
  root := by
    have hroot := hxy.root
    unfold CJSon.toUpperLevel
    split <;> split <;> exact hroot
  handles := by
    have hhandles := hxy.handles
    rw [← hxy.ih] at hhandles
    rw [toUpperLevel_upper, toUpperLevel_upper, ← hxy.ih]
    exact shown_upper hhandles

/-- A call takes objects that look alike to objects that look alike. -/
theorem Alike.go (hxy : Alike x y) (h : Heap ν) (call : Nav) :
    x.go h call = none ∧ y.go h call = none ∨
      ∃ x' y', x.go h call = some x' ∧ y.go h call = some y' ∧ Alike x' y' := by
  have hih := hxy.ih
  cases call with
  | getNextItem =>
    refine .inr ⟨_, _, rfl, rfl, ?_⟩
    simp only [CJSon.getNextItem, ← hih]
    exact hxy.replace fun hnull => by rw [hnull]; rfl
  | getPrevItem =>
    refine .inr ⟨_, _, rfl, rfl, ?_⟩
    simp only [CJSon.getPrevItem, ← hih]
    exact hxy.replace fun hnull => by rw [hnull]; rfl
  | getSubItem =>
    refine .inr ⟨_, _, rfl, rfl, ?_⟩
    simp only [CJSon.getSubItem, ← hih]
    cases hnull : x.ih with
    | none => exact hxy.replace fun _ => rfl
    | some p =>
      have hpush := hxy.push (h.getSubItem (some p))
      rw [← hih, hnull] at hpush
      exact hpush
  | getItemFromName name =>
    simp only [CJSon.go, CJSon.getItemFromName, ← hih]
    cases h.getItemFromName x.ih name with
    | none => exact .inl ⟨rfl, rfl⟩
    | some c =>
      have hpush := hxy.push c
      rw [← hih] at hpush
      exact .inr ⟨_, _, rfl, rfl, hpush⟩
  | getArrayItemFromPos pos =>
    refine .inr ⟨_, _, rfl, rfl, ?_⟩
    have hpush := hxy.push (h.getArrayItemFromPos x.ih pos)
    rw [← hih] at hpush
    simpa only [CJSon.getArrayItemFromPos, ← hih] using hpush
  | toUpperLevel => exact .inr ⟨_, _, rfl, rfl, hxy.upper⟩
  | getRoot =>
    refine .inr ⟨_, _, rfl, rfl, hxy.root, ?_⟩
    simp only [CJSon.getRoot, hxy.root]

theorem Alike.answers (hxy : Alike x y) (queries : List Query) :
    answers print h x queries = answers print h y queries := by
  induction queries generalizing x y with
  | nil => rfl
  | cons query queries ih =>
    cases query with
    | nav call =>
      obtain ⟨hx, hy⟩ | ⟨x', y', hx, hy, hxy'⟩ := hxy.go h call
      · simp only [Json.answers, hx, hy]
      · simp only [Json.answers, hx, hy, Option.bind_some, ih hxy', hxy'.ih]
    | encode => simp only [Json.answers, CJSon.encode, hxy.root, ih hxy]

/-! ## Objects that do not -/

variable (print h)

/-- The current item is seen by leaving it for no item and coming back. -/
theorem apart_ih (hne : x.ih ≠ y.ih) :
    ∃ queries, answers print h x queries ≠ answers print h y queries := by
  have hnone : ∀ a, h.getArrayItemFromPos a (-1) = none := by
    intro a
    cases a <;> rfl
  have hback : ∀ x : CJSon, answers print h x
      [.nav (.getArrayItemFromPos (-1)), .nav .toUpperLevel] =
      some [.item none, .item x.ih] := by
    intro x
    simp [answers, CJSon.go, CJSon.getArrayItemFromPos, hnone, CJSon.toUpperLevel]
  refine ⟨[.nav (.getArrayItemFromPos (-1)), .nav .toUpperLevel], ?_⟩
  rw [hback, hback]
  simpa using hne

theorem apart_upper
    (hupper : ∃ queries, answers print h x.toUpperLevel queries ≠
      answers print h y.toUpperLevel queries) :
    ∃ queries, answers print h x queries ≠ answers print h y queries := by
  obtain ⟨queries, hne⟩ := hupper
  refine ⟨.nav .toUpperLevel :: queries, fun heq => hne ?_⟩
  simp only [answers, CJSon.go, Option.bind_some] at heq
  cases hx : answers print h x.toUpperLevel queries with
  | none =>
    cases hy : answers print h y.toUpperLevel queries with
    | none => rfl
    | some bs => simp [hx, hy] at heq
  | some as =>
    cases hy : answers print h y.toUpperLevel queries with
    | none => simp [hx, hy] at heq
    | some bs =>
      simp only [hx, hy, Option.map_some] at heq
      rw [(List.cons.inj (Option.some.inj heq)).2]

/-- A stack that holds the current item once more is seen by leaving it sideways. -/
theorem apart_twice {p : ℕ} (hx : x.ih = some p) (hxs : x.stack = []) (hys : y.stack = [some p])
    (hnext : (h.mem p).next ≠ some p) :
    ∃ queries, answers print h x queries ≠ answers print h y queries := by
  refine ⟨[.nav .getNextItem, .nav .toUpperLevel], ?_⟩
  simp only [answers, CJSon.go, CJSon.getNextItem, CJSon.toUpperLevel, Heap.getNextItem, hx, hxs,
    hys, Option.bind_some, Option.map_some]
  intro heq
  simp only [Option.some.injEq, List.cons.injEq, Answer.item.injEq] at heq
  exact hnext heq.2.1

/-- An object without a stack. -/
theorem apart_nil (hxs : x.stack = []) (hnext : ∀ p, x.ih = some p → (h.mem p).next ≠ some p)
    (hne : shown (x.ih :: x.stack) ≠ shown (y.ih :: y.stack)) :
    ∃ queries, answers print h x queries ≠ answers print h y queries := by
  induction hys : y.stack generalizing y with
  | nil =>
    refine apart_ih print h fun hih => hne ?_
    rw [hxs, hys, hih]
  | cons b m ih =>
    by_cases hih : x.ih = y.ih
    · have hxu : x.toUpperLevel = x := by rw [CJSon.toUpperLevel, hxs]
      have hyu : y.toUpperLevel = { y with ih := b, stack := m } := by rw [CJSon.toUpperLevel, hys]
      by_cases htail : shown [x.ih] = shown (b :: m)
      · cases hx : x.ih with
        | none =>
          refine absurd ?_ hne
          have hnulls : ∀ o ∈ b :: m, o = none :=
            (nulls_congr htail).mp fun o ho => (List.mem_singleton.mp ho).trans hx
          rw [hxs, hys, ← hih, hx, shown_nulls hnulls]
          rfl
        | some p =>
          rw [hx] at htail
          have hm : m = [] := by
            have hb : some p = b := shown_head htail
            rw [← hb, shown_cons (by simp)] at htail
            exact shown_eq_nil.mp (by simpa [shown] using htail)
          have hb : b = some p := (shown_head htail).symm
          exact apart_twice print h hx hxs (by rw [hys, hb, hm]) (hnext p hx)
      · refine apart_upper print h ?_
        rw [hxu, hyu]
        refine ih ?_ rfl
        rw [hxs]
        exact htail
    · exact apart_ih print h hih

theorem apart_handles
    (hnext : ∀ p, some p ∈ x.ih :: x.stack ∨ some p ∈ y.ih :: y.stack → (h.mem p).next ≠ some p)
    (hne : shown (x.ih :: x.stack) ≠ shown (y.ih :: y.stack)) :
    ∃ queries, answers print h x queries ≠ answers print h y queries := by
  induction hxs : x.stack generalizing x y with
  | nil => exact apart_nil print h hxs (fun p hp => hnext p (.inl (by simp [hp]))) hne
  | cons a l ih =>
    cases hys : y.stack with
    | nil =>
      obtain ⟨queries, hq⟩ :=
        apart_nil print h hys (fun p hp => hnext p (.inr (by simp [hp]))) hne.symm
      exact ⟨queries, hq.symm⟩
    | cons b m =>
      by_cases hih : x.ih = y.ih
      · have hxu : x.toUpperLevel = { x with ih := a, stack := l } := by
          rw [CJSon.toUpperLevel, hxs]
        have hyu : y.toUpperLevel = { y with ih := b, stack := m } := by
          rw [CJSon.toUpperLevel, hys]
        refine apart_upper print h ?_
        rw [hxu, hyu]
        refine ih (fun p hp => hnext p ?_) (fun htail => hne ?_) rfl
        · rw [hxs, hys]
          exact hp.imp (List.mem_cons_of_mem _) (List.mem_cons_of_mem _)
        · rw [hxs, hys, hih]
          exact shown_cons_congr _ htail
      · exact apart_ih print h hih

variable {h}

/-- Two objects over a document answer every sequence alike when they look alike, and only then. -/
theorem answers_alike (hs : h.Sound) (hx : x.Within h) (hy : ∀ o ∈ y.ih :: y.stack, h.Holds o) :
    (∀ queries, answers print h x queries = answers print h y queries) ↔ Alike x y := by
  refine ⟨fun heq => ⟨?_, ?_⟩, fun hxy => hxy.answers⟩
  · have hroot := heq [.nav .getRoot]
    simpa [answers, CJSon.go, CJSon.getRoot] using hroot
  · by_contra hne
    have hnext : ∀ p, some p ∈ x.ih :: x.stack ∨ some p ∈ y.ih :: y.stack →
        (h.mem p).next ≠ some p := by
      intro p hp hnext
      have hp : p < h.fresh := by
        obtain hp | hp := hp
        · obtain hp | hp := List.mem_cons.mp hp
          · exact hx.ih p hp.symm
          · exact hx.stack _ hp p rfl
        · exact hy _ hp p rfl
      exact absurd ((hs p hp).next p hnext).1 (Nat.lt_irrefl p)
    obtain ⟨queries, hq⟩ := apart_handles print h hnext hne
    exact hq (heq queries)

end Alike

/-! ## Saving and restoring -/

section Saved
variable {h : Heap ν} {x x' : CJSon}

theorem go_root {call : Nav} (hgo : x.go h call = some x') : x'.root = x.root := by
  cases call with
  | getItemFromName name =>
    obtain ⟨ih, -, rfl⟩ := Option.map_eq_some_iff.mp hgo
    rfl
  | toUpperLevel =>
    obtain rfl := Option.some.inj hgo
    unfold CJSon.toUpperLevel
    split <;> rfl
  | _ =>
    obtain rfl := Option.some.inj hgo
    rfl

theorem CJSon.Within.holds (hx : x.Within h) : ∀ o ∈ x.ih :: x.stack, h.Holds o :=
  List.forall_mem_cons.mpr ⟨hx.ih, hx.stack⟩

/-- Navigation calls return, and no one of them changes the root. -/
theorem run_go_within (hs : h.Sound) (hx : x.Within h) (calls : List Nav) :
    ∃ x', run (CJSon.go h) x calls = some x' ∧ x'.Within h ∧ x'.root = x.root := by
  induction calls generalizing x with
  | nil => exact ⟨x, rfl, hx, rfl⟩
  | cons call calls ih =>
    obtain ⟨x₁, hgo, hx₁⟩ := CJSon.go_within hs hx call
    obtain ⟨x', hrun, hx', hroot⟩ := ih hx₁
    refine ⟨x', ?_, hx', hroot.trans (go_root hgo)⟩
    rw [run, hgo]
    exact hrun

end Saved

/-- An object restored from its copy answers as before exactly when the stack left by the calls
shows what the stack before them showed. -/
theorem restored_iff_shown {x x' : CJSon} (print : Heap ν → ℕ → Text) {h : Heap ν} (hs : h.Sound)
    (hx : x.Within h) (hx' : x'.Within h) (hroot : x'.root = x.root) (junk : Option ℕ) :
    (∀ queries, answers print h (x'.assign (CJSon.copy junk x)) queries =
        answers print h x queries) ↔ shown (x.ih :: x'.stack) = shown (x.ih :: x.stack) := by
  have hrestored : (x'.assign (CJSon.copy junk x)).Within h := ⟨hx'.root, hx.ih, hx'.stack⟩
  rw [answers_alike print hs hrestored hx.holds]
  exact ⟨fun halike => halike.handles, fun hshown => ⟨hroot, hshown⟩⟩

/-- The calls come back to the level of `x`: apart from detours they go down again from the items of
the levels beyond which they have gone up. Nulls at the bottom of the stack count as one. -/
def Returns (h : Heap ν) (x : CJSon) (calls : List Nav) : Prop :=
  ∃ y k items, Course h x calls k items y ∧
    shown (x.ih :: (items ++ x.stack.drop k)) = shown (x.ih :: (x.stack.take k ++ x.stack.drop k))

/-- Descents each with their `to_upper_level` come back. -/
theorem Detour.returns {h : Heap ν} {x y : CJSon} {calls : List Nav} (hd : Detour h x calls y) :
    Returns h x calls :=
  ⟨y, 0, [], .detour hd, rfl⟩

theorem returns_iff_shown {h : Heap ν} {x x' : CJSon} {calls : List Nav}
    (hrun : run (CJSon.go h) x calls = some x') :
    Returns h x calls ↔ shown (x.ih :: x'.stack) = shown (x.ih :: x.stack) := by
  constructor
  · rintro ⟨y, k, items, hc, hshown⟩
    obtain rfl : x' = y := Option.some.inj (hrun.symm.trans hc.run)
    rw [hc.stack, hshown, List.take_append_drop]
  · intro hshown
    obtain ⟨k, items, hc⟩ := exists_course hrun
    refine ⟨x', k, items, hc, ?_⟩
    rw [← hc.stack, hshown, List.take_append_drop]

/-- Where no handle is null, the calls go down again by exactly the items saved for the levels beyond
which they have gone up. -/
theorem returns_iff_take {h : Heap ν} {x : CJSon} {calls : List Nav}
    (hx : none ∉ x.ih :: x.stack) :
    Returns h x calls ↔ ∃ y k, Course h x calls k (x.stack.take k) y := by
  constructor
  · rintro ⟨y, k, items, hc, hshown⟩
    rw [List.take_append_drop, shown_eq_self (mt mem_of_mem_shown hx)] at hshown
    rw [shown_eq_self (hshown ▸ hx)] at hshown
    have htake : items ++ x.stack.drop k = x.stack.take k ++ x.stack.drop k :=
      (List.cons.inj hshown).2.trans (List.take_append_drop k x.stack).symm
    rw [List.append_cancel_right htake] at hc
    exact ⟨y, k, hc⟩
  · rintro ⟨y, k, hc⟩
    exact ⟨y, k, x.stack.take k, hc, rfl⟩

/-- **Save and restore.** An object restored from its copy answers every later sequence as it would
have before the calls exactly when the calls come back to its level; the copy answers as the object
exactly when its uninitialised root happens to be the root and the stack that it lacks shows
nothing. -/
theorem saved_by_copy (print : Heap ν → ℕ → Text) (h : Heap ν) (x : CJSon) (junk : Option ℕ)
    (calls : List Nav) (hs : h.Sound) (hx : x.Within h) :
    ∃ x', run (CJSon.go h) x calls = some x' ∧
      (x'.assign (CJSon.copy junk x)).Within h ∧
      ((∀ queries, answers print h (x'.assign (CJSon.copy junk x)) queries =
          answers print h x queries) ↔ Returns h x calls) ∧
      ((∀ queries, answers print h (CJSon.copy junk x) queries = answers print h x queries) ↔
        junk = x.root ∧ shown [x.ih] = shown (x.ih :: x.stack)) := by
  obtain ⟨x', hrun, hx', hroot⟩ := run_go_within hs hx calls
  have hrestored : (x'.assign (CJSon.copy junk x)).Within h := ⟨hx'.root, hx.ih, hx'.stack⟩
  refine ⟨x', hrun, hrestored, ?_, ?_⟩
  · rw [restored_iff_shown print hs hx hx' hroot junk, returns_iff_shown hrun]
  · have hcopy : ∀ o ∈ [x.ih], h.Holds o := fun o ho => List.mem_singleton.mp ho ▸ hx.ih
    have hswap : (∀ queries, answers print h (CJSon.copy junk x) queries =
        answers print h x queries) ↔
        ∀ queries, answers print h x queries = answers print h (CJSon.copy junk x) queries :=
      ⟨fun heq queries => (heq queries).symm, fun heq queries => (heq queries).symm⟩
    rw [hswap, answers_alike print hs hx hcopy]
    exact ⟨fun halike => ⟨halike.root.symm, halike.handles.symm⟩,
      fun hsame => ⟨hsame.1.symm, hsame.2.symm⟩⟩

/-- A document with a root alone, and a look below it. -/
theorem saved_by_copy_root :
    ∃ x', run (CJSon.go ((.empty : Heap ℕ).createObject).2) ⟨some 0, some 0, []⟩
        [.getSubItem, .toUpperLevel] = some x' ∧
      ∀ queries, answers (fun _ _ => []) ((.empty : Heap ℕ).createObject).2
          (x'.assign (CJSon.copy none ⟨some 0, some 0, []⟩)) queries =
        answers (fun _ _ => []) ((.empty : Heap ℕ).createObject).2 ⟨some 0, some 0, []⟩ queries := by
  have hsound := Builder.newItem_sound (Builder.init_sound (ν := ℕ))
    (r := (.empty : Heap ℕ).createObject) (Heap.makes_newItem _ rfl rfl rfl)
  have hdetour : Detour ((.empty : Heap ℕ).createObject).2 ⟨some 0, some 0, []⟩
      [.getSubItem, .toUpperLevel] ⟨some 0, some 0, []⟩ :=
    Detour.nest rfl rfl (.done ⟨some 0, none, [some 0]⟩) (.done _)
  obtain ⟨x', hrun, -, hrestored, -⟩ := saved_by_copy (fun _ _ => [])
    ((.empty : Heap ℕ).createObject).2 ⟨some 0, some 0, []⟩ none [.getSubItem, .toUpperLevel]
    hsound.heap hsound.obj
  exact ⟨x', hrun, hrestored.mpr hdetour.returns⟩

/-- `{"a":{"b":{}}}`, at the root: after a look at `b` and the restore, `to_upper_level` leads to `a`
and not back to the root; and `get_root` of the copy leads to what its `root_` happened to hold. -/
theorem restored_with_handles :
    ∃ (b : Builder ℕ) (x' : CJSon),
      run (Builder.step fun _ _ => none) .init
        [.newRoot, .newObject ['a'], .newObject ['b'], .nav .getRoot] = some b ∧
      run (CJSon.go b.heap) b.obj [.getSubItem, .getSubItem] = some x' ∧
      answers (fun _ _ => []) b.heap b.obj [.nav .toUpperLevel] = some [.item (some 0)] ∧
      answers (fun _ _ => []) b.heap (x'.assign (CJSon.copy none b.obj)) [.nav .toUpperLevel] =
        some [.item (some 1)] ∧
      answers (fun _ _ => []) b.heap b.obj [.nav .getRoot] = some [.item (some 0)] ∧
      answers (fun _ _ => []) b.heap (CJSon.copy none b.obj) [.nav .getRoot] =
        some [.item none] :=
  ⟨_, _, rfl, rfl, rfl, rfl, rfl, rfl⟩

end DevFramework.Json
