import DevFramework.Foundations.RegExp
import Mathlib.Data.List.Dedup
import Mathlib.Data.List.Induction

/-! # Scanners driven by tables

A generated scanner runs an automaton over classes of items and takes the longest front part of its
text that a rule matches, and of the rules that match it the first. Whether the tables of an
automaton do what the rules say is a finite check: for each state, what is left to match of each
rule, as a list of patterns over the classes.
-/
namespace DevFramework.Rules
set_option autoImplicit false
set_option maxHeartbeats 250000

variable {α : Type*}

/-! ## Rules over classes -/

/-- A rule over classes of items, which are numbered. -/
inductive Pattern where
  | empty
  | one (classes : List ℕ)
  | seq (p q : Pattern)
  | alt (p q : Pattern)
  | star (p : Pattern)
  deriving DecidableEq

namespace Pattern

def plus (p : Pattern) : Pattern := seq p (star p)

/-- One item of each of these classes. -/
def word : List ℕ → Pattern
  | [] => empty
  | k :: l => seq (one [k]) (word l)

/-- The rule over items that have these classes. -/
def regExp (cls : α → ℕ) : Pattern → RegExp α
  | empty => .empty
  | one classes => .one fun a => decide (cls a ∈ classes)
  | seq p q => .seq (p.regExp cls) (q.regExp cls)
  | alt p q => .alt (p.regExp cls) (q.regExp cls)
  | star p => .star (p.regExp cls)

def nullable : Pattern → Bool
  | empty => true
  | one _ => false
  | seq p q => p.nullable && q.nullable
  | alt p q => p.nullable || q.nullable
  | star _ => true

/-- `q` behind what is left of a pattern. -/
def chain (q : Pattern) : Pattern → Pattern
  | empty => q
  | p => seq p q

/-- What may be left to match behind an item of class `k`. -/
def after (k : ℕ) : Pattern → List Pattern
  | empty => []
  | one classes => if k ∈ classes then [empty] else []
  | seq p q => (p.after k).map (chain q) ++ if p.nullable then q.after k else []
  | alt p q => p.after k ++ q.after k
  | star p => (p.after k).map (chain (star p))

end Pattern

open Pattern RegExp

section Patterns
variable {cls : α → ℕ} {p q : Pattern} {a : α} {w : List α}

theorem regExp_seq : (Pattern.seq p q).regExp cls = .seq (p.regExp cls) (q.regExp cls) := rfl

theorem regExp_alt : (Pattern.alt p q).regExp cls = .alt (p.regExp cls) (q.regExp cls) := rfl

theorem regExp_star : (Pattern.star p).regExp cls = .star (p.regExp cls) := rfl

theorem regExp_plus : (Pattern.plus p).regExp cls = .plus (p.regExp cls) := rfl

theorem nullable_regExp (p : Pattern) : (p.regExp cls).nullable = p.nullable := by
  induction p with
  | empty => rfl
  | one classes => rfl
  | seq p q ihp ihq => rw [regExp, RegExp.nullable, ihp, ihq, Pattern.nullable]
  | alt p q ihp ihq => rw [regExp, RegExp.nullable, ihp, ihq, Pattern.nullable]
  | star p _ => rfl

theorem matches_chain : Matches ((chain q p).regExp cls) w ↔
    ∃ u v, w = u ++ v ∧ Matches (p.regExp cls) u ∧ Matches (q.regExp cls) v := by
  have hseq : Matches ((Pattern.seq p q).regExp cls) w ↔
      ∃ u v, w = u ++ v ∧ Matches (p.regExp cls) u ∧ Matches (q.regExp cls) v := matches_seq
  cases p with
  | empty =>
    constructor
    · exact fun h => ⟨[], w, rfl, .empty, h⟩
    · rintro ⟨u, v, rfl, hu, hv⟩
      rw [matches_empty.mp hu]
      exact hv
  | one classes => exact hseq
  | seq p₁ p₂ => exact hseq
  | alt p₁ p₂ => exact hseq
  | star p => exact hseq

theorem matches_chains {l : List Pattern} :
    (∃ r ∈ l.map (chain q), Matches (r.regExp cls) w) ↔
      ∃ u v, w = u ++ v ∧ (∃ r ∈ l, Matches (r.regExp cls) u) ∧ Matches (q.regExp cls) v := by
  simp only [List.mem_map, exists_exists_and_eq_and, matches_chain]
  constructor
  · rintro ⟨r, hr, u, v, hw, hu, hv⟩
    exact ⟨u, v, hw, ⟨r, hr, hu⟩, hv⟩
  · rintro ⟨u, v, hw, ⟨r, hr, hu⟩, hv⟩
    exact ⟨r, hr, u, v, hw, hu, hv⟩

/-- A word is matched if what is left behind its first item is. -/
theorem matches_after : Matches (p.regExp cls) (a :: w) ↔
    ∃ q ∈ p.after (cls a), Matches (q.regExp cls) w := by
  induction p generalizing w with
  | empty => exact iff_of_false (by simp [regExp, matches_empty]) (by simp [after])
  | one classes =>
    rw [regExp, matches_one, after]
    split_ifs with hmem
    · simp only [List.mem_singleton, exists_eq_left, regExp, matches_empty]
      constructor
      · rintro ⟨b, -, hw⟩
        exact (List.cons.inj hw).2
      · rintro rfl
        exact ⟨a, decide_eq_true hmem, rfl⟩
    · refine iff_of_false ?_ (by simp)
      rintro ⟨b, hb, hw⟩
      obtain rfl := (List.cons.inj hw).1
      exact hmem (of_decide_eq_true hb)
  | seq p q ihp ihq =>
    rw [regExp, matches_seq_cons, ihq, after, ← nullable_iff, nullable_regExp]
    simp only [ihp, ← matches_chains]
    cases p.nullable <;> simp [or_and_right, exists_or]
  | alt p q ihp ihq =>
    rw [regExp, matches_alt, ihp, ihq, after]
    simp [or_and_right, exists_or]
  | star p ih =>
    rw [regExp, matches_star_cons, after, matches_chains]
    simp only [ih]
    rfl

end Patterns

/-! ## What is left to match -/

/-- For each rule the patterns of which one has to match the rest. -/
abbrev Left := List (List Pattern)

/-- Nothing has to follow. -/
def mayEnd (ps : List Pattern) : Bool := ps.any Pattern.nullable

namespace Left

def start (rules : List Pattern) : Left := rules.map fun p => [p]

def after (k : ℕ) (l : Left) : Left := l.map fun ps => (ps.flatMap (Pattern.after k)).dedup

/-- Counted from one, the first rule that is matched with nothing more; 0 if there is none. -/
def first (l : Left) : ℕ :=
  let i := l.findIdx mayEnd
  if i < l.length then i + 1 else 0

/-- No rule can be matched any more. -/
def isOver (l : Left) : Bool := l.all List.isEmpty

end Left

/-- Behind `w` this is left of the rules. -/
def Leaves (cls : α → ℕ) (rules : List Pattern) (w : List α) (l : Left) : Prop :=
  List.Forall₂ (fun p ps => ∀ v, Matches (p.regExp cls) (w ++ v) ↔
    ∃ q ∈ ps, Matches (q.regExp cls) v) rules l

section Leaving
variable {cls : α → ℕ} {rules : List Pattern} {w : List α} {l : Left}

theorem leaves_start (cls : α → ℕ) (rules : List Pattern) : Leaves cls rules [] (.start rules) := by
  induction rules with
  | nil => exact .nil
  | cons p rules ih => exact .cons (fun v => by simp) ih

theorem Leaves.after (h : Leaves cls rules w l) (a : α) :
    Leaves cls rules (w ++ [a]) (l.after (cls a)) := by
  induction h with
  | nil => exact .nil
  | @cons p ps rules l hp _ ih =>
    refine .cons (fun v => ?_) ih
    rw [List.append_assoc, List.singleton_append, hp]
    simp only [matches_after, List.mem_dedup, List.mem_flatMap]
    constructor
    · rintro ⟨q, hq, r, hr, hv⟩
      exact ⟨r, ⟨q, hq, hr⟩, hv⟩
    · rintro ⟨r, ⟨q, hq, hr⟩, hv⟩
      exact ⟨q, hq, r, hr, hv⟩

theorem Leaves.isOver (h : Leaves cls rules w l) (hover : l.isOver = true) {p : Pattern}
    (hp : p ∈ rules) (v : List α) : ¬ Matches (p.regExp cls) (w ++ v) := by
  induction h with
  | nil => cases hp
  | @cons p' ps rules l hhead _ ih =>
    rw [Left.isOver, List.all_cons, Bool.and_eq_true] at hover
    obtain rfl | htail := List.mem_cons.mp hp
    · rw [hhead, List.isEmpty_iff.mp hover.1]
      rintro ⟨q, hq, -⟩
      cases hq
    · exact ih hover.2 htail

/-- A rule is matched if what is left of it may be nothing. -/
theorem Leaves.matches_iff (h : Leaves cls rules w l) {i : ℕ} {p : Pattern}
    (hp : rules[i]? = some p) : Matches (p.regExp cls) w ↔
      ∃ ps, l[i]? = some ps ∧ mayEnd ps = true := by
  induction h generalizing i with
  | nil => cases hp
  | @cons p' ps rules l hhead _ ih =>
    cases i with
    | zero =>
      obtain rfl : p' = p := Option.some.inj hp
      have hnil := hhead []
      rw [List.append_nil] at hnil
      simp only [hnil, ← nullable_iff, nullable_regExp, List.getElem?_cons_zero, Option.some.injEq,
        exists_eq_left', mayEnd, List.any_eq_true]
    | succ i => exact ih hp

end Leaving

/-! ## Items that a rule cannot match -/

/-- No class of the rule has `a` in it. -/
def RegExp.lacks (a : α) : RegExp α → Bool
  | .nothing => true
  | .empty => true
  | .one p => !p a
  | .seq r s => r.lacks a && s.lacks a
  | .alt r s => r.lacks a && s.lacks a
  | .star r => r.lacks a

theorem not_mem_of_lacks {a : α} {r : RegExp α} {w : List α} (h : Matches r w)
    (hr : r.lacks a = true) : a ∉ w := by
  induction h with
  | empty => exact List.not_mem_nil
  | @one p b hb =>
    rw [List.mem_singleton]
    rintro rfl
    rw [RegExp.lacks, hb] at hr
    cases hr
  | seq _ _ ihu ihv =>
    rw [RegExp.lacks, Bool.and_eq_true] at hr
    rw [List.mem_append, not_or]
    exact ⟨ihu hr.1, ihv hr.2⟩
  | left _ ih =>
    rw [RegExp.lacks, Bool.and_eq_true] at hr
    exact ih hr.1
  | right _ ih =>
    rw [RegExp.lacks, Bool.and_eq_true] at hr
    exact ih hr.2
  | starNil => exact List.not_mem_nil
  | starMore _ _ ihu ihv =>
    rw [List.mem_append, not_or]
    exact ⟨ihu hr, ihv hr⟩

/-! ## The front of a text -/

/-- `u` is what a scanner takes from the front of the text, by the rule with this number: no rule
matches more, and no rule before this one matches `u`. -/
structure Munch (rules : List (RegExp α)) (text : List α) (k : ℕ) (u : List α) : Prop where
  front : u <+: text
  rule : ∃ r, rules[k]? = some r ∧ Matches r u
  longest : ∀ r ∈ rules, ∀ v, v <+: text → Matches r v → v.length ≤ u.length
  first : ∀ j < k, ∀ r, rules[j]? = some r → ¬ Matches r u

theorem Munch.unique {rules : List (RegExp α)} {text u u' : List α} {k k' : ℕ}
    (h : Munch rules text k u) (h' : Munch rules text k' u') : k = k' ∧ u = u' := by
  obtain ⟨r, hr, hm⟩ := h.rule
  obtain ⟨r', hr', hm'⟩ := h'.rule
  have hlen : u.length = u'.length := Nat.le_antisymm
    (h'.longest r (List.mem_of_getElem? hr) u h.front hm)
    (h.longest r' (List.mem_of_getElem? hr') u' h'.front hm')
  obtain rfl : u = u' := by
    rw [List.prefix_iff_eq_take.mp h.front, List.prefix_iff_eq_take.mp h'.front, hlen]
  refine ⟨?_, rfl⟩
  rcases Nat.lt_trichotomy k k' with hlt | heq | hlt
  · exact absurd hm (h'.first k hlt r hr)
  · exact heq
  · exact absurd hm' (h.first k' hlt r' hr')

/-! ## Tables -/

/-- The automaton of a scanner: `accept` is the number of the rule that a state stands for, counted
from one, and 0 where it stands for none. -/
structure Tables where
  next : ℕ → ℕ → ℕ
  accept : ℕ → ℕ
  start : ℕ
  jam : ℕ

/-- How far a scanner has come, and where the last rule was matched. -/
structure Progress where
  state : ℕ
  length : ℕ
  best : ℕ × ℕ

namespace Tables
variable (T : Tables) (cls : α → ℕ)

def run (w : List α) : ℕ := w.foldl (fun s a => T.next s (cls a)) T.start

def advance (p : Progress) (a : α) : Progress :=
  let s := T.next p.state (cls a)
  ⟨s, p.length + 1, if T.accept s = 0 then p.best else (T.accept s, p.length + 1)⟩

def progress (w : List α) : Progress := w.foldl (T.advance cls) ⟨T.start, 0, 0, 0⟩

/-- The rule that is matched last, and how much it matches. -/
def best (w : List α) : ℕ × ℕ := (T.progress cls w).best

/-- What the tables have to do, state by state. -/
structure Implements (classes : List ℕ) (rules : List Pattern) (states : List ℕ)
    (left : ℕ → Left) : Prop where
  start : T.start ∈ states ∧ left T.start = .start rules
  next : ∀ s ∈ states, ∀ k ∈ classes, T.next s k ∈ states ∧ left (T.next s k) = (left s).after k
  accept : ∀ s ∈ states, T.accept s = (left s).first
  jam : ∀ s ∈ states, s = T.jam ↔ (left s).isOver = true
  idle : T.accept T.start = 0

end Tables

theorem Left.first_eq_succ {l : Left} {k : ℕ} : l.first = k + 1 ↔
    (∃ ps, l[k]? = some ps ∧ mayEnd ps = true) ∧
      ∀ j < k, ∀ ps, l[j]? = some ps → ¬ mayEnd ps = true := by
  unfold Left.first
  by_cases hlt : l.findIdx mayEnd < l.length
  · simp only [hlt, if_true, Nat.add_right_cancel_iff]
    have hmatch : mayEnd l[l.findIdx mayEnd] = true := List.findIdx_getElem
    have hbefore : ∀ j < l.findIdx mayEnd, ∀ ps, l[j]? = some ps →
        ¬ mayEnd ps = true := by
      intro j hj ps hps
      obtain ⟨hj', rfl⟩ := List.getElem?_eq_some_iff.mp hps
      exact Bool.not_eq_true _ ▸ List.not_of_lt_findIdx hj
    constructor
    · rintro rfl
      exact ⟨⟨_, List.getElem?_eq_getElem hlt, hmatch⟩, hbefore⟩
    · rintro ⟨⟨ps, hps, hnull⟩, hnone⟩
      rcases Nat.lt_trichotomy (l.findIdx mayEnd) k with h | h | h
      · exact absurd hmatch (hnone _ h _ (List.getElem?_eq_getElem hlt))
      · exact h
      · exact absurd hnull (hbefore k h ps hps)
  · simp only [hlt, if_false]
    refine iff_of_false (Nat.succ_ne_zero k).symm ?_
    rintro ⟨⟨ps, hps, hnull⟩, -⟩
    exact hlt (List.findIdx_lt_length.mpr ⟨ps, List.mem_of_getElem? hps, hnull⟩)

theorem Left.first_pos {l : Left} {ps : List Pattern} (hps : ps ∈ l)
    (hnull : mayEnd ps = true) : l.first ≠ 0 := by
  have hlt := List.findIdx_lt_length.mpr ⟨ps, hps, hnull⟩
  unfold Left.first
  simp [hlt]

namespace Tables
variable {T : Tables} {cls : α → ℕ} {classes : List ℕ} {rules : List Pattern} {states : List ℕ}
  {left : ℕ → Left} {w : List α}

theorem run_concat (w : List α) (a : α) : T.run cls (w ++ [a]) = T.next (T.run cls w) (cls a) := by
  rw [run, List.foldl_append]
  rfl

theorem progress_concat (w : List α) (a : α) :
    T.progress cls (w ++ [a]) = T.advance cls (T.progress cls w) a := by
  rw [progress, List.foldl_append]
  rfl

theorem progress_state (T : Tables) (cls : α → ℕ) (w : List α) :
    (T.progress cls w).state = T.run cls w ∧ (T.progress cls w).length = w.length := by
  induction w using List.reverseRecOn with
  | nil => exact ⟨rfl, rfl⟩
  | append_singleton w a ih =>
    rw [progress_concat, run_concat, ← ih.1, List.length_append, ← ih.2]
    exact ⟨rfl, rfl⟩

theorem best_concat (w : List α) (a : α) : T.best cls (w ++ [a]) =
    if T.accept (T.run cls (w ++ [a])) = 0 then T.best cls w
    else (T.accept (T.run cls (w ++ [a])), w.length + 1) := by
  obtain ⟨hstate, hlength⟩ := progress_state T cls w
  rw [best, progress_concat, run_concat, ← hstate, ← hlength]
  rfl

/-- Behind `best` no state stands for a rule. -/
theorem best_spec (T : Tables) (cls : α → ℕ) (w : List α) :
    (T.best cls w).2 ≤ w.length ∧
      ((T.best cls w).1 ≠ 0 → T.accept (T.run cls (w.take (T.best cls w).2)) = (T.best cls w).1) ∧
      ∀ m, (T.best cls w).2 < m → m ≤ w.length → T.accept (T.run cls (w.take m)) = 0 := by
  induction w using List.reverseRecOn with
  | nil =>
    exact ⟨Nat.le_refl 0, fun h => absurd rfl h, fun m hm hm' => absurd hm (Nat.not_lt_of_le hm')⟩
  | append_singleton w a ih =>
    obtain ⟨hle, hrule, hbehind⟩ := ih
    have hlen : (w ++ [a]).length = w.length + 1 := List.length_append
    have hwhole : (w ++ [a]).take (w.length + 1) = w ++ [a] := by
      rw [← hlen, List.take_length]
    have hfront : ∀ m ≤ w.length, (w ++ [a]).take m = w.take m := fun m hm =>
      List.take_append_of_le_length hm
    rw [best_concat]
    split_ifs with hzero
    · refine ⟨by omega, fun hk => ?_, fun m hm hm' => ?_⟩
      · rw [hfront _ hle]
        exact hrule hk
      · obtain hlt | rfl : m ≤ w.length ∨ m = w.length + 1 := by omega
        · rw [hfront m hlt]
          exact hbehind m hm hlt
        · rw [hwhole]
          exact hzero
    · refine ⟨by omega, fun _ => by rw [hwhole], fun m hm hm' => absurd hm (by omega)⟩

theorem Implements.leaves (h : T.Implements classes rules states left)
    (hcls : ∀ a, cls a ∈ classes) (w : List α) :
    T.run cls w ∈ states ∧ Leaves cls rules w (left (T.run cls w)) := by
  induction w using List.reverseRecOn with
  | nil =>
    refine ⟨h.start.1, ?_⟩
    rw [show T.run cls [] = T.start from rfl, h.start.2]
    exact leaves_start cls rules
  | append_singleton w a ih =>
    obtain ⟨hstate, hleft⟩ := h.next _ ih.1 _ (hcls a)
    rw [run_concat, hleft]
    exact ⟨hstate, ih.2.after a⟩

/-- A state stands for the first of the rules that match what has been read. -/
theorem Implements.accept_run (h : T.Implements classes rules states left)
    (hcls : ∀ a, cls a ∈ classes) {w : List α} {k : ℕ} (hk : T.accept (T.run cls w) = k + 1) :
    (∃ p, rules[k]? = some p ∧ Matches (p.regExp cls) w) ∧
      ∀ j < k, ∀ p, rules[j]? = some p → ¬ Matches (p.regExp cls) w := by
  obtain ⟨hstate, hleaves⟩ := h.leaves hcls w
  rw [h.accept _ hstate] at hk
  obtain ⟨⟨ps, hps, hnull⟩, hbefore⟩ := Left.first_eq_succ.mp hk
  constructor
  · have hlt : k < rules.length := by
      rw [hleaves.length_eq]
      exact (List.getElem?_eq_some_iff.mp hps).1
    have hrule := List.getElem?_eq_getElem hlt
    exact ⟨_, hrule, (hleaves.matches_iff hrule).mpr ⟨ps, hps, hnull⟩⟩
  · intro j hj p hp hmatch
    obtain ⟨qs, hqs, hnull'⟩ := (hleaves.matches_iff hp).mp hmatch
    exact hbefore j hj qs hqs hnull'

theorem Implements.accept_pos (h : T.Implements classes rules states left)
    (hcls : ∀ a, cls a ∈ classes) {w : List α} {p : Pattern} (hp : p ∈ rules)
    (hmatch : Matches (p.regExp cls) w) : T.accept (T.run cls w) ≠ 0 := by
  obtain ⟨hstate, hleaves⟩ := h.leaves hcls w
  obtain ⟨i, hi⟩ := List.getElem?_of_mem hp
  obtain ⟨ps, hps, hnull⟩ := (hleaves.matches_iff hi).mp hmatch
  rw [h.accept _ hstate]
  exact Left.first_pos (List.mem_of_getElem? hps) hnull

/-- Tables that implement the rules take from a text what the rules take. -/
theorem Implements.munch (h : T.Implements classes rules states left)
    (hcls : ∀ a, cls a ∈ classes) {text : List α} {k n : ℕ}
    (hbest : T.best cls text = (k + 1, n)) :
    Munch (rules.map (Pattern.regExp cls)) text k (text.take n) := by
  obtain ⟨hle, hrule, hbehind⟩ := best_spec T cls text
  rw [hbest] at hle hrule hbehind
  obtain ⟨⟨p, hp, hmatch⟩, hfirst⟩ := h.accept_run hcls (hrule (Nat.succ_ne_zero k))
  refine ⟨List.take_prefix _ _, ⟨p.regExp cls, by rw [List.getElem?_map, hp]; rfl, hmatch⟩, ?_, ?_⟩
  · intro r hr v hv hmatch'
    obtain ⟨q, hq, rfl⟩ := List.mem_map.mp hr
    rw [List.length_take, Nat.min_eq_left hle]
    by_contra hlong
    have hstop := hbehind v.length (Nat.lt_of_not_le hlong) hv.length_le
    rw [← List.prefix_iff_eq_take.mp hv] at hstop
    exact h.accept_pos hcls hq hmatch' hstop
  · intro j hj r hr
    rw [List.getElem?_map] at hr
    obtain ⟨q, hq, rfl⟩ := Option.map_eq_some_iff.mp hr
    exact hfirst j hj q hq

/-- Behind a jam nothing is matched. -/
theorem Implements.best_jam (h : T.Implements classes rules states left)
    (hcls : ∀ a, cls a ∈ classes) {w : List α} (hjam : T.run cls w = T.jam) (v : List α) :
    T.best cls (w ++ v) = T.best cls w := by
  obtain ⟨hstate, hleaves⟩ := h.leaves hcls w
  have hover := (h.jam _ hstate).mp hjam
  induction v using List.reverseRecOn with
  | nil => rw [List.append_nil]
  | append_singleton v a ih =>
    rw [← List.append_assoc, best_concat, if_pos, ih]
    cases haccept : T.accept (T.run cls (w ++ v ++ [a])) with
    | zero => rfl
    | succ k =>
      obtain ⟨⟨p, hp, hmatch⟩, -⟩ := h.accept_run hcls haccept
      rw [List.append_assoc] at hmatch
      exact absurd hmatch (hleaves.isOver hover (List.mem_of_getElem? hp) _)

end Tables

end DevFramework.Rules
