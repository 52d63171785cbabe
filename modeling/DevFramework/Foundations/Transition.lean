import Mathlib.Data.List.Basic
import Mathlib.Tactic.Common

/-! # Runs of a partial step function

A system is a function `step : σ → α → Option σ`: in state `s` the action `a` is possible exactly
when `step s a` is `some`. Everything nondeterministic (which thread moves, what a peer sends, how
much of a write has left the machine) is in the action. `Reach step ok s t` says that `t` is
reached from `s` by finitely many steps, each allowed by the guard `ok` in the state it starts
from; `fun _ _ => True` is the guard of all runs.
-/
namespace DevFramework.Transition
set_option autoImplicit false
set_option maxHeartbeats 250000

variable {σ τ α β : Type*}

/-- Execute a list of actions; `none` as soon as one of them is impossible. -/
def run (step : σ → α → Option σ) : σ → List α → Option σ
  | s, [] => some s
  | s, a :: as => (step s a).bind fun t => run step t as

theorem run_append {step : σ → α → Option σ} (s : σ) (as bs : List α) :
    run step s (as ++ bs) = (run step s as).bind fun t => run step t bs := by
  induction as generalizing s with
  | nil => rfl
  | cons a as ih =>
    simp only [List.cons_append, run, Option.bind_assoc]
    congr 1
    funext t
    exact ih t

/-- `t` is reached from `s` by steps that the guard allows. -/
inductive Reach (step : σ → α → Option σ) (ok : σ → α → Prop) (s : σ) : σ → Prop where
  | refl : Reach step ok s s
  | tail {t u : σ} {a : α} : Reach step ok s t → ok t a → step t a = some u → Reach step ok s u

/-- Reached by any steps at all. -/
abbrev Reachable (step : σ → α → Option σ) (s t : σ) : Prop :=
  Reach step (fun _ _ => True) s t

section Reach
variable {step : σ → α → Option σ} {ok : σ → α → Prop}

/-- What holds at the start and is kept by every allowed step holds in every state reached. -/
theorem Reach.invariant {P : σ → Prop} {s t : σ} (h : Reach step ok s t) (h0 : P s)
    (hstep : ∀ u a v, P u → ok u a → step u a = some v → P v) : P t := by
  induction h with
  | refl => exact h0
  | tail _ hok hs ih => exact hstep _ _ _ ih hok hs

/-- A guard may be replaced by one that follows from it where an invariant holds. -/
theorem Reach.strengthen {ok' : σ → α → Prop} {P : σ → Prop} {s t : σ} (h : Reach step ok s t)
    (h0 : P s) (hstep : ∀ u a v, P u → ok u a → step u a = some v → P v)
    (hok : ∀ u a, P u → ok u a → ok' u a) : Reach step ok' s t := by
  induction h with
  | refl => exact .refl
  | tail hreach hallowed hs ih =>
    exact ih.tail (hok _ _ (hreach.invariant h0 hstep) hallowed) hs

theorem Reach.trans {s t u : σ} (h : Reach step ok s t) (h' : Reach step ok t u) :
    Reach step ok s u := by
  induction h' with
  | refl => exact h
  | tail _ hok hs ih => exact ih.tail hok hs

/-- A successful execution of actions that are always allowed is a run. -/
theorem Reach.of_run_ok {s t : σ} {as : List α} (hok : ∀ a ∈ as, ∀ u, ok u a)
    (h : run step s as = some t) : Reach step ok s t := by
  induction as generalizing s with
  | nil =>
    obtain rfl : s = t := Option.some.inj h
    exact .refl
  | cons a as ih =>
    obtain ⟨u, hu, hr⟩ := Option.bind_eq_some_iff.mp h
    have hrest := ih (fun b hb => hok b (List.mem_cons_of_mem a hb)) hr
    exact (Reach.refl.tail (hok a List.mem_cons_self s) hu).trans hrest

theorem Reach.of_run {s t : σ} {as : List α} (h : run step s as = some t) : Reachable step s t :=
  .of_run_ok (fun _ _ _ => trivial) h

end Reach

/-! ## Bounded runs -/

section Bounded
variable {step : σ → α → Option σ}

/-- If every step from a state with `P` keeps `P` and lowers `rank`, then `rank` bounds the length
of every execution from such a state. -/
theorem run_length_le {P : σ → Prop} {rank : σ → ℕ}
    (hdec : ∀ s a t, P s → step s a = some t → P t ∧ rank t < rank s)
    {s t : σ} {as : List α} (hs : P s) (h : run step s as = some t) :
    as.length + rank t ≤ rank s := by
  induction as generalizing s with
  | nil =>
    obtain rfl : s = t := Option.some.inj h
    simp
  | cons a as ih =>
    obtain ⟨u, hu, hr⟩ := Option.bind_eq_some_iff.mp h
    obtain ⟨hP, hlt⟩ := hdec s a u hs hu
    have := ih hP hr
    simp only [List.length_cons]
    omega

end Bounded

/-! ## Runs without end -/

section Unending
variable {step : σ → α → Option σ}

/-- The states of an unending run, with the action taken in each. -/
def Unending (step : σ → α → Option σ) (f : ℕ → σ) (act : ℕ → α) : Prop :=
  ∀ n, step (f n) (act n) = some (f (n + 1))

/-- The action is taken again and again, unless it is again and again impossible. -/
def FairTo (step : σ → α → Option σ) (f : ℕ → σ) (act : ℕ → α) (a : α) : Prop :=
  ∀ n, ∃ m, n ≤ m ∧ (act m = a ∨ step (f m) a = none)

variable {f : ℕ → σ} {act : ℕ → α}

theorem Unending.keeps {P : σ → Prop} (h : Unending step f act) (h0 : P (f 0))
    (hstep : ∀ s a t, P s → step s a = some t → P t) (n : ℕ) : P (f n) := by
  induction n with
  | zero => exact h0
  | succ n ih => exact hstep _ _ _ ih (h n)

theorem Unending.later (h : Unending step f act) (k : ℕ) :
    Unending step (fun n => f (n + k)) (fun n => act (n + k)) := by
  intro n
  have hn : n + 1 + k = n + k + 1 := by omega
  show step (f (n + k)) (act (n + k)) = some (f (n + 1 + k))
  rw [hn]
  exact h (n + k)

theorem FairTo.later {a : α} (h : FairTo step f act a) (k : ℕ) :
    FairTo step (fun n => f (n + k)) (fun n => act (n + k)) a := by
  intro n
  obtain ⟨m, hm, hfair⟩ := h (n + k)
  have hsub : m - k + k = m := by omega
  refine ⟨m - k, by omega, ?_⟩
  show act (m - k + k) = a ∨ step (f (m - k + k)) a = none
  rw [hsub]
  exact hfair

/-- A rank that no step raises, that an action lowers and that is zero where the action is
impossible comes down to zero and stays there, if the run is fair to the action. -/
theorem Unending.settles {P : σ → Prop} {a : α} (h : Unending step f act) (rank : σ → ℕ)
    (h0 : P (f 0)) (hstep : ∀ s b t, P s → step s b = some t → P t ∧ rank t ≤ rank s)
    (hlower : ∀ s t, P s → step s a = some t → rank t < rank s)
    (hstuck : ∀ s, P s → step s a = none → rank s = 0) (hfair : FairTo step f act a) :
    ∃ n, ∀ m, n ≤ m → rank (f m) = 0 := by
  have hP : ∀ n, P (f n) := h.keeps h0 fun s a t hs ht => (hstep s a t hs ht).1
  have hanti : ∀ n d, rank (f (n + d)) ≤ rank (f n) := by
    intro n d
    induction d with
    | zero => exact Nat.le_refl _
    | succ d ih => exact Nat.le_trans (hstep _ _ _ (hP (n + d)) (h (n + d))).2 ih
  have hdown : ∀ k n, rank (f n) ≤ k → ∃ m, rank (f m) = 0 := by
    intro k
    induction k with
    | zero => exact fun n hn => ⟨n, by omega⟩
    | succ k ih =>
      intro n hn
      obtain ⟨m, hle, hmove | hnone⟩ := hfair n
      · have hlt := hlower _ _ (hP m) (hmove ▸ h m)
        have hm := hanti n (m - n)
        rw [Nat.add_sub_cancel' hle] at hm
        exact ih (m + 1) (by omega)
      · exact ⟨m, hstuck _ (hP m) hnone⟩
  obtain ⟨n, hn⟩ := hdown _ 0 (Nat.le_refl _)
  refine ⟨n, fun m hm => ?_⟩
  have hle := hanti n (m - n)
  rw [Nat.add_sub_cancel' hm] at hle
  omega

end Unending

end DevFramework.Transition
