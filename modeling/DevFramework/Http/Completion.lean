import DevFramework.Http.Request

/-! # The end of a request

`response_complete_` is called from two places, the read that finds the end of the data and the
`catch` of `callback`, and nothing records that it was called. The callbacks come in order as long
as WinHTTP reports one thing at a time and nothing after the end.
-/
namespace DevFramework.Http
open Transition
set_option autoImplicit false
set_option maxHeartbeats 250000

/-! ## The order of the callbacks -/

def UserCall.isComplete : UserCall → Bool
  | .responseComplete _ => true
  | _ => false

/-- `read_`, `header_complete_` and `error_`. -/
def UserCall.isProgress : UserCall → Bool
  | .read _ | .headerComplete _ | .error _ => true
  | _ => false

def completions (log : List UserCall) : ℕ := log.countP UserCall.isComplete

def HeaderSeen (log : List UserCall) : Prop := ∃ size, .headerComplete size ∈ log

/-- `response_complete_` once at most, none of the others after it, and `header_complete_` before the
first `read_`. -/
structure Orderly (log : List UserCall) : Prop where
  once : completions log ≤ 1
  last : ∀ before suc after, log = before ++ .responseComplete suc :: after →
    ∀ c ∈ after, c.isProgress = false
  header : ∀ before len after, log = before ++ .read len :: after → HeaderSeen before

/-- WinHTTP reports one thing at a time, and nothing that has a handler after `response_complete_`
was called; and `response_complete_(true)` does not throw what the `catch` takes. -/
def OneAtATime (s : Request) : Request.Action → Prop
  | .callback code length =>
    handleCode length code = none ∨ s.running = [] ∧ completions s.log = 0
  | .work k answer => s.running[k]? = some .inResponseComplete → ∀ msg, answer ≠ .throws msg

theorem oneAtATime_callback {s : Request} (code : Status) (length : ℕ) (hidle : s.running = [])
    (hopen : completions s.log = 0) : OneAtATime s (.callback code length) := .inr ⟨hidle, hopen⟩

theorem oneAtATime_work {s : Request} (k : ℕ) (answer : Answer)
    (hk : s.running[k]? ≠ some .inResponseComplete) : OneAtATime s (.work k answer) :=
  fun h => absurd h hk

theorem completions_append (log log' : List UserCall) :
    completions (log ++ log') = completions log + completions log' := List.countP_append

/-- A log that is open but for its last call. -/
theorem orderly_of_dropLast {log : List UserCall} (hlast : completions log.dropLast = 0)
    (hheader : ∀ before len after, log = before ++ .read len :: after → HeaderSeen before) :
    Orderly log where
  once := by
    obtain rfl | ⟨before, c, rfl⟩ := List.eq_nil_or_concat log
    · exact Nat.zero_le 1
    · rw [List.concat_eq_append, List.dropLast_concat] at hlast
      rw [List.concat_eq_append, completions_append, hlast, Nat.zero_add]
      exact List.countP_le_length
  last := by
    intro before suc after heq c hc
    obtain rfl | ⟨after, d, rfl⟩ := List.eq_nil_or_concat after
    · cases hc
    · rw [heq, List.concat_eq_append, ← List.cons_append, ← List.append_assoc,
        List.dropLast_concat, completions_append, completions, completions,
        List.countP_cons_of_pos rfl] at hlast
      omega
  header := hheader

theorem header_append {log : List UserCall} {c : UserCall}
    (hheader : ∀ before len after, log = before ++ .read len :: after → HeaderSeen before)
    (hc : ∀ len, c = .read len → HeaderSeen log) (before : List UserCall) (len : ℕ)
    (after : List UserCall) (heq : log ++ [c] = before ++ .read len :: after) :
    HeaderSeen before := by
  obtain rfl | ⟨after, d, rfl⟩ := List.eq_nil_or_concat after
  · obtain ⟨rfl, hcs⟩ := List.append_inj' heq rfl
    exact hc len (List.cons.inj hcs).1
  · rw [List.concat_eq_append, ← List.cons_append, ← List.append_assoc] at heq
    exact hheader before len after (List.append_inj' heq rfl).1

/-! ## What one step can do -/

namespace Pc

/-- Past the call of `response_complete_`. -/
def isPast : Pc → Bool
  | .inResponseComplete | .inResponseFailed => true
  | _ => false

/-- In the handler of a read. -/
def isReading : Pc → Bool
  | .read _ | .inRead | .readMore => true
  | _ => false

variable {pc pc' : Pc} {answer : Answer} {c : UserCall} {o : Outcome}

theorem step_goto (hs : pc.step answer = some (.goto pc')) :
    pc'.isPast = false ∧ (pc'.isReading → pc.isReading) ∧
      (pc.isPast → pc = .inResponseComplete ∧ ∃ msg, answer = .throws msg) := by
  unfold step at hs
  split at hs
  all_goals first
    | cases hs <;> simp [isPast, isReading]
    | (split at hs <;> cases hs <;> simp [isPast, isReading])

theorem step_call (hs : pc.step answer = some (.call c pc')) :
    pc.isPast = false ∧ (pc'.isReading → ∃ len, c = .read len) ∧
      c.isComplete = pc'.isPast ∧ ∀ len, c = .read len → pc.isReading := by
  unfold step at hs
  split at hs
  all_goals first
    | cases hs <;> simp [isPast, isReading, UserCall.isComplete]
    | (split at hs <;> cases hs)

theorem step_reads {next : Option Pc} (hs : pc.step answer = some (.reads next)) :
    pc.isPast = false ∧ (next = some .headerComplete ∨ next = none ∧ pc.isReading) := by
  unfold step at hs
  split at hs
  all_goals first
    | cases hs <;> simp [isPast, isReading]
    | (split at hs <;> cases hs)

/-- The header handler has issued the first read and now calls the user's. -/
theorem step_header (hs : Pc.headerComplete.step answer = some o) :
    ∃ size, o = .call (.headerComplete size) .inHeaderComplete := by
  cases answer with
  | contentLength size =>
    cases hs
    exact ⟨size, rfl⟩
  | _ => cases hs

end Pc

/-! ## Runs in which things come one at a time -/

structure Ordered (s : Request) : Prop where
  one : s.running.length ≤ 1
  dropLast : completions s.log.dropLast = 0
  before : ∀ pc ∈ s.running, pc.isPast = false → completions s.log = 0
  past : ∀ pc ∈ s.running, pc.isPast → 0 < completions s.log
  header : ∀ before len after, s.log = before ++ .read len :: after → HeaderSeen before
  reading : ∀ pc ∈ s.running, pc.isReading → HeaderSeen s.log
  pending : 0 < s.pending → HeaderSeen s.log ∨ .headerComplete ∈ s.running

theorem HeaderSeen.append {log : List UserCall} (h : HeaderSeen log) (log' : List UserCall) :
    HeaderSeen (log ++ log') := by
  obtain ⟨size, hsize⟩ := h
  exact ⟨size, List.mem_append_left _ hsize⟩

section Runs
variable {s t : Request} {pc pc' : Pc} {k : ℕ} {answer : Answer}

theorem ordered_sent : Ordered .sent where
  one := Nat.zero_le 1
  dropLast := rfl
  before := nofun
  past := nofun
  header before len after heq := by simp [Request.sent] at heq
  reading := nofun
  pending := nofun

theorem only_running (hone : s.running.length ≤ 1) (hk : s.running[k]? = some pc) :
    k = 0 ∧ s.running = [pc] := by
  obtain ⟨hlt, hget⟩ := List.getElem?_eq_some_iff.mp hk
  obtain rfl : k = 0 := by omega
  obtain ⟨a, ha⟩ := List.length_eq_one_iff.mp (by omega : s.running.length = 1)
  simp only [ha, List.getElem_cons_zero] at hget
  exact ⟨rfl, by rw [ha, hget]⟩

theorem deliver_same {code : Status} (hs : s.deliver code = some t) :
    t.running = s.running ∧ t.log = s.log ∧ t.terminated = s.terminated ∧
      t.pending ≤ s.pending ∧ (code = .readComplete → 0 < s.pending) := by
  cases code with
  | sendRequestComplete | headersAvailable =>
    simp only [Request.deliver] at hs
    split at hs <;> cases hs
    simp
  | readComplete =>
    simp only [Request.deliver] at hs
    split at hs <;> cases hs
    simpa
  | _ =>
    cases hs
    simp

theorem handleCode_start {length : ℕ} {code : Status} (hcode : handleCode length code = some pc) :
    pc.isPast = false ∧ (pc.isReading → code = .readComplete) := by
  cases code with
  | readComplete =>
    cases hcode
    split <;> simp [Pc.isPast]
  | redirect url | secureFailure | headersAvailable | requestError dwError | sendRequestComplete =>
    cases hcode
    simp [Pc.isPast, Pc.isReading]
  | _ => cases hcode

theorem ordered_callback (h : Ordered s) {code : Status} {length : ℕ}
    (hok : OneAtATime s (.callback code length)) (hs : s.deliver code = some t) :
    Ordered { t with running := t.running ++ (handleCode length code).toList } := by
  obtain ⟨hrunning, hlog, -, hpending, hread⟩ := deliver_same hs
  have hpend : 0 < t.pending → HeaderSeen t.log ∨ .headerComplete ∈ s.running := fun hpos =>
    hlog ▸ h.pending (Nat.lt_of_lt_of_le hpos hpending)
  cases hcode : handleCode length code with
  | none =>
    simp only [Option.toList_none, List.append_nil]
    refine ⟨hrunning ▸ h.one, hlog ▸ h.dropLast, fun pc hpc => ?_, fun pc hpc => ?_,
      hlog ▸ h.header, fun pc hpc => ?_, hrunning ▸ hpend⟩
    · rw [hlog]
      exact h.before pc (hrunning ▸ hpc)
    · rw [hlog]
      exact h.past pc (hrunning ▸ hpc)
    · rw [hlog]
      exact h.reading pc (hrunning ▸ hpc)
  | some pc =>
    obtain ⟨hidle, hopen⟩ : s.running = [] ∧ completions s.log = 0 :=
      hok.resolve_left (by simp [hcode])
    obtain ⟨hpast, hreading⟩ := handleCode_start hcode
    have hseen : 0 < s.pending → HeaderSeen s.log := fun hpos =>
      (h.pending hpos).resolve_right (by simp [hidle])
    rw [hrunning, hidle]
    refine ⟨Nat.le_refl 1, hlog ▸ h.dropLast, fun _ _ _ => hlog ▸ hopen, ?_, hlog ▸ h.header, ?_,
      ?_⟩
    · intro pc' hpc' hp
      obtain rfl := List.mem_singleton.mp hpc'
      simp [hpast] at hp
    · intro pc' hpc' hr
      obtain rfl := List.mem_singleton.mp hpc'
      exact hlog ▸ hseen (hread (hreading hr))
    · exact fun hpos => .inl (hlog ▸ hseen (Nat.lt_of_lt_of_le hpos hpending))

theorem ordered_work (h : Ordered s) {o : Outcome} (hok : OneAtATime s (.work k answer))
    (hk : s.running[k]? = some pc) (ho : pc.step answer = some o) : Ordered (s.after k o) := by
  obtain ⟨rfl, hrun⟩ := only_running h.one hk
  have hin : pc ∈ s.running := by simp [hrun]
  have hnext : (∀ size, o ≠ .call (.headerComplete size) .inHeaderComplete) →
      0 < s.pending → HeaderSeen s.log := by
    intro hno hpos
    refine (h.pending hpos).resolve_right fun hheader => ?_
    obtain rfl : Pc.headerComplete = pc := by simpa [hrun] using hheader
    obtain ⟨size, hsize⟩ := Pc.step_header ho
    exact hno size hsize
  cases o with
  | goto pc' =>
    obtain ⟨hpast, hreading, hthrow⟩ := Pc.step_goto ho
    have hopen : completions s.log = 0 := by
      refine h.before pc hin ?_
      by_contra hp
      obtain ⟨rfl, msg, rfl⟩ := hthrow (by simpa using hp)
      exact hok hk msg rfl
    have hrun' : s.running.set 0 pc' = [pc'] := by rw [hrun]; rfl
    simp only [Request.after, hrun']
    refine ⟨Nat.le_refl 1, h.dropLast, fun _ _ _ => hopen, fun a ha hp => ?_, h.header,
      fun a ha hr => ?_, fun hpos => .inl (hnext (by simp) hpos)⟩
    · obtain rfl := List.mem_singleton.mp ha
      simp [hpast] at hp
    · obtain rfl := List.mem_singleton.mp ha
      exact h.reading pc hin (hreading hr)
  | call c pc' =>
    obtain ⟨hpast, hreading, hcomplete, hread⟩ := Pc.step_call ho
    have hopen : completions s.log = 0 := h.before pc hin hpast
    have hrun' : s.running.set 0 pc' = [pc'] := by rw [hrun]; rfl
    simp only [Request.after, hrun']
    refine ⟨Nat.le_refl 1, ?_, fun a ha hp => ?_, fun a ha hp => ?_, ?_, fun a ha hr => ?_,
      fun hpos => .inl ?_⟩
    · rwa [List.dropLast_concat]
    · obtain rfl := List.mem_singleton.mp ha
      rw [completions_append, hopen, completions, List.countP_cons_of_neg (by simp [hcomplete, hp])]
      rfl
    · obtain rfl := List.mem_singleton.mp ha
      rw [completions_append, completions, completions,
        List.countP_cons_of_pos (by rw [hcomplete, hp])]
      omega
    · exact header_append h.header fun len hc => h.reading pc hin (hread len hc)
    · obtain rfl := List.mem_singleton.mp ha
      obtain ⟨len, hc⟩ := hreading hr
      exact (h.reading pc hin (hread len hc)).append _
    · by_cases hsize : ∃ size, c = .headerComplete size
      · obtain ⟨size, rfl⟩ := hsize
        exact ⟨size, by simp⟩
      · refine (hnext (fun size heq => hsize ⟨size, ?_⟩) hpos).append _
        exact (Outcome.call.inj heq).1
  | reads next =>
    obtain ⟨hpast, hnext'⟩ := Pc.step_reads ho
    have hopen : completions s.log = 0 := h.before pc hin hpast
    obtain rfl | ⟨rfl, hreading⟩ := hnext'
    · have hrun' : s.running.set 0 .headerComplete = [.headerComplete] := by rw [hrun]; rfl
      simp only [Request.after, hrun']
      refine ⟨Nat.le_refl 1, h.dropLast, fun _ _ _ => hopen, fun a ha hp => ?_, h.header,
        fun a ha hr => ?_, fun _ => .inr (by simp)⟩
      · obtain rfl := List.mem_singleton.mp ha
        cases hp
      · obtain rfl := List.mem_singleton.mp ha
        cases hr
    · have hrun' : s.running.eraseIdx 0 = [] := by rw [hrun]; rfl
      simp only [Request.after, hrun']
      exact ⟨Nat.zero_le 1, h.dropLast, nofun, nofun, h.header, nofun,
        fun _ => .inl (h.reading pc hin hreading)⟩
  | receives | done =>
    have hrun' : s.running.eraseIdx 0 = [] := by rw [hrun]; rfl
    simp only [Request.after, hrun']
    exact ⟨Nat.zero_le 1, h.dropLast, nofun, nofun, h.header, nofun,
      fun hpos => .inl (hnext (by simp) hpos)⟩
  | leaves => exact ⟨h.one, h.dropLast, h.before, h.past, h.header, h.reading, h.pending⟩

theorem ordered_step (h : Ordered s) {a : Request.Action} (hok : OneAtATime s a)
    (hs : s.step a = some t) : Ordered t := by
  cases a with
  | callback code length =>
    simp only [Request.step] at hs
    split at hs
    · cases hs
    · obtain ⟨u, hu, rfl⟩ := Option.map_eq_some_iff.mp hs
      exact ordered_callback h hok hu
  | work k answer =>
    simp only [Request.step] at hs
    split at hs
    · cases hs
    · obtain ⟨o, ho, rfl⟩ := Option.map_eq_some_iff.mp hs
      obtain ⟨pc, hk, hpc⟩ := Option.bind_eq_some_iff.mp ho
      exact ordered_work h hok hk hpc

theorem ordered_reach (h : Reach Request.step OneAtATime .sent s) : Ordered s :=
  h.invariant ordered_sent fun _ _ _ hu hok hs => ordered_step hu hok hs

end Runs

/-! ## Runs in which they do not -/

/-- A call that is there can be brought to call `response_complete_` next of the user's. -/
def Completes (pc : Pc) : Prop :=
  ∀ (s : Request) (k : ℕ), s.terminated = false → s.running[k]? = some pc →
    ∃ as u, run Request.step s as = some u ∧ u.terminated = false ∧
      completions u.log = completions s.log + 1 ∧ ∀ j, j ≠ k → u.running[j]? = s.running[j]?

section Completes
variable {s : Request} {k : ℕ} {pc pc' : Pc} {c : UserCall} {o : Outcome}

theorem step_work {answer : Answer} (hs : s.terminated = false) (hk : s.running[k]? = some pc)
    (ho : pc.step answer = some o) : s.step (.work k answer) = some (s.after k o) := by
  simp [Request.step, hs, hk, ho]

theorem getElem?_set_running (hk : s.running[k]? = some pc) (pc' : Pc) :
    (s.running.set k pc')[k]? = some pc' := by
  have hlt : k < s.running.length := (List.getElem?_eq_some_iff.mp hk).1
  simp [hlt]

theorem completes_goto (answer : Answer) (ho : pc.step answer = some (.goto pc')) (h : Completes pc') :
    Completes pc := by
  intro s k hs hk
  obtain ⟨as, u, hrun, hu, hcount, hsame⟩ :=
    h (s.after k (.goto pc')) k hs (getElem?_set_running hk pc')
  refine ⟨.work k answer :: as, u, ?_, hu, hcount, fun j hj => (hsame j hj).trans ?_⟩
  · rw [run, step_work hs hk ho]
    exact hrun
  · exact List.getElem?_set_ne hj.symm

theorem completes_call (answer : Answer) (ho : pc.step answer = some (.call c pc'))
    (hc : c.isComplete = false) (h : Completes pc') : Completes pc := by
  intro s k hs hk
  obtain ⟨as, u, hrun, hu, hcount, hsame⟩ :=
    h (s.after k (.call c pc')) k hs (getElem?_set_running hk pc')
  refine ⟨.work k answer :: as, u, ?_, hu, ?_, fun j hj => (hsame j hj).trans ?_⟩
  · rw [run, step_work hs hk ho]
    exact hrun
  · rw [hcount]
    simp [Request.after, completions, hc]
  · exact List.getElem?_set_ne hj.symm

theorem completes_last (ho : pc.step .ok = some (.call c pc')) (hc : c.isComplete = true) :
    Completes pc := by
  intro s k hs hk
  refine ⟨[.work k .ok], s.after k (.call c pc'), ?_, hs, ?_, fun j hj => ?_⟩
  · rw [run, step_work hs hk ho]
    rfl
  · simp [Request.after, completions, hc]
  · exact List.getElem?_set_ne hj.symm

/-- Every call can end in the `catch`. -/
theorem completes_error (e : Thrown) : Completes (.error e) :=
  completes_call .ok rfl rfl (completes_goto .ok rfl (completes_last rfl rfl))

theorem completes_of_not_past (hpc : pc.isPast = false) : Completes pc := by
  cases pc with
  | receiveResponse | queryStatusCode | readData | readMore =>
    exact completes_goto (.fails 0) rfl (completes_error _)
  | headerComplete =>
    exact completes_call (.contentLength 0) rfl rfl
      (completes_goto (.throws []) rfl (completes_error _))
  | read length =>
    exact completes_call .ok rfl rfl
      (completes_goto (.throws []) rfl (completes_error _))
  | redirect url length =>
    exact completes_call .ok rfl rfl
      (completes_goto (.throws []) rfl (completes_error _))
  | inHeaderComplete | inRead | inRedirect =>
    exact completes_goto (.throws []) rfl (completes_error _)
  | responseComplete | responseFailed => exact completes_last rfl rfl
  | error e => exact completes_error e
  | inError => exact completes_goto .ok rfl (completes_last rfl rfl)
  | inResponseComplete | inResponseFailed => cases hpc

theorem not_orderly {log : List UserCall} (h : 1 < completions log) : ¬Orderly log :=
  fun horderly => absurd horderly.once (Nat.not_le_of_lt h)

/-- What is reported out of turn, or thrown by `response_complete_(true)`, can lead to a second
`response_complete_`. -/
theorem disorder {t : Request} (h : Ordered s) {a : Request.Action} (hs : s.step a = some t)
    (hno : ¬OneAtATime s a) :
    ∃ as u, run Request.step t as = some u ∧ ¬Orderly u.log := by
  cases a with
  | callback code length =>
    simp only [OneAtATime, not_or, not_and] at hno
    obtain ⟨hcode, hbusy⟩ := hno
    obtain ⟨pc, hpc⟩ := Option.ne_none_iff_exists'.mp hcode
    simp only [Request.step] at hs
    split at hs
    · cases hs
    rename_i hterm
    obtain ⟨t, ht, rfl⟩ := Option.map_eq_some_iff.mp hs
    obtain ⟨hrunning, hlog, hterm', -⟩ := deliver_same ht
    rw [hpc, hrunning]
    have hk : (s.running ++ [pc])[s.running.length]? = some pc := by simp
    obtain ⟨as, u, hrun, hu, hcount, hsame⟩ := completes_of_not_past (handleCode_start hpc).1
      { t with running := s.running ++ [pc] } s.running.length (by simp [hterm', hterm]) hk
    simp only [hlog] at hcount
    by_cases hopen : completions s.log = 0
    · -- the call that was at work has its own `response_complete_` still to come
      obtain ⟨pc₀, hpc₀⟩ := List.exists_mem_of_ne_nil _ fun hidle => hbusy hidle hopen
      obtain ⟨j, hj, rfl⟩ := List.getElem_of_mem hpc₀
      have hpast : s.running[j].isPast = false := by
        by_contra hp
        have := h.past _ hpc₀ (by simpa using hp)
        omega
      have hthere : u.running[j]? = some s.running[j] := by
        rw [hsame j (by omega)]
        exact (List.getElem?_append_left hj).trans (List.getElem?_eq_getElem hj)
      obtain ⟨bs, v, hrun', -, hcount', -⟩ := completes_of_not_past hpast u j hu hthere
      refine ⟨as ++ bs, v, ?_, not_orderly (by omega)⟩
      rw [run_append]
      exact (congrArg (Option.bind · fun x => run Request.step x bs) hrun).trans hrun'
    · exact ⟨as, u, hrun, not_orderly (by omega)⟩
  | work k answer =>
    simp only [OneAtATime, not_forall, not_not] at hno
    obtain ⟨hk, msg, rfl⟩ := hno
    simp only [Request.step] at hs
    split at hs
    · cases hs
    rename_i hterm
    rw [hk] at hs
    obtain rfl : s.after k (.goto (.error (.message msg))) = t := Option.some.inj hs
    obtain ⟨as, u, hrun, -, hcount, -⟩ := completes_error (.message msg)
      (s.after k (.goto (.error (.message msg)))) k (by simpa [Request.after] using hterm)
      (getElem?_set_running hk _)
    have hpast := h.past _ (List.mem_of_getElem? hk) rfl
    have hlog : completions (s.after k (.goto (.error (.message msg)))).log =
        completions s.log := rfl
    exact ⟨as, u, hrun, not_orderly (by omega)⟩

end Completes

/-- **The order of the callbacks.** In a run in which WinHTTP reports one thing at a time and nothing
after the end, and `response_complete_(true)` does not throw, the callbacks come in order. A step of
such a run that is the first to break the condition can be continued to a second
`response_complete_`. -/
theorem callbacks_orderly (s : Request) (hs : Reach Request.step OneAtATime .sent s) :
    Orderly s.log ∧
      ∀ a t, s.step a = some t → ¬OneAtATime s a →
        ∃ as u, run Request.step t as = some u ∧ ¬Orderly u.log := by
  have h := ordered_reach hs
  exact ⟨orderly_of_dropLast h.dropLast h.header, fun _ _ => disorder h⟩

/-- One read with data, and one that finds the end. -/
theorem callbacks_orderly_read :
    Orderly [.headerComplete 5, .read 5, .responseComplete true] := by
  have h0 : Reach Request.step OneAtATime .sent .sent := .refl
  have h1 := ((h0.tail (oneAtATime_callback .sendRequestComplete 0 rfl rfl) rfl).tail
    (oneAtATime_work 0 .ok nofun) rfl).tail (oneAtATime_callback .headersAvailable 0 rfl rfl) rfl
  have h2 := ((h1.tail (oneAtATime_work 0 (.statusCode 200) nofun) rfl).tail
    (oneAtATime_work 0 .ok nofun) rfl).tail (oneAtATime_work 0 (.contentLength 5) nofun) rfl
  have h3 := ((h2.tail (oneAtATime_work 0 .ok nofun) rfl).tail
    (oneAtATime_callback .readComplete 5 rfl rfl) rfl).tail (oneAtATime_work 0 .ok nofun) rfl
  have h4 := ((h3.tail (oneAtATime_work 0 .ok nofun) rfl).tail (oneAtATime_work 0 .ok nofun)
    rfl).tail (oneAtATime_callback .readComplete 0 rfl rfl) rfl
  have h5 := h4.tail (oneAtATime_work 0 .ok nofun) rfl
  exact (callbacks_orderly _ h5).1

/-- The first read ends while the header handler is between its `WinHttpReadData` and the user's
`header_complete_`, which throws; the second read comes after the end. -/
theorem read_before_header :
    ∃ s, run Request.step .sent
        [.callback .sendRequestComplete 0, .work 0 .ok, .callback .headersAvailable 0,
          .work 0 (.statusCode 200), .work 0 .ok, .callback .readComplete 5, .work 1 .ok,
          .work 1 .ok, .work 1 .ok, .work 0 (.contentLength 5), .work 0 (.throws []), .work 0 .ok,
          .work 0 .ok, .work 0 .ok, .callback .readComplete 3, .work 1 .ok, .work 1 .userExit,
          .work 1 .ok, .work 1 .ok, .work 1 .ok] = some s ∧
      s.log = [.read 5, .headerComplete 5, .error (.message []), .responseComplete false, .read 3,
        .error (.message "user exit".toList), .responseComplete false] ∧
      ¬Orderly s.log :=
  ⟨_, rfl, rfl, fun h => absurd h.once (by decide)⟩

end DevFramework.Http
