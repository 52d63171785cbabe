import DevFramework.Connector.Helper

/-! # What the calls on a strand will do

Read off the calls that wait on the strand of a netport: which socket the netport will have after
them, and whether one of them closes a given socket. The strand does them in order, so this does not
change as they are performed.
-/
namespace DevFramework.Connector
open Transition
set_option autoImplicit false
set_option maxHeartbeats 250000

def Call.netport : Call → ℕ
  | .bindSocket n _ | .onError n | .doClear n => n

/-- The `sock_` of netport `n` after the calls. -/
def sockAfter (n : ℕ) : Option ℕ → List Call → Option ℕ
  | sock, [] => sock
  | sock, .bindSocket m k :: rest => sockAfter n (if m = n then some k else sock) rest
  | sock, .onError _ :: rest => sockAfter n sock rest
  | sock, .doClear _ :: rest => sockAfter n sock rest

/-- One of the calls closes socket `k` for netport `n`. -/
def Closes (n k : ℕ) : Option ℕ → List Call → Prop
  | _, [] => False
  | sock, .bindSocket m j :: rest => Closes n k (if m = n then some j else sock) rest
  | sock, .onError m :: rest => (m = n ∧ sock = some k) ∨ Closes n k sock rest
  | sock, .doClear m :: rest => (m = n ∧ sock = some k) ∨ Closes n k sock rest

/-- None of the calls goes through a null `sock_` of netport `n`. -/
def NeverNull (n : ℕ) : Option ℕ → List Call → Prop
  | _, [] => True
  | sock, .bindSocket m j :: rest => NeverNull n (if m = n then some j else sock) rest
  | sock, .onError m :: rest => (m = n → sock ≠ none) ∧ NeverNull n sock rest
  | sock, .doClear m :: rest => (m = n → sock ≠ none) ∧ NeverNull n sock rest

section Append
variable {n k : ℕ}

theorem sockAfter_append (sock : Option ℕ) (calls calls' : List Call) :
    sockAfter n sock (calls ++ calls') = sockAfter n (sockAfter n sock calls) calls' := by
  induction calls generalizing sock with
  | nil => rfl
  | cons call rest ih => cases call <;> exact ih _

theorem closes_append (sock : Option ℕ) (calls calls' : List Call) :
    Closes n k sock (calls ++ calls') ↔
      Closes n k sock calls ∨ Closes n k (sockAfter n sock calls) calls' := by
  induction calls generalizing sock with
  | nil => simp only [List.nil_append, Closes, sockAfter, false_or]
  | cons call rest ih =>
    cases call with
    | bindSocket m j => exact ih _
    | onError m | doClear m => simp only [List.cons_append, Closes, sockAfter, ih, or_assoc]

theorem neverNull_append (sock : Option ℕ) (calls calls' : List Call) :
    NeverNull n sock (calls ++ calls') ↔
      NeverNull n sock calls ∧ NeverNull n (sockAfter n sock calls) calls' := by
  induction calls generalizing sock with
  | nil => simp only [List.nil_append, NeverNull, sockAfter, true_and]
  | cons call rest ih =>
    cases call with
    | bindSocket m j => exact ih _
    | onError m | doClear m => simp only [List.cons_append, NeverNull, sockAfter, ih, and_assoc]

end Append

namespace Helper
variable {s t : Helper} {n m k : ℕ}

/-- The socket that netport `n` will have. -/
def sockOf (s : Helper) (n : ℕ) : Option ℕ := sockAfter n (s.netports n).sock (s.queueOf n)

/-- A call that waits will close socket `k` for netport `n`. -/
def WillClose (s : Helper) (n k : ℕ) : Prop := Closes n k (s.netports n).sock (s.queueOf n)

/-! ## Posting -/

section Post
variable (s : Helper) (m : ℕ) (call : Call) (accepted : Bool)

@[simp] theorem post_netports : (s.post m call accepted).netports = s.netports := by
  unfold post; split <;> rfl

@[simp] theorem post_sockets : (s.post m call accepted).sockets = s.sockets := by
  unfold post; split <;> rfl

@[simp] theorem post_netport : (s.post m call accepted).netport = s.netport := by
  unfold post; split <;> rfl

@[simp] theorem post_stopped : (s.post m call accepted).stopped = s.stopped := by
  unfold post; split <;> rfl

@[simp] theorem post_netportCount : (s.post m call accepted).netportCount = s.netportCount := by
  unfold post; split <;> rfl

@[simp] theorem post_socketCount : (s.post m call accepted).socketCount = s.socketCount := by
  unfold post; split <;> rfl

@[simp] theorem post_failing : (s.post m call accepted).failing = s.failing := by
  unfold post; split <;> rfl

theorem post_queues (strand : ℕ) :
    (s.post m call accepted).queues strand =
      s.queues strand ++ if accepted ∧ strand = (s.netports m).strand then [call] else [] := by
  cases accepted with
  | false => simp [post]
  | true =>
    by_cases hstrand : strand = (s.netports m).strand
    · simp [post, setQueue, hstrand, queueOf]
    · simp [post, setQueue, hstrand]

theorem post_queueOf (n : ℕ) :
    (s.post m call accepted).queueOf n =
      s.queueOf n ++ if accepted ∧ (s.netports n).strand = (s.netports m).strand then [call]
        else [] := by
  simp only [queueOf, post_netports, post_queues]

end Post

theorem WillClose.post (h : s.WillClose n k) (m : ℕ) (call : Call) (accepted : Bool) :
    (s.post m call accepted).WillClose n k := by
  unfold WillClose
  rw [post_netports, post_queueOf, closes_append]
  exact .inl h

/-- Only a bind changes what socket a netport will have. -/
theorem sockOf_post {call : Call} (hcall : ∀ j, call ≠ .bindSocket n j) (m : ℕ) (accepted : Bool) :
    (s.post m call accepted).sockOf n = s.sockOf n := by
  unfold sockOf
  rw [post_netports, post_queueOf, sockAfter_append]
  split
  · cases call with
    | bindSocket n' j =>
      have hne : n' ≠ n := fun heq => hcall j (heq ▸ rfl)
      exact if_neg hne
    | onError n' | doClear n' => rfl
  · rfl

/-- A clear that is posted closes the socket that the netport will have. -/
theorem willClose_post_clear (hsock : s.sockOf n = some k) :
    (s.post n (.doClear n) true).WillClose n k := by
  unfold WillClose
  rw [post_netports, post_queueOf, closes_append]
  refine .inr ?_
  rw [if_pos ⟨rfl, rfl⟩]
  exact .inl ⟨rfl, hsock⟩

/-! ## Performing -/

/-- What the first call of a strand does to the `sock_` of netport `n` and the calls on its strand;
nothing if it is another strand. -/
inductive Moves (n : ℕ) : Option ℕ → List Call → Option ℕ → List Call → Prop where
  | still (sock : Option ℕ) (calls : List Call) : Moves n sock calls sock calls
  | bind (sock : Option ℕ) (m j : ℕ) (rest : List Call) :
    Moves n sock (.bindSocket m j :: rest) (if m = n then some j else sock) rest
  | error (sock : Option ℕ) (m : ℕ) (rest : List Call) :
    Moves n sock (.onError m :: rest) sock (.doClear m :: rest)
  | clear (sock : Option ℕ) (m : ℕ) (rest : List Call) : Moves n sock (.doClear m :: rest) sock rest

section Moves
variable {sock sock' : Option ℕ} {calls calls' : List Call}

theorem Moves.sockAfter (h : Moves n sock calls sock' calls') :
    sockAfter n sock' calls' = sockAfter n sock calls := by
  cases h <;> rfl

theorem Moves.closes (h : Moves n sock calls sock' calls') (hc : Closes n k sock calls) :
    Closes n k sock' calls' ∨ calls = .doClear n :: calls' ∧ sock = some k := by
  cases h with
  | still | bind | error => exact .inl hc
  | clear =>
    obtain ⟨rfl, hsock⟩ | hrest := hc
    · exact .inr ⟨rfl, hsock⟩
    · exact .inl hrest

theorem Moves.closes_of (h : Moves n sock calls sock' calls') (hc : Closes n k sock' calls') :
    Closes n k sock calls := by
  cases h with
  | still | bind | error => exact hc
  | clear => exact .inr hc

theorem Moves.neverNull (h : Moves n sock calls sock' calls') (hc : NeverNull n sock calls) :
    NeverNull n sock' calls' := by
  cases h with
  | still | bind | error => exact hc
  | clear => exact hc.2

end Moves

/-- Each call waits on the strand of its netport. -/
def InPlace (s : Helper) : Prop :=
  ∀ strand, ∀ call ∈ s.queues strand, (s.netports call.netport).strand = strand

theorem queueOf_update {strand : ℕ} {calls : List Call}
    (hqueues : t.queues = Function.update s.queues strand calls)
    (hstrand : (t.netports n).strand = (s.netports n).strand) :
    t.queueOf n = if (s.netports n).strand = strand then calls else s.queueOf n := by
  simp only [queueOf, hqueues, hstrand, Function.update_apply]

theorem calls_update {strand strand' : ℕ} {call call' : Call} {rest calls : List Call}
    (hq : s.queues strand = call :: rest) (hqueues : t.queues = Function.update s.queues strand calls)
    (hcalls : ∀ c ∈ calls, c ∈ rest ∨ c.netport = call.netport) (hmem : call' ∈ t.queues strand') :
    ∃ c ∈ s.queues strand', c.netport = call'.netport := by
  rw [hqueues] at hmem
  by_cases hs : strand' = strand
  · subst hs
    rw [Function.update_self] at hmem
    rw [hq]
    obtain hrest | heq := hcalls call' hmem
    · exact ⟨call', List.mem_cons_of_mem _ hrest, rfl⟩
    · exact ⟨call, List.mem_cons_self, heq.symm⟩
  · rw [Function.update_of_ne hs] at hmem
    exact ⟨call', hmem, rfl⟩

/-- What performing the first call of a strand does. -/
structure Performs (s t : Helper) (strand : ℕ) : Prop where
  moves : ∀ n, Moves n (s.netports n).sock (s.queueOf n) (t.netports n).sock (t.queueOf n)
  clears : ∀ n k, s.queueOf n = .doClear n :: t.queueOf n → (s.netports n).sock = some k →
    (t.sockets k).isOpen = false
  isOpen : ∀ k, (t.sockets k).isOpen = true → (s.sockets k).isOpen = true
  stays : ∀ k, (s.sockets k).isOpen = true → (∀ n, ¬ s.WillClose n k) →
    (t.sockets k).isOpen = true
  strands : ∀ n, (t.netports n).strand = (s.netports n).strand
  calls : ∀ strand', ∀ call ∈ t.queues strand', ∃ call' ∈ s.queues strand',
    call'.netport = call.netport
  sock : ∀ n k, (t.netports n).sock = some k → (s.netports n).sock = some k ∨
    .bindSocket n k ∈ s.queues strand
  errCb : ∀ k n, (t.sockets k).errCb = some n → (s.sockets k).errCb = some n ∨
    .bindSocket n k ∈ s.queues strand

theorem queueOf_ne_cons {call : Call} (h : s.queueOf n = call :: s.queueOf n) : False := by
  have hlen := congrArg List.length h
  simp at hlen

section Performs
variable {strand : ℕ} {rest : List Call} {j : ℕ}

theorem performs_bind (hplace : InPlace s) (hq : s.queues strand = .bindSocket m j :: rest)
    (hqueues : t.queues = Function.update s.queues strand rest)
    (hnetports : t.netports = Function.update s.netports m { s.netports m with sock := some j })
    (hsockets : t.sockets = Function.update s.sockets j { s.sockets j with errCb := some m }) :
    Performs s t strand := by
  have hhead : .bindSocket m j ∈ s.queues strand := by
    rw [hq]
    exact List.mem_cons_self
  have hm : (s.netports m).strand = strand := hplace strand _ hhead
  have hstrand : ∀ n, (t.netports n).strand = (s.netports n).strand := by
    intro n
    rw [hnetports]
    by_cases hn : n = m
    · rw [hn, Function.update_self]
    · rw [Function.update_of_ne hn]
  have hsock : ∀ n, (t.netports n).sock = if m = n then some j else (s.netports n).sock := by
    intro n
    rw [hnetports]
    by_cases hmn : m = n
    · rw [hmn, Function.update_self, if_pos rfl]
    · rw [Function.update_of_ne (Ne.symm hmn), if_neg hmn]
  refine ⟨fun n => ?_, fun n k hcons => ?_, fun k hk => ?_, fun k hk _ => ?_, hstrand, fun _ _ hcall =>
    calls_update hq hqueues (fun _ => .inl) hcall, fun n k hk => ?_, fun k n hk => ?_⟩
  · rw [queueOf_update hqueues (hstrand n), hsock]
    by_cases hn : (s.netports n).strand = strand
    · rw [if_pos hn, queueOf, hn, hq]
      exact .bind ..
    · rw [if_neg hn, if_neg fun heq : m = n => hn (heq ▸ hm)]
      exact .still ..
  · rw [queueOf_update hqueues (hstrand n)] at hcons
    split at hcons
    · rename_i hn
      rw [queueOf, hn, hq] at hcons
      cases hcons
    · exact (queueOf_ne_cons hcons).elim
  · rw [hsockets] at hk
    by_cases hkj : k = j
    · rw [hkj, Function.update_self] at hk
      exact hkj ▸ hk
    · rwa [Function.update_of_ne hkj] at hk
  · rw [hsockets]
    by_cases hkj : k = j
    · rw [hkj, Function.update_self]
      exact hkj ▸ hk
    · rwa [Function.update_of_ne hkj]
  · rw [hsock] at hk
    split at hk
    · rename_i hmn
      exact .inr (hmn ▸ Option.some.inj hk ▸ hhead)
    · exact .inl hk
  · rw [hsockets] at hk
    by_cases hkj : k = j
    · rw [hkj, Function.update_self] at hk
      exact .inr (hkj ▸ Option.some.inj hk ▸ hhead)
    · rw [Function.update_of_ne hkj] at hk
      exact .inl hk

theorem performs_error (hq : s.queues strand = .onError m :: rest)
    (hqueues : t.queues = Function.update s.queues strand (.doClear m :: rest))
    (hnetports : t.netports = s.netports) (hsockets : t.sockets = s.sockets) :
    Performs s t strand := by
  have hstrand : ∀ n, (t.netports n).strand = (s.netports n).strand := by
    intro n
    rw [hnetports]
  have hcalls : ∀ c ∈ Call.doClear m :: rest, c ∈ rest ∨ c.netport = (Call.onError m).netport := by
    intro c hc
    obtain rfl | hrest := List.mem_cons.mp hc
    · exact .inr rfl
    · exact .inl hrest
  refine ⟨fun n => ?_, fun n k hcons => ?_, fun k hk => hsockets ▸ hk,
    fun k hk _ => hsockets ▸ hk, hstrand, fun _ _ hcall => calls_update hq hqueues hcalls hcall,
    fun n k hk => .inl (hnetports ▸ hk), fun k n hk => .inl (hsockets ▸ hk)⟩
  · rw [queueOf_update hqueues (hstrand n), hnetports]
    split
    · rename_i hn
      rw [queueOf, hn, hq]
      exact .error ..
    · exact .still ..
  · rw [queueOf_update hqueues (hstrand n)] at hcons
    split at hcons
    · rename_i hn
      rw [queueOf, hn, hq] at hcons
      cases hcons
    · exact (queueOf_ne_cons hcons).elim

theorem performs_clear (hplace : InPlace s) (hq : s.queues strand = .doClear m :: rest)
    (hj : (s.netports m).sock = some j)
    (hqueues : t.queues = Function.update s.queues strand rest) (hnetports : t.netports = s.netports)
    (hsockets : t.sockets = Function.update s.sockets j
      (if (s.sockets j).isOpen then ⟨false, none⟩ else s.sockets j)) :
    Performs s t strand := by
  have hstrand : ∀ n, (t.netports n).strand = (s.netports n).strand := by
    intro n
    rw [hnetports]
  have hclosed : t.sockets j = if (s.sockets j).isOpen then ⟨false, none⟩ else s.sockets j := by
    rw [hsockets, Function.update_self]
  have hothers : ∀ k, k ≠ j → t.sockets k = s.sockets k := by
    intro k hkj
    rw [hsockets, Function.update_of_ne hkj]
  refine ⟨fun n => ?_, fun n k hcons hk => ?_, fun k hk => ?_, fun k hk hlost => ?_, hstrand,
    fun _ _ hcall => calls_update hq hqueues (fun _ => .inl) hcall,
    fun n k hk => .inl (hnetports ▸ hk), fun k n hk => ?_⟩
  · rw [queueOf_update hqueues (hstrand n), hnetports]
    split
    · rename_i hn
      rw [queueOf, hn, hq]
      exact .clear ..
    · exact .still ..
  · rw [queueOf_update hqueues (hstrand n)] at hcons
    split at hcons
    · rename_i hn
      rw [queueOf, hn, hq] at hcons
      obtain rfl : m = n := Call.doClear.inj (List.cons.inj hcons).1
      obtain rfl : j = k := Option.some.inj (hj.symm.trans hk)
      rw [hclosed]
      split
      · rfl
      · rename_i hopen
        exact Bool.eq_false_iff.mpr hopen
    · exact (queueOf_ne_cons hcons).elim
  · by_cases hkj : k = j
    · rw [hkj, hclosed] at hk
      split at hk
      · cases hk
      · exact hkj ▸ hk
    · rwa [hothers k hkj] at hk
  · have hkj : k ≠ j := by
      intro heq
      have hm : (s.netports m).strand = strand :=
        hplace strand (.doClear m) (by rw [hq]; exact List.mem_cons_self)
      apply hlost m
      rw [WillClose, queueOf, hm, hq]
      exact .inl ⟨rfl, heq ▸ hj⟩
    rwa [hothers k hkj]
  · by_cases hkj : k = j
    · rw [hkj, hclosed] at hk
      split at hk
      · cases hk
      · exact .inl (hkj ▸ hk)
    · rw [hothers k hkj] at hk
      exact .inl hk

theorem perform_performs (hplace : InPlace s) (h : s.perform strand = some t) :
    Performs s t strand ∧ t.netport = s.netport ∧ t.stopped = s.stopped ∧
      t.netportCount = s.netportCount ∧ t.socketCount = s.socketCount ∧ t.failing = s.failing ∧
      t.connecting = s.connecting := by
  unfold perform at h
  split at h
  case h_1 => cases h
  case h_2 hq =>
    obtain rfl := Option.some.inj h
    exact ⟨performs_bind hplace hq rfl rfl rfl, rfl, rfl, rfl, rfl, rfl, rfl⟩
  case h_3 hq =>
    obtain rfl := Option.some.inj h
    exact ⟨performs_error hq rfl rfl rfl, rfl, rfl, rfl, rfl, rfl, rfl⟩
  case h_4 hq =>
    split at h
    · rename_i hj
      obtain rfl := Option.some.inj h
      exact ⟨performs_clear hplace hq hj rfl rfl rfl, rfl, rfl, rfl, rfl, rfl, rfl⟩
    · cases h

end Performs

end Helper

end DevFramework.Connector
