import Mathlib.Data.List.Basic
import Mathlib.Data.List.GetD
import Mathlib.Tactic.Common

/-! # Block ciphers and their modes

What a cipher is built from, over any type of symbols: permutations given by a table, Feistel
networks, and the cutting of a text into blocks, each with its inverse. `mix` stands for the
exclusive or; it has to undo itself only where `P` holds, such as on words of one length.
-/
namespace DevFramework.BlockCipher
set_option autoImplicit false
set_option maxHeartbeats 250000

variable {α β κ : Type*}

/-! ## Tables -/

/-- The entries of `xs` that the table names; a table counts from one. -/
def select (table : List ℕ) (d : α) (xs : List α) : List α :=
  table.map fun j => xs.getD (j - 1) d

@[simp] theorem select_length (table : List ℕ) (d : α) (xs : List α) :
    (select table d xs).length = table.length := by
  simp [select]

/-- The table that selects with `t₂` first and from that with `t₁`. -/
def compose (t₁ t₂ : List ℕ) : List ℕ := select t₁ 0 t₂

theorem select_select {t₁ t₂ : List ℕ} (d : α) (xs : List α)
    (h : ∀ j ∈ t₁, j - 1 < t₂.length) :
    select t₁ d (select t₂ d xs) = select (compose t₁ t₂) d xs := by
  simp only [select, compose, List.map_map]
  apply List.map_congr_left
  intro j hj
  have hlt := h j hj
  simp [hlt]

theorem select_range (d : α) (xs : List α) : select (List.range' 1 xs.length) d xs = xs := by
  apply List.ext_getElem
  · simp
  · intro i hi _
    rw [select_length, List.length_range'] at hi
    simp [select, hi]

/-- Two tables of `n` entries whose composition is the identity. -/
theorem select_inverse {t₁ t₂ : List ℕ} {n : ℕ} (d : α) {xs : List α} (hlen : xs.length = n)
    (hbound : ∀ j ∈ t₁, j - 1 < t₂.length) (hid : compose t₁ t₂ = List.range' 1 n) :
    select t₁ d (select t₂ d xs) = xs := by
  rw [select_select d xs hbound, hid, ← hlen, select_range]

/-! ## Feistel networks -/

section Feistel
variable (mix : α → α → α) (F : κ → α → α)

def round (k : κ) (x : α × α) : α × α := (x.2, mix (F k x.2) x.1)

def rounds (ks : List κ) (x : α × α) : α × α := ks.foldl (fun x k => round mix F k x) x

variable {mix F} {P : α → Prop}

theorem rounds_keeps (hF : ∀ k a, P a → P (F k a)) (hclosed : ∀ a b, P a → P b → P (mix a b))
    (ks : List κ) {x : α × α} (h : P x.1 ∧ P x.2) :
    P (rounds mix F ks x).1 ∧ P (rounds mix F ks x).2 := by
  induction ks generalizing x with
  | nil => exact h
  | cons k ks ih => exact ih ⟨h.2, hclosed _ _ (hF k _ h.2) h.1⟩

/-- The same rounds in the reverse order, with the halves exchanged, lead back. -/
theorem rounds_reverse (hF : ∀ k a, P a → P (F k a)) (hclosed : ∀ a b, P a → P b → P (mix a b))
    (hmix : ∀ a b, P a → P b → mix a (mix a b) = b) (ks : List κ) {x : α × α}
    (h : P x.1 ∧ P x.2) : rounds mix F ks.reverse (rounds mix F ks x).swap = x.swap := by
  induction ks generalizing x with
  | nil => rfl
  | cons k ks ih =>
    have hrest := ih (x := round mix F k x) ⟨h.2, hclosed _ _ (hF k _ h.2) h.1⟩
    have hback : round mix F k (round mix F k x).swap = x.swap := by
      simp only [round, Prod.swap_prod_mk]
      rw [hmix _ _ (hF k _ h.2) h.1]
      rfl
    rw [List.reverse_cons, rounds, List.foldl_append]
    show round mix F k (rounds mix F ks.reverse (rounds mix F ks (round mix F k x)).swap) = x.swap
    rw [hrest, hback]

end Feistel

/-! ## Blocks -/

/-- The first `n` blocks of `k` symbols. -/
def chunks (k : ℕ) : ℕ → List α → List (List α)
  | 0, _ => []
  | n + 1, xs => xs.take k :: chunks k n (xs.drop k)

@[simp] theorem chunks_length (k n : ℕ) (xs : List α) : (chunks k n xs).length = n := by
  induction n generalizing xs with
  | zero => rfl
  | succ n ih => simp [chunks, ih]

theorem length_of_mem_chunks {k n : ℕ} {xs : List α} (h : xs.length = n * k) :
    ∀ b ∈ chunks k n xs, b.length = k := by
  induction n generalizing xs with
  | zero => nofun
  | succ n ih =>
    rw [Nat.succ_mul] at h
    intro b hb
    rcases List.mem_cons.mp hb with rfl | hb
    · rw [List.length_take]
      omega
    · refine ih ?_ b hb
      rw [List.length_drop]
      omega

theorem flatten_chunks {k n : ℕ} {xs : List α} (h : xs.length = n * k) :
    (chunks k n xs).flatten = xs := by
  induction n generalizing xs with
  | zero =>
    rw [Nat.zero_mul] at h
    rw [List.eq_nil_of_length_eq_zero h]
    rfl
  | succ n ih =>
    rw [Nat.succ_mul] at h
    have hdrop : (xs.drop k).length = n * k := by
      rw [List.length_drop]
      omega
    rw [chunks, List.flatten_cons, ih hdrop, List.take_append_drop]

theorem chunks_flatten {k : ℕ} {bs : List (List α)} (h : ∀ b ∈ bs, b.length = k) :
    chunks k bs.length bs.flatten = bs := by
  induction bs with
  | nil => rfl
  | cons b bs ih =>
    have hb := h b List.mem_cons_self
    rw [List.length_cons, List.flatten_cons, chunks, List.take_left' hb, List.drop_left' hb,
      ih fun c hc => h c (List.mem_cons_of_mem b hc)]

theorem length_flatten_blocks {k : ℕ} {bs : List (List α)} (h : ∀ b ∈ bs, b.length = k) :
    bs.flatten.length = bs.length * k := by
  rw [List.length_flatten, List.map_congr_left h, List.map_const', List.sum_replicate_nat]

/-! ## Chaining -/

section Chaining
variable (mix : β → β → β) (E D : β → β)

/-- Each block is mixed with the ciphertext before it. -/
def chainEncrypt : β → List β → List β
  | _, [] => []
  | v, b :: bs => E (mix b v) :: chainEncrypt (E (mix b v)) bs

def chainDecrypt : β → List β → List β
  | _, [] => []
  | v, c :: cs => mix (D c) v :: chainDecrypt c cs

variable {mix E D} {P : β → Prop}

theorem chainEncrypt_keeps (hE : ∀ b, P b → P (E b)) (hclosed : ∀ a b, P a → P b → P (mix a b))
    {bs : List β} {v : β} (hv : P v) (hbs : ∀ b ∈ bs, P b) :
    ∀ c ∈ chainEncrypt mix E v bs, P c := by
  induction bs generalizing v with
  | nil => nofun
  | cons b bs ih =>
    have hc := hE _ (hclosed b v (hbs b List.mem_cons_self) hv)
    intro c hmem
    rcases List.mem_cons.mp hmem with rfl | hmem
    · exact hc
    · exact ih hc (fun b' hb' => hbs b' (List.mem_cons_of_mem b hb')) c hmem

@[simp] theorem chainEncrypt_length (v : β) (bs : List β) :
    (chainEncrypt mix E v bs).length = bs.length := by
  induction bs generalizing v with
  | nil => rfl
  | cons b bs ih => simp [chainEncrypt, ih]

/-- The vector is the ciphertext before on both sides. -/
theorem chainDecrypt_chainEncrypt (hE : ∀ b, P b → P (E b))
    (hclosed : ∀ a b, P a → P b → P (mix a b)) (hmix : ∀ a b, P a → P b → mix (mix a b) b = a)
    (hinv : ∀ b, P b → D (E b) = b) {bs : List β} {v : β} (hv : P v) (hbs : ∀ b ∈ bs, P b) :
    chainDecrypt mix D v (chainEncrypt mix E v bs) = bs := by
  induction bs generalizing v with
  | nil => rfl
  | cons b bs ih =>
    have hb := hbs b List.mem_cons_self
    have hbv := hclosed b v hb hv
    rw [chainEncrypt, chainDecrypt, hinv _ hbv, hmix b v hb hv,
      ih (hE _ hbv) fun b' hb' => hbs b' (List.mem_cons_of_mem b hb')]

end Chaining

end DevFramework.BlockCipher
