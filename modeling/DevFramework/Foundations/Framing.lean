import Mathlib.Data.List.Basic
import Mathlib.Tactic.Common

/-! # Streams of frames

A format says what the front of a stream holds: a complete frame, something that no continuation
can make a frame, or too little to tell. `Format.parse` is the reference parse of a whole stream.
-/
namespace DevFramework.Framing
set_option autoImplicit false
set_option maxHeartbeats 250000

variable {α β ε : Type*}

/-- The front of a stream; a frame takes its first `len` items. -/
inductive Front (β ε : Type*) where
  | short
  | bad (e : ε)
  | frame (x : β) (len : ℕ)

/-- A format: every frame takes at least one item, and only items that are there. -/
structure Format (α β ε : Type*) where
  front : List α → Front β ε
  pos : ∀ {bs x n}, front bs = .frame x n → 0 < n
  le : ∀ {bs x n}, front bs = .frame x n → n ≤ bs.length

/-- What a stream holds: its frames, the error it ends in if any, and what is left over. -/
structure Parsed (α β ε : Type*) where
  frames : List β
  error : Option ε
  rest : List α

/-- The parse of a stream that starts with the frames `xs`. -/
def Parsed.after (xs : List β) (p : Parsed α β ε) : Parsed α β ε :=
  { p with frames := xs ++ p.frames }

@[simp] theorem Parsed.after_nil (p : Parsed α β ε) : p.after [] = p := rfl

theorem Parsed.after_after (xs ys : List β) (p : Parsed α β ε) :
    (p.after ys).after xs = p.after (xs ++ ys) := by
  simp [Parsed.after]

namespace Format
variable (F : Format α β ε)

/-- Take frames as long as there are any. -/
def parse (bs : List α) : Parsed α β ε :=
  match _h : F.front bs with
  | .short => { frames := [], error := none, rest := bs }
  | .bad e => { frames := [], error := some e, rest := bs }
  | .frame x n => (parse (bs.drop n)).after [x]
termination_by bs.length
decreasing_by
  have := F.pos _h
  have := F.le _h
  simp only [List.length_drop]
  omega

variable {F}

theorem parse_short {bs : List α} (h : F.front bs = .short) :
    F.parse bs = { frames := [], error := none, rest := bs } := by
  rw [parse]
  split <;> simp_all

theorem parse_bad {bs : List α} {e : ε} (h : F.front bs = .bad e) :
    F.parse bs = { frames := [], error := some e, rest := bs } := by
  rw [parse]
  split <;> simp_all

theorem parse_frame {bs : List α} {x : β} {n : ℕ} (h : F.front bs = .frame x n) :
    F.parse bs = (F.parse (bs.drop n)).after [x] := by
  rw [parse]
  split <;> simp_all

theorem parse_frame_append {bs rest : List α} {x : β}
    (h : F.front (bs ++ rest) = .frame x bs.length) :
    F.parse (bs ++ rest) = (F.parse rest).after [x] := by
  rw [parse_frame h, List.drop_left]

/-- Encoded frames in front of a stream are parsed as what they encode. -/
theorem parse_encoded {γ : Type*} (enc : γ → List α) (dec : γ → β) (xs : List γ)
    (h : ∀ x ∈ xs, ∀ rest, F.front (enc x ++ rest) = .frame (dec x) (enc x).length)
    (rest : List α) :
    F.parse (xs.flatMap enc ++ rest) = (F.parse rest).after (xs.map dec) := by
  induction xs with
  | nil => simp
  | cons x xs ih =>
    rw [List.flatMap_cons, List.append_assoc, parse_frame_append (h x (by simp) _),
      ih fun y hy => h y (by simp [hy]), Parsed.after_after]
    rfl

/-- The frames of a stream spell it, up to what is left over. -/
theorem parse_spells (enc : β → List α)
    (henc : ∀ {bs x n}, F.front bs = .frame x n → bs.take n = enc x) (bs : List α) :
    (F.parse bs).frames.flatMap enc ++ (F.parse bs).rest = bs := by
  induction bs using parse.induct (F := F) with
  | case1 bs h => simp [parse_short h]
  | case2 bs e h => simp [parse_bad h]
  | case3 bs x n h ih =>
    rw [parse_frame h]
    simp only [Parsed.after, List.singleton_append, List.flatMap_cons, List.append_assoc]
    rw [ih, ← henc h, List.take_append_drop]

/-- What every frame at the front of a stream has, every frame of a stream has. -/
theorem parse_frames_all {P : β → Prop} (hP : ∀ {bs x n}, F.front bs = .frame x n → P x)
    (bs : List α) : ∀ x ∈ (F.parse bs).frames, P x := by
  induction bs using parse.induct (F := F) with
  | case1 bs h => simp [parse_short h]
  | case2 bs e h => simp [parse_bad h]
  | case3 bs y n h ih =>
    rw [parse_frame h]
    intro x hx
    rcases List.mem_cons.mp hx with rfl | hx
    · exact hP h
    · exact ih x hx

theorem parse_rest (bs : List α) (x : β) (n : ℕ) : F.front (F.parse bs).rest ≠ .frame x n := by
  induction bs using parse.induct (F := F) with
  | case1 bs h => simp [parse_short h, h]
  | case2 bs e h => simp [parse_bad h, h]
  | case3 bs y m h ih =>
    rw [parse_frame h]
    exact ih

end Format

end DevFramework.Framing
