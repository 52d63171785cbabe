import DevFramework.CmdParser.Token
import DevFramework.Foundations.RegExp

/-! # The rules of the lexer (FlexParser/Flex/lex.l)

The six rules with an action, as flex reads them: a quoted text is itself, `.` is any character but
the end of the line, and a class in brackets that begins with `^` has the end of the line in it. A
token of a definition is spelled as its rule says. The rule of the block comment takes a text from
`/*` to the first `*/` behind it and nothing else.
-/
namespace DevFramework.CmdParser
open Rules RegExp
set_option autoImplicit false
set_option maxHeartbeats 250000

/-! ## The rules -/

/-- `[^*]*`. -/
def notStars : RegExp Char := .star (.one fun c => c ≠ '*')

/-- `\*+`. -/
def someStars : RegExp Char := .plus (.one fun c => c = '*')

/-- `[^/*][^*]*\*+`. -/
def afterStars : RegExp Char := .seq (.one fun c => c ≠ '/' ∧ c ≠ '*') (.seq notStars someStars)

/-- `GLOBALCMT`: `"/\*"[^*]*"\*"+([^/*][^*]*\*+)*"/"`. -/
def globalCmtRule : RegExp Char :=
  .seq (.word ['/', '*']) (.seq notStars (.seq someStars (.seq (.star afterStars) (.word ['/']))))

/-- `SGLINECMT`: `"//"+.*`. -/
def sglineCmtRule : RegExp Char :=
  .seq (.plus (.word ['/', '/'])) (.star (.one fun c => c ≠ '\n'))

/-- `[0-9]+`. -/
def digitsRule : RegExp Char := .plus (.one Char.isDigit)

/-- `INDEX`: `"\["[0-9]+"\]"`. -/
def indexRule : RegExp Char := .seq (.word ['[']) (.seq digitsRule (.word [']']))

/-- `FILENAME`: `"\["[a-zA-Z_]*"\]"`. -/
def fileNameRule : RegExp Char :=
  .seq (.word ['[']) (.seq (.star (.one fun c => c.isAlpha ∨ c = '_')) (.word [']']))

/-- `TAKEBITS`: `"\["[0-9]+[-][0-9]+"\]"`. -/
def takeBitsRule : RegExp Char :=
  .seq (.word ['[']) (.seq digitsRule (.seq (.word ['-']) (.seq digitsRule (.word [']']))))

/-- `CMDNAME`: `[a-zA-Z0-9_]+[ ]*";"`. -/
def cmdNameRule : RegExp Char :=
  .seq (.plus (.one fun c => c.isAlphanum ∨ c = '_'))
    (.seq (.star (.one fun c => c = ' ')) (.word [';']))

def Lexeme.rule : Lexeme → RegExp Char
  | .globalCmt _ => globalCmtRule
  | .sglineCmt _ => sglineCmtRule
  | .index _ => indexRule
  | .fileName _ => fileNameRule
  | .takeBits _ _ => takeBitsRule
  | .cmdName _ _ => cmdNameRule

/-- Its text is one that its rule matches. -/
def Lexeme.Spelled (l : Lexeme) : Prop := Matches l.rule l.text

instance (l : Lexeme) : Decidable l.Spelled := inferInstanceAs (Decidable (Matches _ _))

theorem Digits.matches_text (d : Digits) : Matches digitsRule d.text := by
  refine matches_plus_class.mpr ⟨?_, ?_⟩
  · simpa [Digits.text] using d.nonempty
  · intro c hc
    obtain ⟨i, -, rfl⟩ := List.mem_map.mp hc
    have hdigit : ∀ i : Fin 10, (Nat.digitChar i).isDigit = true := by decide
    exact hdigit i

/-- The parts of the other tokens are what their rules admit. -/
theorem Lexeme.spelled_of_parts {l : Lexeme} (hglobal : ∀ text, l ≠ .globalCmt text)
    (hsgline : ∀ text, l ≠ .sglineCmt text) : l.Spelled := by
  have hword : ∀ u : Text, Matches (.word u) u := fun u => matches_word.mpr rfl
  cases l with
  | globalCmt text => exact absurd rfl (hglobal text)
  | sglineCmt text => exact absurd rfl (hsgline text)
  | index number => exact .seq (hword ['[']) (.seq number.matches_text (hword _))
  | fileName name =>
    refine .seq (hword ['[']) (.seq (matches_class.mpr fun c hc => ?_) (hword _))
    exact decide_eq_true (name.admitted c hc)
  | takeBits left right =>
    have htext : Lexeme.text (.takeBits left right) =
        ['['] ++ (left.text ++ (['-'] ++ (right.text ++ [']']))) := by
      simp [Lexeme.text, rangeText]
    rw [Spelled, htext]
    exact .seq (hword _)
      (.seq left.matches_text (.seq (hword _) (.seq right.matches_text (hword _))))
  | cmdName id spaces =>
    refine .seq (matches_plus_class.mpr ⟨id.nonempty, fun c hc => ?_⟩)
      (.seq (matches_class.mpr fun c hc => ?_) (hword _))
    · exact decide_eq_true (id.admitted c hc)
    · exact decide_eq_true (List.eq_of_mem_replicate hc)

/-! ## Block comments -/

/-- What is left to match of a block comment: behind `/*`, or wherever no star has just been read. -/
def inComment : RegExp Char :=
  .seq notStars (.seq someStars (.seq (.star afterStars) (.word ['/'])))

/-- What is left to match of it behind a star. -/
def atStar : RegExp Char :=
  .seq (.star (.one fun c => c = '*')) (.seq (.star afterStars) (.word ['/']))

theorem not_inComment_nil : ¬ Matches inComment [] := by
  rw [← nullable_iff]
  decide

theorem inComment_cons {c : Char} {w : Text} :
    Matches inComment (c :: w) ↔ if c = '*' then Matches atStar w else Matches inComment w := by
  have hstars : Matches (.seq someStars (.seq (.star afterStars) (.word ['/']))) (c :: w) ↔
      c = '*' ∧ Matches atStar w := by
    rw [someStars, plus, matches_seq_assoc, matches_seq_one_cons, decide_eq_true_iff]
    rfl
  rw [inComment, notStars, matches_seq_class_cons, decide_eq_true_iff, hstars]
  split
  next h => simp [h]
  next h => simp [h]

theorem atStar_cons {c : Char} {w : Text} : Matches atStar (c :: w) ↔
    if c = '/' then w = [] else Matches inComment (c :: w) := by
  have hafter : Matches (.seq afterStars (.seq (.star afterStars) (.word ['/']))) (c :: w) ↔
      (c ≠ '/' ∧ c ≠ '*') ∧ Matches inComment w := by
    rw [afterStars, matches_seq_assoc, matches_seq_one_cons, decide_eq_true_iff, matches_seq_assoc]
    rfl
  have hslash : Matches (.word ['/']) (c :: w) ↔ c = '/' ∧ w = [] := by
    rw [matches_word, List.cons.injEq]
  rw [atStar, matches_seq_class_cons, matches_seq_star_cons rfl, hafter, hslash,
    decide_eq_true_iff, inComment_cons]
  by_cases h : c = '/'
  · simp [h]
  · by_cases h' : c = '*'
    · simp [h']
      rfl
    · simp [h, h']

/-- The star that is read ends the comment if a slash follows it. -/
theorem inComment_step {c : Char} {w : Text} : Matches inComment (c :: w) ↔
    c = '*' ∧ w = ['/'] ∨ ¬ (c = '*' ∧ w.head? = some '/') ∧ Matches inComment w := by
  rw [inComment_cons]
  by_cases hc : c = '*'
  · rw [if_pos hc]
    cases w with
    | nil =>
      have hnot : ¬ Matches atStar [] := by
        rw [← nullable_iff]
        decide
      simp [hnot, not_inComment_nil]
    | cons d w =>
      rw [atStar_cons]
      by_cases hd : d = '/'
      · simp [hc, hd]
      · simp [hc, hd]
  · simp [hc]

/-- `*/` stands at `p`. -/
def Closes (text : Text) (p : ℕ) : Prop := text[p]? = some '*' ∧ text[p + 1]? = some '/'

instance (text : Text) (p : ℕ) : Decidable (Closes text p) :=
  inferInstanceAs (Decidable (_ ∧ _))

theorem closes_zero {c : Char} {w : Text} : Closes (c :: w) 0 ↔ c = '*' ∧ w.head? = some '/' := by
  rw [Closes, List.getElem?_cons_zero, Option.some.injEq, Nat.zero_add, List.getElem?_cons_succ,
    List.head?_eq_getElem?]

theorem closes_succ {c : Char} {w : Text} {p : ℕ} : Closes (c :: w) (p + 1) ↔ Closes w p := Iff.rfl

/-- `*/` stands at `p` and nowhere before. -/
def ClosesFirst (text : Text) (p : ℕ) : Prop := Closes text p ∧ ∀ q < p, ¬ Closes text q

theorem closesFirst_cons {c : Char} {w : Text} {p : ℕ} (h : ¬ Closes (c :: w) 0) :
    ClosesFirst (c :: w) (p + 1) ↔ ClosesFirst w p := by
  refine and_congr closes_succ ⟨fun hbefore q hq => ?_, fun hbefore q hq => ?_⟩
  · exact hbefore (q + 1) (Nat.succ_lt_succ hq)
  · cases q with
    | zero => exact h
    | succ q => exact hbefore q (Nat.lt_of_succ_lt_succ hq)

theorem closesFirst_zero {w : Text} {p : ℕ} (h : Closes w 0) : ClosesFirst w p ↔ p = 0 := by
  constructor
  · intro hp
    by_contra hne
    exact hp.2 0 (Nat.pos_of_ne_zero hne) h
  · rintro rfl
    exact ⟨h, fun q hq => absurd hq (Nat.not_lt_zero q)⟩

/-- A front part of the text that goes on behind the first character has the next one, too. -/
theorem head_of_isPrefix {w u : Text} {c : Char} (hu : u <+: w) (hc : u.head? = some c) :
    w.head? = some c := by
  obtain ⟨rest, rfl⟩ := hu
  cases u with
  | nil => cases hc
  | cons d u => exact hc

/-- The rest of a comment at the front of a text ends with the first `*/`. -/
theorem prefix_inComment {w u : Text} (hu : u <+: w) :
    Matches inComment u ↔ ∃ p, ClosesFirst w p ∧ u = w.take (p + 2) := by
  induction w generalizing u with
  | nil =>
    rw [List.prefix_nil.mp hu]
    refine iff_of_false not_inComment_nil ?_
    rintro ⟨p, ⟨⟨hstar, -⟩, -⟩, -⟩
    cases hstar
  | cons c w ih =>
    cases u with
    | nil =>
      refine iff_of_false not_inComment_nil ?_
      rintro ⟨p, -, htake⟩
      cases htake
    | cons d u =>
      obtain ⟨rfl, htail⟩ := List.cons_prefix_cons.mp hu
      rw [inComment_step]
      by_cases h0 : Closes (d :: w) 0
      · -- the comment ends here
        obtain ⟨hd, hw⟩ := closes_zero.mp h0
        have hmore : ¬ (¬ (d = '*' ∧ u.head? = some '/') ∧ Matches inComment u) := by
          rintro ⟨hnot, hmatch⟩
          cases u with
          | nil => exact not_inComment_nil hmatch
          | cons e u => exact hnot ⟨hd, (head_of_isPrefix htail rfl).symm.trans hw⟩
        rw [or_iff_left hmore, and_iff_right hd]
        simp only [closesFirst_zero h0, exists_eq_left, List.take_succ_cons, List.cons.injEq,
          true_and]
        cases w with
        | nil => cases hw
        | cons e rest =>
          obtain rfl := Option.some.inj hw
          rfl
      · have hnot : ¬ (d = '*' ∧ u.head? = some '/') := by
          rintro ⟨hd, hhead⟩
          exact h0 (closes_zero.mpr ⟨hd, head_of_isPrefix htail hhead⟩)
        have hend : ¬ (d = '*' ∧ u = ['/']) := by
          rintro ⟨hd, rfl⟩
          exact hnot ⟨hd, rfl⟩
        rw [or_iff_right hend, and_iff_right hnot, ih htail]
        constructor
        · rintro ⟨p, hp, rfl⟩
          exact ⟨p + 1, (closesFirst_cons h0).mpr hp, rfl⟩
        · rintro ⟨p, hp, htake⟩
          cases p with
          | zero => exact absurd hp.1 h0
          | succ p => exact ⟨p, (closesFirst_cons h0).mp hp, (List.cons.inj htake).2⟩

theorem globalCmt_matches {u : Text} :
    Matches globalCmtRule u ↔ ∃ v, u = '/' :: '*' :: v ∧ Matches inComment v := by
  rw [globalCmtRule, matches_seq]
  constructor
  · rintro ⟨o, v, rfl, ho, hv⟩
    rw [matches_word.mp ho]
    exact ⟨v, rfl, hv⟩
  · rintro ⟨v, rfl, hv⟩
    exact ⟨['/', '*'], v, rfl, matches_word.mpr rfl, hv⟩

/-- A text that begins with `/*`: the longest match of the rule is what ends with the first `*/`
behind that, and if there is none the rule does not match. -/
theorem globalCmt_longest (text : Text) (hbegin : ['/', '*'] <+: text) :
    (∀ p, 2 ≤ p → Closes text p → (∀ q, 2 ≤ q → q < p → ¬ Closes text q) →
      globalCmtRule.longest text = some (text.take (p + 2))) ∧
    ((∀ p, 2 ≤ p → ¬ Closes text p) → globalCmtRule.longest text = none) := by
  obtain ⟨w, rfl⟩ := hbegin
  have hstrip : ∀ {v : Text}, '/' :: '*' :: v <+: ['/', '*'] ++ w → v <+: w := fun h =>
    (List.prefix_append_right_inj ['/', '*']).mp h
  refine ⟨fun p hp hclose hbefore => ?_, fun hnone => longest_eq_none.mpr fun u hu hmatch => ?_⟩
  · obtain ⟨p, rfl⟩ : ∃ k, p = k + 2 := ⟨p - 2, by omega⟩
    have hfirst : ClosesFirst w p := by
      refine ⟨hclose, fun q hq hclose' => ?_⟩
      exact hbefore (q + 2) (Nat.le_add_left 2 q) (Nat.add_lt_add_right hq 2) hclose'
    refine longest_of_unique (List.take_prefix _ _) ?_ fun u hu hmatch => ?_
    · refine globalCmt_matches.mpr ⟨w.take (p + 2), rfl, ?_⟩
      exact (prefix_inComment (List.take_prefix _ _)).mpr ⟨p, hfirst, rfl⟩
    · obtain ⟨v, rfl, hv⟩ := globalCmt_matches.mp hmatch
      obtain ⟨k, hk, rfl⟩ := (prefix_inComment (hstrip hu)).mp hv
      obtain rfl : k = p := by
        rcases Nat.lt_trichotomy k p with hlt | heq | hlt
        · exact absurd hk.1 (hfirst.2 k hlt)
        · exact heq
        · exact absurd hfirst.1 (hk.2 p hlt)
      rfl
  · obtain ⟨v, rfl, hv⟩ := globalCmt_matches.mp hmatch
    obtain ⟨k, hk, -⟩ := (prefix_inComment (hstrip hu)).mp hv
    exact hnone (k + 2) (Nat.le_add_left 2 k) hk.1

/-- `/***/x;/**/`: the comment ends before the command. -/
theorem globalCmt_longest_stars :
    globalCmtRule.longest "/***/x;/**/".toList = some "/***/".toList := by
  refine (globalCmt_longest _ (by decide)).1 3 (by decide) (by decide) ?_
  intro q h2 h3
  obtain rfl : q = 2 := by omega
  decide

end DevFramework.CmdParser
