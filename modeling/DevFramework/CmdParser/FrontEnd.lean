import DevFramework.CmdParser.Bison
import DevFramework.CmdParser.Output
import Mathlib.Data.List.TakeWhile

/-! # From a file to the output (FlexParser/Flex/parser.tab.cpp)

`main` of the compiler. The tokens that its scanner takes from a file are those of `Token.lean`, so
what is known of a list of them holds of a file.
-/
namespace DevFramework.CmdParser
open Rules RegExp
set_option autoImplicit false
set_option maxHeartbeats 250000

/-! ## The program -/

/-- `check_utf8_bom`; what cannot be read stays 0. -/
def checkUtf8Bom (fd : Text) : Bool :=
  fd.getD 0 '\x00' = '\xef' && fd.getD 1 '\x00' = '\xbb' && fd.getD 2 '\x00' = '\xbf'

/-- `set_target_type`: `output_`, which stays null for any other text. -/
def setTargetType (trans : Text → Text) (tar : Text) : Option TargetOutput :=
  if tar = "-cpp".toList then some (cppOutput trans)
  else if tar = "-go".toList then some goOutput
  else none

/-- A file that was opened: its bytes, and how `YY_INPUT` gets those behind the first three. -/
structure InFile where
  bytes : Text
  reads : List Read
  rest : reads.flatMap Read.bytes = bytes.drop 3

/-- How the program ends; `exited` is `exit(0)` in an action. -/
inductive Outcome where
  | notSupported
  | exited
  | noOutput
  | output (result : Result Drain)
  | stopped (ending : Ending)

/-- `main`, with the arguments behind the program's name. -/
def main (env : Env) (trans : Text → Text) (fopen : Text → InFile) (argv : List Text) : Outcome :=
  let fd := fopen (argv.headD "cmd_def.zdef".toList)
  if !checkUtf8Bom fd.bytes then .notSupported
  else
    let target := setTargetType trans ((argv.drop 1).headD "-cpp".toList)
    match yyparse fd.reads with
    | .accept c _ =>
      match target with
      | none => .noOutput
      | some tgt => .output (output env tgt c.parser)
    | .exit => .exited
    | ending => .stopped ending

/-! ## The lexemes of the rules -/

/-- Its rule, counted from zero. -/
def Lexeme.act : Lexeme → ℕ
  | .globalCmt _ => 0
  | .sglineCmt _ => 1
  | .index _ => 2
  | .fileName _ => 3
  | .takeBits _ _ => 4
  | .cmdName _ _ => 5

theorem Lexeme.act_lt (l : Lexeme) : l.act < 6 := by
  cases l <;> simp [Lexeme.act]

theorem Lexeme.act_rule (l : Lexeme) : flexRules[l.act]? = some l.rule := by
  cases l <;> rfl

theorem strdup_eq {u : Text} (hu : eobChar ∉ u) : strdup u = u :=
  List.takeWhile_eq_self_iff.mpr fun _ hc => decide_eq_true fun heq => hu (heq ▸ hc)

theorem digitChar_of_isDigit {c : Char} (hc : c.isDigit = true) :
    ∃ i : Fin 10, Nat.digitChar i = c := by
  rw [Char.isDigit, Bool.and_eq_true, decide_eq_true_eq, decide_eq_true_eq] at hc
  have hlow : 48 ≤ c.toNat := hc.1
  have hhigh : c.toNat ≤ 57 := hc.2
  have hdigit : ∀ i : Fin 10, Nat.digitChar i = Char.ofNat (i + 48) := by decide
  refine ⟨⟨c.toNat - 48, by omega⟩, (hdigit _).trans ?_⟩
  rw [show c.toNat - 48 + 48 = c.toNat by omega, Char.ofNat_toNat]

theorem exists_digits {w : Text} (hw : Matches digitsRule w) : ∃ d : Digits, d.text = w := by
  obtain ⟨hne, hall⟩ := matches_plus_class.mp hw
  have hmap : ∀ v : Text, (∀ c ∈ v, c.isDigit = true) →
      ∃ l : List (Fin 10), (l.map fun (i : Fin 10) => Nat.digitChar i) = v := by
    intro v hv
    induction v with
    | nil => exact ⟨[], rfl⟩
    | cons c v ih =>
      obtain ⟨i, hi⟩ := digitChar_of_isDigit (hv c List.mem_cons_self)
      obtain ⟨l, hl⟩ := ih fun d hd => hv d (List.mem_cons_of_mem c hd)
      exact ⟨i :: l, by rw [List.map_cons, hi, hl]⟩
  obtain ⟨l, hl⟩ := hmap w hall
  refine ⟨⟨l, fun hnil => hne ?_⟩, hl⟩
  rw [← hl, hnil]
  rfl

/-- What stands between two brackets. -/
theorem matches_brackets {r : RegExp Char} {w : Text}
    (h : Matches (.seq (.word ['[']) (.seq r (.word [']']))) w) :
    ∃ v, Matches r v ∧ w = '[' :: (v ++ [']']) := by
  obtain ⟨o, w', rfl, ho, h'⟩ := matches_seq.mp h
  obtain ⟨v, e, rfl, hv, he⟩ := matches_seq.mp h'
  rw [matches_word.mp ho, matches_word.mp he]
  exact ⟨v, hv, rfl⟩

theorem exists_index {w : Text} (h : Matches indexRule w) :
    ∃ number, (Lexeme.index number).text = w := by
  obtain ⟨v, hv, rfl⟩ := matches_brackets h
  obtain ⟨d, rfl⟩ := exists_digits hv
  exact ⟨d, rfl⟩

theorem exists_fileName {w : Text} (h : Matches fileNameRule w) :
    ∃ name, (Lexeme.fileName name).text = w := by
  obtain ⟨v, hv, rfl⟩ := matches_brackets h
  exact ⟨⟨v, fun c hc => of_decide_eq_true (matches_class.mp hv c hc)⟩, rfl⟩

theorem exists_takeBits {w : Text} (h : Matches takeBitsRule w) :
    ∃ left right, (Lexeme.takeBits left right).text = w := by
  obtain ⟨o, w', rfl, ho, h'⟩ := matches_seq.mp h
  obtain ⟨v, w', rfl, hv, h'⟩ := matches_seq.mp h'
  obtain ⟨d, w', rfl, hd, h'⟩ := matches_seq.mp h'
  obtain ⟨v', e, rfl, hv', he⟩ := matches_seq.mp h'
  obtain ⟨left, rfl⟩ := exists_digits hv
  obtain ⟨right, rfl⟩ := exists_digits hv'
  refine ⟨left, right, ?_⟩
  rw [matches_word.mp ho, matches_word.mp hd, matches_word.mp he]
  simp [Lexeme.text, rangeText]

theorem exists_cmdName {w : Text} (h : Matches cmdNameRule w) :
    ∃ id spaces, (Lexeme.cmdName id spaces).text = w := by
  obtain ⟨u, w', rfl, hu, h'⟩ := matches_seq.mp h
  obtain ⟨v, e, rfl, hv, he⟩ := matches_seq.mp h'
  obtain ⟨hne, hall⟩ := matches_plus_class.mp hu
  have hspaces : v = List.replicate v.length ' ' :=
    List.eq_replicate_iff.mpr ⟨rfl, fun c hc => of_decide_eq_true (matches_class.mp hv c hc)⟩
  refine ⟨⟨u, hne, fun c hc => of_decide_eq_true (hall c hc)⟩, v.length, ?_⟩
  rw [matches_word.mp he, Lexeme.text, ← hspaces]

/-! ## The tokens of a file -/

/-- A token of the scanner and the one of a definition that it is: its text is what `_strdup` keeps
of `yytext`. -/
structure Stands (t : ℕ × Text × ℕ) (token : Token) : Prop where
  act : t.1 = token.lexeme.act + 1
  text : token.lexeme.text = strdup t.2.1
  line : token.yylineno = t.2.2
  spelled : eobChar ∉ t.2.1 → token.lexeme.Spelled

/-- The rules of comments alone match a NUL. -/
theorem noNul_of_matches {k : ℕ} (hk : 2 ≤ k) (hk' : k < 6) {r : RegExp Char}
    (hr : flexRules[k]? = some r) {u : Text} (hu : Matches r u) : eobChar ∉ u := by
  have hlacks : ∀ k < 6, 2 ≤ k → (flexRules[k]?.all fun r => r.lacks eobChar) = true := by decide
  have hlack := hlacks k hk' hk
  rw [hr] at hlack
  exact not_mem_of_lacks hu hlack

theorem exists_lexeme {k : ℕ} (hk : k < 6) {r : RegExp Char} (hr : flexRules[k]? = some r)
    {u : Text} (hu : Matches r u) :
    ∃ l : Lexeme, l.act = k ∧ l.text = strdup u ∧ (eobChar ∉ u → l.Spelled) := by
  have hcomment : ∀ l : Lexeme, l.rule = r → l.text = strdup u → eobChar ∉ u → l.Spelled := by
    intro l hrule htext hnul
    rw [Lexeme.Spelled, htext, strdup_eq hnul, hrule]
    exact hu
  have hother : ∀ l : Lexeme, l.act = k → l.text = u → 2 ≤ k →
      ∃ l : Lexeme, l.act = k ∧ l.text = strdup u ∧ (eobChar ∉ u → l.Spelled) := by
    intro l hact htext hle
    have hsame : l.rule = r := Option.some.inj (l.act_rule.symm.trans (by rw [hact, hr]))
    have hdup : l.text = strdup u := by rw [htext, strdup_eq (noNul_of_matches hle hk hr hu)]
    exact ⟨l, hact, hdup, hcomment l hsame hdup⟩
  obtain rfl | rfl | rfl | rfl | rfl | rfl :
      k = 0 ∨ k = 1 ∨ k = 2 ∨ k = 3 ∨ k = 4 ∨ k = 5 := by omega
  · exact ⟨.globalCmt (strdup u), rfl, rfl, hcomment _ (Option.some.inj hr) rfl⟩
  · exact ⟨.sglineCmt (strdup u), rfl, rfl, hcomment _ (Option.some.inj hr) rfl⟩
  · obtain ⟨number, htext⟩ := exists_index (Option.some.inj hr ▸ hu)
    exact hother (.index number) rfl htext le_rfl
  · obtain ⟨name, htext⟩ := exists_fileName (Option.some.inj hr ▸ hu)
    exact hother (.fileName name) rfl htext (by decide)
  · obtain ⟨left, right, htext⟩ := exists_takeBits (Option.some.inj hr ▸ hu)
    exact hother (.takeBits left right) rfl htext (by decide)
  · obtain ⟨id, spaces, htext⟩ := exists_cmdName (Option.some.inj hr ▸ hu)
    exact hother (.cmdName id spaces) rfl htext (by decide)

/-- The tokens that the scanner takes from a text are those of a definition. -/
theorem Scans.exists_tokens {n : ℕ} (hn : 0 < n) {text echoed : Text}
    {tokens : List (ℕ × Text × ℕ)} (h : Scans n text tokens echoed) :
    ∃ ts : List Token, List.Forall₂ Stands tokens ts := by
  have hrule := h.token_rule
  clear h
  induction tokens with
  | nil => exact ⟨[], .nil⟩
  | cons t tokens ih =>
    obtain ⟨hline, k, hk, hact, r, hr, hu⟩ := hrule t List.mem_cons_self
    obtain ⟨l, hl, htext, hspelled⟩ := exists_lexeme hk hr hu
    obtain ⟨ts, hts⟩ := ih fun t ht => hrule t (List.mem_cons_of_mem _ ht)
    exact ⟨⟨l, t.2.2, hn.trans_le hline⟩ :: ts,
      .cons ⟨by rw [hact, hl], htext, rfl, hspelled⟩ hts⟩

theorem Stands.token {t : ℕ × Text × ℕ} {token : Token} (h : Stands t token) (c : Compiler) :
    c.token t = c.command token := by
  obtain ⟨lexeme, line, pos⟩ := token
  obtain ⟨hact, htext, hline, -⟩ := h
  unfold Compiler.token
  rw [hact, ← htext, ← hline]
  cases lexeme <;> rfl

theorem run_stands {tokens : List (ℕ × Text × ℕ)} {ts : List Token}
    (h : List.Forall₂ Stands tokens ts) (c : Compiler) :
    Transition.run Compiler.token c tokens = Transition.run Compiler.command c ts := by
  induction h generalizing c with
  | nil => rfl
  | cons ht _ ih =>
    rw [Transition.run, Transition.run, ht.token]
    exact congrArg _ (funext ih)

/-! ## A run of the program -/

/-- The parser accepts every file, unless an action exits: then it has run the actions of the
tokens, in their order and each with its line. -/
theorem yyparse_spec {reads : List Read} {tokens : List (ℕ × Text × ℕ)} {echoed : Text}
    (h : Scans 1 (reads.flatMap Read.bytes) tokens echoed) {ts : List Token}
    (hts : List.Forall₂ Stands tokens ts) :
    yyparse reads = (compile ts).elim .exit fun c => .accept c echoed := by
  unfold yyparse
  rw [Yacc.run, show (Yacc.init reads).step = _ from Yacc.step_empty]
  refine (Yacc.run_spec (Flex.init_lexes h) le_rfl _ _).trans ?_
  rw [run_stands hts]
  rfl

/-- What the compiler makes of a file with the mark of its encoding is what the actions make of the
tokens that the rules take from the text behind the mark. -/
theorem main_compiles (env : Env) (trans : Text → Text) (fopen : Text → InFile)
    (argv : List Text) :
    ∃ tokens echoed ts,
      Scans 1 ((fopen (argv.headD "cmd_def.zdef".toList)).bytes.drop 3) tokens echoed ∧
      List.Forall₂ Stands tokens ts ∧
      main env trans fopen argv =
        if checkUtf8Bom (fopen (argv.headD "cmd_def.zdef".toList)).bytes then
          (compile ts).elim .exited fun c =>
            (setTargetType trans ((argv.drop 1).headD "-cpp".toList)).elim .noOutput fun tgt =>
              .output (output env tgt c.parser)
        else .notSupported := by
  obtain ⟨tokens, echoed, h⟩ :=
    exists_scans 1 ((fopen (argv.headD "cmd_def.zdef".toList)).bytes.drop 3)
  obtain ⟨ts, hts⟩ := h.exists_tokens one_pos
  refine ⟨tokens, echoed, ts, h, hts, ?_⟩
  rw [← InFile.rest] at h
  unfold main
  cases hbom : checkUtf8Bom (fopen (argv.headD "cmd_def.zdef".toList)).bytes with
  | false => simp only [hbom, Bool.not_false, Bool.false_eq_true, if_true, if_false]
  | true =>
    simp only [hbom, Bool.not_true, Bool.false_eq_true, if_false, if_true, yyparse_spec h hts]
    cases compile ts with
    | none => rfl
    | some c => cases setTargetType trans ((argv.drop 1).headD "-cpp".toList) <;> rfl

end DevFramework.CmdParser
