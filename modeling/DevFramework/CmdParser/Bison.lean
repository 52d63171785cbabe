import DevFramework.CmdParser.Scanning
import DevFramework.CmdParser.Parser

/-! # The generated parser (FlexParser/Flex/parser.tab.cpp)

The tables of `yyparse` and its loop, which calls the scanner where a state needs a token. The stack
of the states is a list, its top first; that of the values has nothing that an action reads, since
all actions take their text from `yylval`. `yychar` is `none` for `YYEMPTY`.
-/
namespace DevFramework.CmdParser
set_option autoImplicit false
set_option maxHeartbeats 250000

/-! ## The tables -/

/-- `yytokentype`, by the rules of the scanner that return a token. -/
def yytokentype : List ℕ := [258, 259, 260, 261, 262, 263]

/-- `yytranslate`. -/
def translateTable : List ℕ := 0 :: (List.replicate 255 2 ++ [1, 2, 3, 4, 5, 6, 7, 8])

/-- `yyr1`. -/
def r1Table : List ℕ := [0, 9, 10, 10, 11, 11, 11, 11, 11, 11, 12, 13, 14, 15, 16, 17]

/-- `yyr2`. -/
def r2Table : List ℕ := [0, 2, 0, 2, 1, 1, 1, 1, 1, 1, 1, 1, 1, 1, 1, 1]

/-- `yydefact`. -/
def defactTable : List ℕ := [2, 0, 1, 10, 11, 12, 13, 14, 15, 3, 4, 5, 6, 7, 8, 9]

/-- `yydefgoto`. -/
def defgotoTable : List ℤ := [-1, 1, 9, 10, 11, 12, 13, 14, 15]

/-- `yypact`. -/
def pactTable : List ℤ := [-1, 0, -1, -1, -1, -1, -1, -1, -1, -1, -1, -1, -1, -1, -1, -1]

/-- `yypgoto`. -/
def pgotoTable : List ℤ := [-1, -1, -1, -1, -1, -1, -1, -1, -1]

/-- `yytable`. -/
def actionTable : List ℕ := [2, 0, 0, 3, 4, 5, 6, 7, 8]

/-- `yycheck`. -/
def checkTable : List ℤ := [0, -1, -1, 3, 4, 5, 6, 7, 8]

/-- `YYPACT_NINF`. -/
def yypactNinf : ℤ := -1

/-- `YYLAST`. -/
def yylast : ℤ := 8

/-- `YYNTOKENS`. -/
def yyntokens : ℕ := 9

/-- `YYFINAL`. -/
def yyfinal : ℕ := 2

/-- `YYINITDEPTH`. -/
def yyinitdepth : ℕ := 200

/-- `YYEOF`. -/
def yyeof : ℕ := 0

/-- `YYTRANSLATE`; what is past `YYMAXUTOK` is `YYUNDEFTOK`. -/
def yytranslate (yychar : ℕ) : ℕ := translateTable.getD yychar 2

/-- `yytable[n]`, if `yycheck[n]` is the one that looks. -/
def yytableAt (n : ℤ) (looks : ℕ) : Option ℕ :=
  if 0 ≤ n ∧ n ≤ yylast ∧ checkTable.getD n.toNat (-1) = looks then actionTable[n.toNat]? else none

/-- The state behind a symbol, over the state `top`. -/
def yygoto (symbol top : ℕ) : ℕ :=
  (yytableAt (pgotoTable.getD (symbol - yyntokens) 0 + top) top).getD
    (defgotoTable.getD (symbol - yyntokens) 0).toNat

/-! ## The parser -/

/-- `_strdup`. -/
def strdup (yytext : Text) : Text := yytext.takeWhile fun c => c ≠ eobChar

/-- The actions of parser.y by their rules; `none` where one exits. -/
def Compiler.reduce (c : Compiler) (rule : ℕ) (yylval : Text) (yylineno : ℕ) : Option Compiler :=
  match rule with
  | 10 => some (c.processGlobalComment yylval yylineno)
  | 11 => some (c.processSingleLineComment yylval yylineno)
  | 12 => some c.processIndex
  | 13 => some (c.processCreateNewFile yylval)
  | 14 => c.processTakeBits yylval
  | 15 => c.processCmd yylval yylineno
  | _ => some c

/-- How `yyparse` ends: it accepts, with what the scanner has echoed, an action exits, or it finds
an error. A stack that has to grow is not followed further. -/
inductive Ending where
  | accept (c : Compiler) (echoed : Text)
  | exit
  | syntaxError
  | stackGrows
  | outOfFuel

structure Yacc where
  yyss : List ℕ
  yychar : Option ℕ
  yylval : Text
  flex : Flex
  compiler : Compiler

namespace Yacc

/-- `yyreduce`, up to `yynewstate`. -/
def yyreduce (m : Yacc) (yyn : ℕ) : Except Ending Yacc :=
  match m.compiler.reduce yyn m.yylval m.flex.yylineno with
  | none => .error .exit
  | some compiler =>
    let yyss := m.yyss.drop (r2Table.getD yyn 0)
    .ok { m with yyss := yygoto (r1Table.getD yyn 0) (yyss.headD 0) :: yyss, compiler }

/-- `yydefault`. -/
def yydefault (m : Yacc) : Except Ending Yacc :=
  let yyn := defactTable.getD (m.yyss.headD 0) 0
  if yyn = 0 then .error .syntaxError else m.yyreduce yyn

/-- `if (yychar == YYEMPTY) yychar = YYLEX`. -/
def lookahead (m : Yacc) : Option (ℕ × Yacc) :=
  match m.yychar with
  | some yychar => some (yychar, m)
  | none =>
    match Flex.yylex m.flex.yylexFuel m.flex with
    | none => none
    | some (none, flex) => some (yyeof, { m with yychar := some yyeof, flex })
    | some (some (act, yytext), flex) =>
      let yychar := yytokentype.getD (act - 1) 0
      some (yychar, { m with yychar := some yychar, yylval := strdup yytext, flex })

/-- The rest of `yybackup`, with a token. -/
def yyshift (m : Yacc) (yyn : ℤ) (yychar : ℕ) : Except Ending Yacc :=
  let yytoken := if yychar ≤ yyeof then yyeof else yytranslate yychar
  match yytableAt (yyn + yytoken) yytoken with
  | none => m.yydefault
  | some 0 => m.yyreduce 0
  | some yystate => .ok { m with yyss := yystate :: m.yyss, yychar := none }

/-- From `yysetstate` to the next `yynewstate`. -/
def step (m : Yacc) : Except Ending Yacc :=
  let yystate := m.yyss.headD 0
  if yyinitdepth ≤ m.yyss.length then .error .stackGrows
  else if yystate = yyfinal then .error (.accept m.compiler m.flex.yyout)
  else
    let yyn := pactTable.getD yystate 0
    if yyn = yypactNinf then m.yydefault
    else
      match m.lookahead with
      | none => .error .outOfFuel
      | some (yychar, m) => m.yyshift yyn yychar

def run : ℕ → Yacc → Ending
  | 0, _ => .outOfFuel
  | fuel + 1, m =>
    match m.step with
    | .error ending => ending
    | .ok m => run fuel m

def init (reads : List Read) : Yacc := ⟨[0], none, [], .init reads, .init⟩

end Yacc

/-- Every byte of the file makes for one token at most, and a token for four steps. -/
def yyparse (reads : List Read) : Ending :=
  let m := Yacc.init reads
  m.run (4 * m.flex.text.length + 4)

/-! ## What the tables do with a token -/

namespace Yacc

section Steps
variable {act : ℕ} {yychar : Option ℕ} {yylval yytext : Text} {s s' : Flex} {c : Compiler}

/-- No commands have been read. -/
theorem step_empty : step ⟨[0], yychar, yylval, s, c⟩ = .ok ⟨[1, 0], yychar, yylval, s, c⟩ := rfl

/-- Behind the commands read so far a token is needed. -/
theorem step_commands {code : ℕ} {m : Yacc}
    (hlook : lookahead ⟨[1, 0], yychar, yylval, s, c⟩ = some (code, m)) :
    step ⟨[1, 0], yychar, yylval, s, c⟩ = m.yyshift 0 code := by
  have hgoes : ¬ yyinitdepth ≤ [1, 0].length ∧ 1 ≠ yyfinal ∧ pactTable.getD 1 0 ≠ yypactNinf := by
    decide
  rw [step, List.headD_cons, if_neg hgoes.1, if_neg hgoes.2.1]
  simp only [hgoes.2.2, if_false, hlook]
  rfl

theorem step_shift (hact : act < 6)
    (hlex : Flex.yylex s.yylexFuel s = some (some (act + 1, yytext), s')) :
    step ⟨[1, 0], none, yylval, s, c⟩ = .ok ⟨[act + 3, 1, 0], none, strdup yytext, s', c⟩ := by
  have hlook : lookahead ⟨[1, 0], none, yylval, s, c⟩ = some (yytokentype.getD act 0,
      ⟨[1, 0], some (yytokentype.getD act 0), strdup yytext, s', c⟩) := by
    simp only [lookahead, hlex, Nat.add_sub_cancel]
  have htoken : ∀ act < 6, yytranslate (yytokentype.getD act 0) = act + 3 ∧
      ¬ yytokentype.getD act 0 ≤ yyeof := by decide
  have htable : ∀ act < 6, yytableAt (0 + ((act + 3 : ℕ) : ℤ)) (act + 3) = some (act + 3) := by
    decide
  obtain ⟨hcode, heof⟩ := htoken act hact
  rw [step_commands hlook, yyshift]
  simp only [heof, if_false, hcode, htable act hact]

/-- At the end of the file the parser comes to its final state. -/
theorem step_end (hlex : Flex.yylex s.yylexFuel s = some (none, s')) :
    step ⟨[1, 0], none, yylval, s, c⟩ = .ok ⟨[2, 1, 0], none, yylval, s', c⟩ := by
  have hlook : lookahead ⟨[1, 0], none, yylval, s, c⟩ =
      some (yyeof, ⟨[1, 0], some yyeof, yylval, s', c⟩) := by
    simp only [lookahead, hlex]
  rw [step_commands hlook]
  rfl

theorem step_final :
    step ⟨[2, 1, 0], yychar, yylval, s, c⟩ = .error (.accept c s.yyout) := rfl

/-- A token that has been shifted is reduced without a look at the next one, and its action runs. -/
theorem step_token (hact : act < 6) :
    step ⟨[act + 3, 1, 0], yychar, yylval, s, c⟩ =
      yyreduce ⟨[act + 3, 1, 0], yychar, yylval, s, c⟩ (act + 10) := by
  have htable : ∀ act < 6, act + 3 ≠ yyfinal ∧ pactTable.getD (act + 3) 0 = yypactNinf ∧
      defactTable.getD (act + 3) 0 = act + 10 := by decide
  obtain ⟨hfinal, hpact, hdefact⟩ := htable act hact
  have hdepth : ¬ yyinitdepth ≤ [act + 3, 1, 0].length := by
    show ¬ 200 ≤ 3
    decide
  rw [step, List.headD_cons, if_neg hdepth, if_neg hfinal]
  simp only [hpact, if_true]
  rw [yydefault, List.headD_cons, hdefact]
  exact if_neg (Nat.succ_ne_zero _)

theorem reduce_token (hact : act < 6) {c' : Compiler}
    (hc : c.reduce (act + 10) yylval s.yylineno = some c') :
    yyreduce ⟨[act + 3, 1, 0], yychar, yylval, s, c⟩ (act + 10) =
      .ok ⟨[act + 10, 1, 0], yychar, yylval, s, c'⟩ := by
  have htable : ∀ act < 6, r2Table.getD (act + 10) 0 = 1 ∧
      yygoto (r1Table.getD (act + 10) 0) 1 = act + 10 := by decide
  obtain ⟨hlen, hgoto⟩ := htable act hact
  unfold yyreduce
  simp only [hc, hlen, List.drop_succ_cons, List.drop_zero, List.headD_cons, hgoto]

/-- Then it is a command, -/
theorem step_command (hact : act < 6) :
    step ⟨[act + 10, 1, 0], yychar, yylval, s, c⟩ = .ok ⟨[9, 1, 0], yychar, yylval, s, c⟩ := by
  obtain rfl | rfl | rfl | rfl | rfl | rfl :
      act = 0 ∨ act = 1 ∨ act = 2 ∨ act = 3 ∨ act = 4 ∨ act = 5 := by omega
  all_goals rfl

/-- which comes to the others. -/
theorem step_more :
    step ⟨[9, 1, 0], yychar, yylval, s, c⟩ = .ok ⟨[1, 0], yychar, yylval, s, c⟩ := rfl

/-- Four steps for a token: the action of its rule has its text and its line. -/
theorem run_token (fuel : ℕ) (hact : act < 6)
    (hlex : Flex.yylex s.yylexFuel s = some (some (act + 1, yytext), s')) :
    run (fuel + 4) ⟨[1, 0], none, yylval, s, c⟩ =
      (c.reduce (act + 10) (strdup yytext) s'.yylineno).elim .exit fun c' =>
        run fuel ⟨[1, 0], none, strdup yytext, s', c'⟩ := by
  rw [run, step_shift hact hlex]
  simp only
  rw [run, step_token hact]
  cases hc : c.reduce (act + 10) (strdup yytext) s'.yylineno with
  | none => simp only [yyreduce, hc, Option.elim_none]
  | some c' =>
    simp only [reduce_token hact hc, Option.elim_some]
    rw [run, step_command hact]
    simp only
    rw [run, step_more]

end Steps

end Yacc

/-! ## A whole file -/

/-- What a token of the scanner makes the compiler do. -/
def Compiler.token (c : Compiler) (t : ℕ × Text × ℕ) : Option Compiler :=
  c.reduce (t.1 + 9) (strdup t.2.1) t.2.2

/-- The tokens that are still to come are taken one after the other. -/
theorem Yacc.run_spec {fuel : ℕ} {s : Flex} {tokens : List (ℕ × Text × ℕ)} {out : Text}
    (h : s.Lexes tokens out) (hfuel : 4 * s.text.length + 3 ≤ fuel) (yylval : Text) (c : Compiler) :
    run fuel ⟨[1, 0], none, yylval, s, c⟩ =
      (Transition.run Compiler.token c tokens).elim .exit fun c' => .accept c' out := by
  induction tokens generalizing fuel s yylval c with
  | nil =>
    obtain ⟨-, s', hlex, hout⟩ | ⟨_, _, _, _, hcons, -⟩ := Flex.yylex_spec (Nat.lt_succ_self _) h
    · obtain ⟨fuel, rfl⟩ : ∃ k, fuel = k + 2 := ⟨fuel - 2, by omega⟩
      rw [run, step_end hlex]
      simp only
      rw [run, step_final, ← hout]
      rfl
    · cases hcons
  | cons t tokens ih =>
    obtain ⟨hnil, -⟩ | ⟨act, u, n, l, hcons, s', hlex, hshort, hline, hl⟩ :=
      Flex.yylex_spec (Nat.lt_succ_self _) h
    · cases hnil
    · obtain ⟨rfl, rfl⟩ := List.cons.inj hcons
      obtain ⟨echoed, hscans, -⟩ := h
      obtain ⟨-, k, hk, hact, -⟩ := hscans.token_rule _ List.mem_cons_self
      obtain rfl : act = k + 1 := hact
      obtain ⟨fuel, rfl⟩ : ∃ k, fuel = k + 4 := ⟨fuel - 4, by omega⟩
      rw [run_token fuel hk hlex, hline, Transition.run]
      cases hc : c.token (k + 1, u, n) with
      | none =>
        have hc' : c.reduce (k + 10) (strdup u) n = none := hc
        rw [hc']
        rfl
      | some c' =>
        have hc' : c.reduce (k + 10) (strdup u) n = some c' := hc
        rw [hc']
        exact ih hl (by omega) _ _

end DevFramework.CmdParser
