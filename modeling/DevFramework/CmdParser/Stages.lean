import DevFramework.CmdParser.Building
import Mathlib.Data.List.Induction

/-! # Which definitions are accepted

The grammar takes tokens in any order; the order is checked by the actions, through the counter
`stage`. `Staged` says what the counter has seen: the last token that is not a comment, and from the
`FILENAME` of a section on also its `TAKEBITS` and its commands.
-/
namespace DevFramework.CmdParser
set_option autoImplicit false
set_option maxHeartbeats 250000

/-! ## The order of the tokens -/

def Token.isComment (t : Token) : Bool :=
  match t.lexeme with
  | .globalCmt _ | .sglineCmt _ => true
  | _ => false

def Token.isFileName (t : Token) : Bool :=
  match t.lexeme with
  | .fileName _ => true
  | _ => false

def Token.isTakeBits (t : Token) : Bool :=
  match t.lexeme with
  | .takeBits _ _ => true
  | _ => false

def Token.isCmdName (t : Token) : Bool :=
  match t.lexeme with
  | .cmdName _ _ => true
  | _ => false

/-- The tokens without the comments. -/
def codeTokens (ts : List Token) : List Token := ts.filter fun t => !t.isComment

/-- The token may come right behind these. -/
def ComesAfter (before : List Token) (t : Token) : Prop :=
  (t.isTakeBits = true → ∃ u, before.getLast? = some u ∧ u.isFileName = true) ∧
  (t.isCmdName = true →
    ∃ u, before.getLast? = some u ∧ (u.isTakeBits = true ∨ u.isCmdName = true))

/-- Comments apart, every `TAKEBITS` comes right behind a `FILENAME` and every `CMDNAME` right
behind a `TAKEBITS` or a `CMDNAME`. -/
def InOrder (ts : List Token) : Prop :=
  ∀ pre t post, codeTokens ts = pre ++ t :: post → ComesAfter pre t

theorem inOrder_nil : InOrder [] := by
  intro pre t post h
  cases pre <;> cases h

/-- Only the last token has to be looked at. -/
theorem inOrder_append {ts : List Token} {t : Token} : InOrder (ts ++ [t]) ↔
    InOrder ts ∧ (t.isComment = false → ComesAfter (codeTokens ts) t) := by
  have hcode : codeTokens (ts ++ [t]) =
      codeTokens ts ++ if t.isComment then [] else [t] := by
    cases h : t.isComment <;> simp [codeTokens, h]
  unfold InOrder
  rw [hcode]
  cases h : t.isComment with
  | true => simp
  | false =>
    simp only [Bool.false_eq_true, if_false, forall_const]
    constructor
    · intro hall
      refine ⟨fun pre u post hts => ?_, hall _ t [] rfl⟩
      exact hall pre u (post ++ [t]) (by rw [hts]; simp)
    · rintro ⟨hts, ht⟩ pre u post heq
      rcases List.eq_nil_or_concat post with rfl | ⟨post, v, rfl⟩
      · obtain ⟨rfl, hu⟩ := List.append_inj' heq rfl
        obtain rfl := List.head_eq_of_cons_eq hu
        exact ht
      · rw [List.concat_eq_append, ← List.cons_append, ← List.append_assoc] at heq
        exact hts pre u post (List.append_inj_left' heq rfl)

/-! ## What the counter has seen -/

/-- The section that the last tokens are of: its `FILENAME`, its `TAKEBITS` and its commands so far.
-/
structure InCommands (c : Compiler) (ks : List Token) (bits : Token) (cmds : List Token) : Prop where
  tokens : ∃ pre name, ks = pre ++ name :: bits :: cmds ∧ name.isFileName = true
  isBits : bits.isTakeBits = true
  areCmds : ∀ u ∈ cmds, u.isCmdName = true
  bits : c.parser.bits = bits.lexeme.text
  index : c.cmdIdx = BitVec.ofNat 32 cmds.length

/-- The stage after tokens that are `ks` without the comments. -/
inductive Staged (c : Compiler) (ks : List Token) : Prop where
  | index (stage : c.stage = 1) (last : ∀ u, ks.getLast? = some u →
      u.isFileName = false ∧ u.isTakeBits = false ∧ u.isCmdName = false)
  | fileName {pre : List Token} {name : Token} (stage : c.stage = 2) (tokens : ks = pre ++ [name])
      (isName : name.isFileName = true) (first : c.cmdIdx = 0)
  | commands {bits : Token} {cmds : List Token} (stage : c.stage = 3)
      (inside : InCommands c ks bits cmds)

section Stages
variable {c c' : Compiler} {ks : List Token} {t : Token}

theorem staged_init : Staged .init [] := .index rfl nofun

/-- The stages at which a `TAKEBITS` and a `CMDNAME` are taken. -/
theorem Staged.comesAfter_iff (h : Staged c ks) (t : Token) : ComesAfter ks t ↔
    (t.isTakeBits = true → c.stage = 2) ∧ (t.isCmdName = true → c.stage = 3) := by
  have hone : ∀ u : Token, u.isFileName = true → u.isTakeBits = false ∧ u.isCmdName = false := by
    intro u hu
    unfold Token.isFileName at hu
    split at hu
    next hlex => simp [Token.isTakeBits, Token.isCmdName, hlex]
    next => cases hu
  have htwo : ∀ u : Token, u.isTakeBits = true ∨ u.isCmdName = true → u.isFileName = false := by
    intro u hu
    by_contra hne
    rw [Bool.not_eq_false] at hne
    simp [hone u hne] at hu
  cases h with
  | index hstage hlast =>
    rw [hstage]
    unfold ComesAfter
    refine and_congr (imp_congr_right fun _ => ?_) (imp_congr_right fun _ => ?_)
    · refine iff_of_false ?_ (by decide)
      rintro ⟨u, hu, hname⟩
      simp [hlast u hu] at hname
    · refine iff_of_false ?_ (by decide)
      rintro ⟨u, hu, hcode⟩
      simp [hlast u hu] at hcode
  | @fileName pre name hstage htokens hname _ =>
    obtain ⟨hbits, hcmd⟩ := hone name hname
    simp [ComesAfter, hstage, htokens, hname, hbits, hcmd]
  | @commands bits cmds hstage hinside =>
    obtain ⟨pre, name, htokens, -⟩ := hinside.tokens
    have hlast : ∃ u, ks.getLast? = some u ∧ (u.isTakeBits = true ∨ u.isCmdName = true) := by
      rcases List.eq_nil_or_concat cmds with rfl | ⟨front, u, rfl⟩
      · exact ⟨bits, by simp [htokens], .inl hinside.isBits⟩
      · have hks : ks = (pre ++ name :: bits :: front) ++ [u] := by simp [htokens]
        exact ⟨u, by rw [hks, List.getLast?_concat], .inr (hinside.areCmds u (by simp))⟩
    obtain ⟨u, hu, hcode⟩ := hlast
    simp [ComesAfter, hstage, hu, hcode, htwo u hcode]

/-- A token is taken unless it comes at the wrong place. -/
theorem Staged.taken_iff (h : Staged c ks) (t : Token) :
    (c.command t).isSome = true ↔ (t.isComment = false → ComesAfter ks t) := by
  rw [h.comesAfter_iff]
  unfold Compiler.command Token.isComment Token.isTakeBits Token.isCmdName
  cases t.lexeme with
  | takeBits left right =>
    simp only [Compiler.processTakeBits]
    split <;> simp_all
  | cmdName id spaces =>
    simp only [Compiler.processCmd]
    split <;> simp_all
  | _ => simp

theorem InCommands.frame {bits : Token} {cmds : List Token} (h : InCommands c ks bits cmds)
    (hbits : c'.parser.bits = c.parser.bits) (hindex : c'.cmdIdx = c.cmdIdx) :
    InCommands c' ks bits cmds :=
  ⟨h.tokens, h.isBits, h.areCmds, hbits.trans h.bits, hindex.trans h.index⟩

/-- A comment changes none of the actions' variables that the order depends on. -/
theorem Staged.comment (h : Staged c ks) (hstage : c'.stage = c.stage)
    (hindex : c'.cmdIdx = c.cmdIdx) (hbits : c'.parser.bits = c.parser.bits) : Staged c' ks := by
  cases h with
  | index hs hlast => exact .index (hstage.trans hs) hlast
  | fileName hs htokens hname hfirst =>
    exact .fileName (hstage.trans hs) htokens hname (hindex.trans hfirst)
  | commands hs hinside => exact .commands (hstage.trans hs) (hinside.frame hbits hindex)

theorem Staged.takeBits (h : Staged c ks) {left right : Digits}
    (ht : t.lexeme = .takeBits left right) (hs : c.processTakeBits t.lexeme.text = some c') :
    Staged c' (ks ++ [t]) := by
  unfold Compiler.processTakeBits at hs
  split at hs
  · cases hs
  next hstage =>
    rw [not_not] at hstage
    cases hs
    cases h with
    | index h1 _ => omega
    | commands h3 _ => omega
    | @fileName pre name _ htokens hname hfirst =>
      have hbits : t.isTakeBits := by simp [Token.isTakeBits, ht]
      have htokens' : ks ++ [t] = pre ++ name :: t :: [] := by
        rw [htokens, List.append_assoc]
        rfl
      exact .commands (by simp [hstage]) ⟨⟨pre, name, htokens', hname⟩, hbits, nofun, rfl, hfirst⟩

theorem Staged.cmdName (h : Staged c ks) {id : CmdIdent} {spaces : ℕ}
    (ht : t.lexeme = .cmdName id spaces)
    (hs : c.processCmd t.lexeme.text t.yylineno = some c') : Staged c' (ks ++ [t]) := by
  unfold Compiler.processCmd at hs
  split at hs
  · cases hs
  next hstage =>
    rw [not_not] at hstage
    cases hs
    cases h with
    | index h1 _ => omega
    | fileName h2 _ _ _ => omega
    | @commands bits cmds _ hinside =>
      obtain ⟨pre, name, htokens, hname⟩ := hinside.tokens
      have htokens' : ks ++ [t] = pre ++ name :: bits :: (cmds ++ [t]) := by
        rw [htokens, List.append_assoc]
        rfl
      refine .commands hstage ⟨⟨pre, name, htokens', hname⟩, hinside.isBits, ?_, hinside.bits, ?_⟩
      · intro u hu
        rcases List.mem_append.mp hu with hu | hu
        · exact hinside.areCmds u hu
        · rw [List.mem_singleton.mp hu]
          simp [Token.isCmdName, ht]
      · rw [List.length_append, List.length_singleton, BitVec.ofNat_add, ← hinside.index]
        rfl

theorem Staged.step {ts : List Token} (h : Staged c (codeTokens ts))
    (hs : c.command t = some c') : Staged c' (codeTokens (ts ++ [t])) := by
  have hcomment : t.isComment = true → codeTokens (ts ++ [t]) = codeTokens ts := fun ht => by
    simp [codeTokens, ht]
  have hcode : t.isComment = false → codeTokens (ts ++ [t]) = codeTokens ts ++ [t] := fun ht => by
    simp [codeTokens, ht]
  unfold Compiler.command at hs
  split at hs <;> rename_i ht
  · cases hs
    have hkeep := comments_global (c := c) ht
    rw [hcomment (by simp [Token.isComment, ht]), ht]
    refine h.comment ?_ hkeep.index hkeep.bits
    simp only [Lexeme.text, Compiler.processGlobalComment, Compiler.processSingleLineComment]
    split <;> rfl
  · cases hs
    have hkeep := comments_sgline (c := c) ht
    rw [hcomment (by simp [Token.isComment, ht]), ht]
    exact h.comment rfl hkeep.index hkeep.bits
  · cases hs
    rw [hcode (by simp [Token.isComment, ht])]
    refine .index rfl fun u hu => ?_
    rw [List.getLast?_concat] at hu
    obtain rfl := Option.some.inj hu
    simp [Token.isFileName, Token.isTakeBits, Token.isCmdName, ht]
  · cases hs
    rw [hcode (by simp [Token.isComment, ht])]
    exact .fileName rfl rfl (by simp [Token.isFileName, ht]) rfl
  · rw [hcode (by simp [Token.isComment, ht])]
    exact h.takeBits ht hs
  · rw [hcode (by simp [Token.isComment, ht])]
    exact h.cmdName ht hs

end Stages

/-! ## Every definition -/

theorem compile_append (ts : List Token) (t : Token) :
    compile (ts ++ [t]) = (compile ts).bind fun c => c.command t := by
  rw [compile, Transition.run_append, compile]
  congr 1
  funext c
  cases h : c.command t <;> simp [Transition.run, h]

theorem staged_compile {ts : List Token} {c : Compiler} (h : compile ts = some c) :
    Staged c (codeTokens ts) := by
  induction ts using List.reverseRecOn generalizing c with
  | nil =>
    obtain rfl := Option.some.inj h
    exact staged_init
  | append_singleton ts t ih =>
    rw [compile_append] at h
    obtain ⟨b, hb, hs⟩ := Option.bind_eq_some_iff.mp h
    exact (ih hb).step hs

theorem compile_isSome (ts : List Token) : (compile ts).isSome = true ↔ InOrder ts := by
  induction ts using List.reverseRecOn with
  | nil => exact iff_of_true rfl inOrder_nil
  | append_singleton ts t ih =>
    rw [compile_append, inOrder_append, ← ih]
    cases h : compile ts with
    | none => simp
    | some c => simpa using (staged_compile h).taken_iff t

/-- The actions run to the end exactly if the tokens are in order. Every `set_cmd_name` is then
called with the range of its own section in `bits_`, and with the number of commands since the last
`FILENAME`. -/
theorem actions_run_in_order (ts : List Token) :
    ((compile ts).isSome = true ↔ InOrder ts) ∧
    ∀ c, compile ts = some c → ∀ pre t post, ts = pre ++ t :: post → t.isCmdName = true →
      ∃ b before name bits cmds, compile pre = some b ∧
        codeTokens pre = before ++ name :: bits :: cmds ∧
        name.isFileName = true ∧ bits.isTakeBits = true ∧ (∀ u ∈ cmds, u.isCmdName = true) ∧
        b.parser.bits = bits.lexeme.text ∧
        (b.command t).map Compiler.parser = some (b.parser.setCmdName t.lexeme.text t.yylineno
          (BitVec.ofNat 32 cmds.length)) := by
  refine ⟨compile_isSome ts, ?_⟩
  rintro c hc pre t post rfl ht
  rw [compile, Transition.run_append] at hc
  obtain ⟨b, hb, hrest⟩ := Option.bind_eq_some_iff.mp hc
  obtain ⟨c', hs, -⟩ := Option.bind_eq_some_iff.mp hrest
  obtain ⟨id, spaces, hlex⟩ : ∃ id spaces, t.lexeme = .cmdName id spaces := by
    unfold Token.isCmdName at ht
    split at ht
    next id spaces hlex => exact ⟨id, spaces, hlex⟩
    next => cases ht
  have hstage : b.stage = 3 := by
    by_contra hne
    simp [Compiler.command, hlex, Compiler.processCmd, hne] at hs
  cases staged_compile hb with
  | index h1 _ => omega
  | fileName h2 _ _ _ => omega
  | @commands bits cmds _ hinside =>
    obtain ⟨before, name, htokens, hname⟩ := hinside.tokens
    refine ⟨b, before, name, bits, cmds, hb, htokens, hname, hinside.isBits, hinside.areCmds,
      hinside.bits, ?_⟩
    simp [Compiler.command, hlex, Compiler.processCmd, hstage, hinside.index]

/-- `[a][1-3] x;` with a comment between the range and the command. -/
theorem actions_run_one_section : ∃ ts, ts.length = 4 ∧ InOrder ts := by
  let ts : List Token := [⟨.fileName .a, 1, Nat.succ_pos 0⟩,
    ⟨.takeBits (.digit 1) (.digit 3), 1, Nat.succ_pos 0⟩,
    ⟨.sglineCmt "// c".toList, 1, Nat.succ_pos 0⟩, ⟨.cmdName .x 0, 2, Nat.succ_pos 1⟩]
  exact ⟨ts, rfl, (actions_run_in_order ts).1.mp (by decide +kernel)⟩

end DevFramework.CmdParser
