import DevFramework.CmdParser.Files
import DevFramework.CmdParser.Rules
import DevFramework.CmdParser.Stages

/-! # Where a comment goes

A comment goes to the command in front of it if the two are on one line. A `//` comment is compared
with the line of the last node; a block comment is compared with `treat_as_sigleline_cmt`, which the
first block comment behind a command sets to 0, so the second one finds no command.
-/
namespace DevFramework.CmdParser
open Groups Rules RegExp
set_option autoImplicit false
set_option maxHeartbeats 250000

/-! ## The comments of a command -/

/-- The line that the token begins on. -/
def Token.startLine (t : Token) : ℕ := t.yylineno - t.lexeme.text.count '\n'

/-- The whole of the token is on the line. -/
def Token.OnLine (line : ℕ) (t : Token) : Prop := t.startLine = line ∧ t.yylineno = line

instance (line : ℕ) (t : Token) : Decidable (t.OnLine line) :=
  inferInstanceAs (Decidable (_ ∧ _))

/-- The texts of the comments on the line. -/
def commentsOn (line : ℕ) (ts : List Token) : List Text :=
  (ts.filter fun t => t.isComment ∧ t.OnLine line).map fun t => t.lexeme.text

/-- The commands of a definition, each with its line and with what follows it up to the next one. -/
def commandTokens (ts : List Token) : List ((Text × ℕ) × List Token) := groups Token.cmdName? ts

/-- The command has the comments behind it on its line, in their order. Where the comments are cut
off by another token, such as the `FILENAME` of the next section, what follows on the line may be
added or not. -/
def Annotated (g : (Text × ℕ) × List Token) (written : Text × List Text) : Prop :=
  written.1 = g.1.1 ∧ ∃ more, written.2 = commentsOn g.1.2 (g.2.takeWhile Token.isComment) ++ more ∧
    more.Sublist (commentsOn g.1.2 (g.2.dropWhile Token.isComment))

/-- The name and the comments of a command's item. -/
def Item.written? : Item → Option (Text × List Text)
  | .write _ name _ comments => some (name, comments)
  | _ => none

/-- How many block comments stand behind the command on its line, with only comments between. -/
def blocksBehind (g : (Text × ℕ) × List Token) : ℕ :=
  (g.2.takeWhile Token.isComment).countP (Token.isBlockOn g.1.2)

/-! ## The written commands -/

theorem items_written (ss : List Section) : (items ss).filterMap Item.written? =
    ss.flatMap fun s => s.commands.map fun c => (c.name, c.comments) := by
  have hsection : ∀ s : Section, s.items.filterMap Item.written? =
      s.commands.map fun c => (c.name, c.comments) := by
    intro s
    simp only [Section.items, List.filterMap_cons, Item.written?]
    generalize hf : s.item = f
    have hitem : ∀ i c, (f i c).written? = some (c.name, c.comments) := by
      intro i c
      rw [← hf]
      rfl
    clear hf
    induction s.commands generalizing f with
    | nil => rfl
    | cons c cs ih =>
      rw [List.mapIdx_cons, List.filterMap_cons_some (hitem 0 c), List.map_cons]
      exact congrArg _ (ih _ fun i c => hitem (i + 1) c)
  cases ss with
  | nil => rfl
  | cons s ss =>
    simp only [items, List.flatMap_cons, List.cons_append, List.tail_cons, List.filterMap_append,
      hsection]
    congr 1
    induction ss with
    | nil => rfl
    | cons s' ss ih =>
      simp only [List.flatMap_cons, List.cons_append, List.filterMap_cons, Item.written?,
        List.filterMap_append, hsection, ih]

theorem fileName_not_cmdName (t : Token) (name : Text) (h : t.fileName? = some name) :
    t.cmdName? = none := by
  unfold Token.fileName? at h
  unfold Token.cmdName?
  split at h
  · rename_i hlex
    rw [hlex]
  · cases h

/-- What the code attaches to a command. -/
def givenTo (h : (Text × ℕ) × List Token) : Text × List Text :=
  (h.1.1, attached h.1.2 false h.2)

theorem written_within (ts : List Token) : (items (sections ts)).filterMap Item.written? =
    (within Token.fileName? Token.cmdName? ts).map givenTo := by
  rw [items_written, sections, within, List.flatMap_map, List.map_flatMap]
  congr 1
  funext g
  simp only [sectionOf, List.map_map]
  rfl

/-- The commands of an accepted definition are in its sections, which end at the next `FILENAME`. -/
theorem commandTokens_cut {c : Compiler} {ts : List Token} (h : compile ts = some c) :
    List.Forall₂ (CutAt Token.fileName?) (commandTokens ts)
      (within Token.fileName? Token.cmdName? ts) := by
  refine cutAt_within fileName_not_cmdName ?_
  rw [← (built_compile h).all, within, List.map_flatMap]
  congr 1
  funext g
  exact groups_markers g.2

/-! ## What is attached -/

/-- The text of a block comment, not of a `//` comment. -/
def isBlockText (text : Text) : Bool := ['/', '*'].isPrefixOf text

section Attached
variable {line : ℕ} {t : Token} {us vs : List Token}

theorem attached_concat (line : ℕ) (block : Bool) (us vs : List Token) :
    attached line block (us ++ vs) =
      attached line block us ++ attached line (block || us.any (Token.isBlockOn line)) vs := by
  induction us generalizing block with
  | nil => simp [attached]
  | cons t us ih => simp [attached, ih, Bool.or_assoc]

theorem commentsOn_cons (line : ℕ) (t : Token) (us : List Token) : commentsOn line (t :: us) =
    (if t.isComment ∧ t.OnLine line then [t.lexeme.text] else []) ++ commentsOn line us := by
  simp only [commentsOn, List.filter_cons, decide_eq_true_eq]
  split <;> rfl

/-- A comment without an end of line is on the line that it ends on. -/
theorem onLine_iff (h : '\n' ∉ t.lexeme.text) : t.OnLine line ↔ t.yylineno = line := by
  simp only [Token.OnLine, Token.startLine, List.count_eq_zero.mpr h, Nat.sub_zero, and_self]

/-- A token gives at most its comment, and gives it unless it is the second block comment. -/
theorem commentOn_eq (block : Bool) (h : t.isComment = true → '\n' ∉ t.lexeme.text) :
    (t.commentOn line block).toList =
      if block = true ∧ t.isBlockOn line = true then []
      else if t.isComment ∧ t.OnLine line then [t.lexeme.text] else [] := by
  cases hlex : t.lexeme with
  | globalCmt text =>
    have honline : t.OnLine line ↔ t.yylineno = line := onLine_iff (h (by rw [Token.isComment, hlex]))
    by_cases hl : t.yylineno = line <;> cases block <;>
      simp [Token.commentOn, Token.isBlockOn, Token.isComment, hlex, honline, hl, Lexeme.text]
  | sglineCmt text =>
    have honline : t.OnLine line ↔ t.yylineno = line := onLine_iff (h (by rw [Token.isComment, hlex]))
    by_cases hl : t.yylineno = line <;> cases block <;>
      simp [Token.commentOn, Token.isBlockOn, Token.isComment, hlex, honline, hl, Lexeme.text]
  | index number => simp [Token.commentOn, Token.isComment, hlex]
  | fileName name => simp [Token.commentOn, Token.isComment, hlex]
  | takeBits left right => simp [Token.commentOn, Token.isComment, hlex]
  | cmdName id spaces => simp [Token.commentOn, Token.isComment, hlex]

/-- Only comments of the line are attached, in their order. -/
theorem attached_sublist (block : Bool)
    (h : ∀ t ∈ us, t.isComment = true → '\n' ∉ t.lexeme.text) :
    (attached line block us).Sublist (commentsOn line us) := by
  induction us generalizing block with
  | nil => exact .slnil
  | cons t us ih =>
    have hrest := ih (block || t.isBlockOn line) fun t ht => h t (List.mem_cons_of_mem _ ht)
    rw [attached, commentsOn_cons, commentOn_eq block (h t List.mem_cons_self)]
    refine List.Sublist.append ?_ hrest
    split
    · exact List.nil_sublist _
    · exact List.Sublist.refl _

/-- All are attached if at most one of them is a block comment. -/
theorem attached_all (block : Bool)
    (h : ∀ t ∈ us, t.isComment = true → '\n' ∉ t.lexeme.text)
    (hcount : block.toNat + us.countP (Token.isBlockOn line) ≤ 1) :
    attached line block us = commentsOn line us := by
  induction us generalizing block with
  | nil => rfl
  | cons t us ih =>
    rw [List.countP_cons] at hcount
    rw [attached, commentsOn_cons, commentOn_eq block (h t List.mem_cons_self)]
    have hnot : ¬ (block = true ∧ t.isBlockOn line = true) := by
      rintro ⟨rfl, hon⟩
      simp only [hon, Bool.toNat_true, if_true] at hcount
      omega
    rw [if_neg hnot, ih (block || t.isBlockOn line) (fun t ht => h t (List.mem_cons_of_mem _ ht))]
    cases block <;> cases hon : t.isBlockOn line <;> simp [hon] at hcount ⊢ <;> omega

/-! ## Block comments among the texts -/

theorem isBlockText_globalCmt {text : Text} (h : (Lexeme.globalCmt text).Spelled) :
    isBlockText text = true := by
  obtain ⟨u, v, rfl, hu, -⟩ := matches_seq.mp h
  rw [matches_word.mp hu]
  exact List.isPrefixOf_iff_prefix.mpr (List.prefix_append _ v)

theorem isBlockText_sglineCmt {text : Text} (h : (Lexeme.sglineCmt text).Spelled) :
    isBlockText text = false := by
  obtain ⟨u, v, rfl, hu, -⟩ := matches_seq.mp h
  obtain ⟨u, w, rfl, hu, -⟩ := matches_seq.mp hu
  rw [matches_word.mp hu]
  rfl

/-- A token gives a block comment only if none has been met on the line. -/
theorem commentOn_block (line : ℕ) (block : Bool) (h : t.lexeme.Spelled) :
    block.toNat + (t.commentOn line block).toList.countP isBlockText =
      (block || t.isBlockOn line).toNat := by
  cases hlex : t.lexeme with
  | globalCmt text =>
    rw [hlex] at h
    have htext := isBlockText_globalCmt h
    by_cases hl : t.yylineno = line <;> cases block <;>
      simp [Token.commentOn, Token.isBlockOn, hlex, hl, htext]
  | sglineCmt text =>
    rw [hlex] at h
    have htext := isBlockText_sglineCmt h
    by_cases hl : t.yylineno = line <;> cases block <;>
      simp [Token.commentOn, Token.isBlockOn, hlex, hl, htext]
  | index number => simp [Token.commentOn, Token.isBlockOn, hlex]
  | fileName name => simp [Token.commentOn, Token.isBlockOn, hlex]
  | takeBits left right => simp [Token.commentOn, Token.isBlockOn, hlex]
  | cmdName id spaces => simp [Token.commentOn, Token.isBlockOn, hlex]

/-- At most one block comment is attached. -/
theorem attached_block (line : ℕ) (block : Bool) {us : List Token}
    (h : ∀ t ∈ us, t.lexeme.Spelled) : block.toNat + (attached line block us).countP isBlockText ≤ 1 := by
  induction us generalizing block with
  | nil => cases block <;> simp [attached]
  | cons t us ih =>
    have hrest := ih (block || t.isBlockOn line) fun t ht => h t (List.mem_cons_of_mem _ ht)
    have hhead := commentOn_block line block (h t List.mem_cons_self)
    rw [attached, List.countP_append]
    omega

theorem commentsOn_block (hline : ∀ t ∈ us, t.isComment = true → '\n' ∉ t.lexeme.text)
    (h : ∀ t ∈ us, t.lexeme.Spelled) :
    (commentsOn line us).countP isBlockText = us.countP (Token.isBlockOn line) := by
  induction us with
  | nil => rfl
  | cons t us ih =>
    have hrest := ih (fun t ht => hline t (List.mem_cons_of_mem _ ht))
      fun t ht => h t (List.mem_cons_of_mem _ ht)
    have hhead := commentOn_block line false (h t List.mem_cons_self)
    rw [commentOn_eq false (hline t List.mem_cons_self), if_neg (by simp)] at hhead
    rw [commentsOn_cons, List.countP_append, hrest, List.countP_cons, add_comm]
    congr 1
    rw [Bool.toNat_false, Nat.zero_add] at hhead
    rw [hhead]
    cases t.isBlockOn line <;> rfl

end Attached

/-! ## One command -/

section Behind
variable {line : ℕ} {behind : List Token}

/-- A `FILENAME` does not cut off the comments in front of it. -/
theorem takeWhile_comments (behind : List Token) :
    behind.takeWhile (fun t => t.fileName?.isNone) = behind.takeWhile Token.isComment ++
      (behind.dropWhile Token.isComment).takeWhile fun t => t.fileName?.isNone := by
  have hkeep : ∀ t ∈ behind.takeWhile Token.isComment, t.fileName?.isNone = true := by
    intro t ht
    have hcomment := List.mem_takeWhile_imp ht
    unfold Token.isComment at hcomment
    unfold Token.fileName?
    split at hcomment <;> simp_all
  conv_lhs => rw [← List.takeWhile_append_dropWhile (p := Token.isComment) (l := behind)]
  exact List.takeWhile_append_of_pos hkeep

/-- A command gets its comments exactly if at most one of them is a block comment. -/
theorem annotated_iff {g : (Text × ℕ) × List Token}
    (hline : ∀ t ∈ g.2, t.isComment = true → '\n' ∉ t.lexeme.text)
    (hspelled : ∀ t ∈ g.2, t.lexeme.Spelled) {h : (Text × ℕ) × List Token}
    (hcut : CutAt Token.fileName? g h) : Annotated g (givenTo h) ↔ blocksBehind g ≤ 1 := by
  obtain ⟨⟨name, line⟩, behind⟩ := g
  cases hcut
  simp only [Annotated, givenTo, blocksBehind] at hline hspelled ⊢
  have hown : ∀ t ∈ behind.takeWhile Token.isComment, t ∈ behind :=
    fun t ht => (List.takeWhile_sublist _).subset ht
  have hlate : ∀ t ∈ (behind.dropWhile Token.isComment).takeWhile fun t => t.fileName?.isNone,
      t ∈ behind := fun t ht => (List.dropWhile_sublist _).subset ((List.takeWhile_sublist _).subset ht)
  rw [takeWhile_comments, attached_concat]
  constructor
  · rintro ⟨-, more, heq, -⟩
    -- at most one block comment is written, and all on the line are
    have hcount := attached_block line false fun t ht =>
      hspelled t ((List.mem_append.mp ht).elim (hown t) (hlate t))
    rw [attached_concat, heq, List.countP_append, commentsOn_block (fun t ht => hline t (hown t ht))
      fun t ht => hspelled t (hown t ht)] at hcount
    omega
  · intro hcount
    rw [attached_all false (fun t ht => hline t (hown t ht)) (by simpa using hcount)]
    refine ⟨trivial, _, rfl, ?_⟩
    refine (attached_sublist _ fun t ht => hline t (hlate t ht)).trans ?_
    exact ((List.takeWhile_sublist _).filter _).map _

end Behind

/-! ## All commands -/

theorem forall₂_iff_left {α β : Type*} {R S : α → β → Prop} {P : α → Prop} {l : List α} {u : List β}
    (h : List.Forall₂ R l u) (hiff : ∀ a ∈ l, ∀ b, R a b → (S a b ↔ P a)) :
    List.Forall₂ S l u ↔ ∀ a ∈ l, P a := by
  induction h with
  | nil => simp
  | @cons a b l u hab _ ih =>
    rw [List.forall₂_cons, List.forall_mem_cons, hiff a List.mem_cons_self b hab,
      ih fun a ha => hiff a (List.mem_cons_of_mem _ ha)]

theorem mem_of_groups {α β : Type*} {start : α → Option β} {l : List α} {g : β × List α}
    (hg : g ∈ groups start l) {a : α} (ha : a ∈ g.2) : a ∈ l := by
  induction l with
  | nil => cases hg
  | cons x l ih =>
    cases hx : start x with
    | none =>
      simp only [groups, hx] at hg
      exact List.mem_cons_of_mem x (ih hg)
    | some b =>
      simp only [groups, hx] at hg
      rcases List.mem_cons.mp hg with rfl | hg
      · exact List.mem_cons_of_mem x ((List.takeWhile_sublist _).subset ha)
      · exact List.mem_cons_of_mem x (ih hg)

/-- What is written for a command: its two lines, and behind them its comments. -/
theorem itemStep_write (env : Env) (tgt : TargetOutput) (w : Writer) (range name : Text)
    (sid : BitVec 32) (comments : List Text) :
    itemStep env tgt w (.write range name sid comments) =
      (cmdText tgt range name sid [] w).bind fun (finLine, w) =>
        w.writeLine (finLine ++ comments.flatMap fun cmt => '\t' :: tgt.trans cmt) := by
  simp only [itemStep, foldl_cmtText]

theorem written_annotated_iff {ts : List Token} {c : Compiler} (hacc : compile ts = some c)
    (hspelled : ∀ t ∈ ts, t.lexeme.Spelled)
    (hline : ∀ t ∈ ts, t.isComment = true → '\n' ∉ t.lexeme.text) :
    List.Forall₂ Annotated (commandTokens ts) ((items (sections ts)).filterMap Item.written?) ↔
      ∀ g ∈ commandTokens ts, blocksBehind g ≤ 1 := by
  rw [written_within, List.forall₂_map_right_iff]
  refine forall₂_iff_left (commandTokens_cut hacc) fun g hg h hcut => annotated_iff ?_ ?_ hcut
  · exact fun t ht => hline t (mem_of_groups hg ht)
  · exact fun t ht => hspelled t (mem_of_groups hg ht)

/-- An accepted definition whose comments lie on one line each is written item by item, and every
command gets the comments behind it on its line exactly if no command has two block comments there. -/
theorem comments_attached_iff (ts : List Token) (c : Compiler) (hacc : compile ts = some c)
    (hspelled : ∀ t ∈ ts, t.lexeme.Spelled)
    (hline : ∀ t ∈ ts, t.isComment = true → '\n' ∉ t.lexeme.text) :
    ∃ is, (∃ ps, Tree c.parser.nodes ps is) ∧
      (∀ env tgt, ∃ nodes, output env tgt c.parser =
        (drainItems env tgt .init (is ++ [.close])).map fun w => ⟨nodes, [], w⟩) ∧
      (∀ env tgt w range name sid comments, itemStep env tgt w (.write range name sid comments) =
        (cmdText tgt range name sid [] w).bind fun (finLine, w) =>
          w.writeLine (finLine ++ comments.flatMap fun cmt => '\t' :: tgt.trans cmt)) ∧
      (List.Forall₂ Annotated (commandTokens ts) (is.filterMap Item.written?) ↔
        ∀ g ∈ commandTokens ts, blocksBehind g ≤ 1) := by
  obtain ⟨ps, htree, -⟩ := (built_compile hacc).tree
  exact ⟨items (sections ts), ⟨ps, htree⟩, output_eq hacc, itemStep_write,
    written_annotated_iff hacc hspelled hline⟩

/-- `[a]` and `[1-3]` on line 1, and on line 2 `x;` with these comments. -/
def commented (comments : List Lexeme) : List Token :=
  [⟨.fileName .a, 1, Nat.one_pos⟩, ⟨.takeBits (.digit 1) (.digit 3), 1, Nat.one_pos⟩,
    ⟨.cmdName .x 0, 2, Nat.two_pos⟩] ++
  comments.map fun l => ⟨l, 2, Nat.two_pos⟩

/-- `x; /*p*/ //q`. -/
theorem comments_attached_two :
    ∃ c, compile (commented [.globalCmt "/*p*/".toList, .sglineCmt "//q".toList]) = some c ∧
    ∃ is, (∃ ps, Tree c.parser.nodes ps is) ∧
      List.Forall₂ Annotated
        (commandTokens (commented [.globalCmt "/*p*/".toList, .sglineCmt "//q".toList]))
        (is.filterMap Item.written?) := by
  obtain ⟨c, hc⟩ : ∃ c, compile (commented [.globalCmt "/*p*/".toList,
    .sglineCmt "//q".toList]) = some c := ⟨_, rfl⟩
  obtain ⟨is, htree, -, -, hiff⟩ :=
    comments_attached_iff _ c hc (by decide +kernel) (by decide +kernel)
  exact ⟨c, hc, is, htree, hiff.mpr (by decide +kernel)⟩

/-- `x; /*p*/ /*q*/`: only the first comment is written with the command. -/
theorem second_block_dropped :
    ∃ c, compile (commented [.globalCmt "/*p*/".toList, .globalCmt "/*q*/".toList]) = some c ∧
    (∀ t ∈ commented [.globalCmt "/*p*/".toList, .globalCmt "/*q*/".toList],
      t.lexeme.Spelled ∧ (t.isComment = true → '\n' ∉ t.lexeme.text)) ∧
    ∃ is, (∃ ps, Tree c.parser.nodes ps is) ∧
      is.filterMap Item.written? = [(['x'], ["/*p*/".toList])] ∧
      ¬ List.Forall₂ Annotated
        (commandTokens (commented [.globalCmt "/*p*/".toList, .globalCmt "/*q*/".toList]))
        (is.filterMap Item.written?) := by
  obtain ⟨c, hc⟩ : ∃ c, compile (commented [.globalCmt "/*p*/".toList,
    .globalCmt "/*q*/".toList]) = some c := ⟨_, rfl⟩
  obtain ⟨ps, htree, -⟩ := (built_compile hc).tree
  refine ⟨c, hc, by decide +kernel, _, ⟨ps, htree⟩, by decide +kernel, fun h => ?_⟩
  have hone := (written_annotated_iff hc (by decide +kernel) (by decide +kernel)).mp h
  exact absurd hone (by decide +kernel)

end DevFramework.CmdParser
