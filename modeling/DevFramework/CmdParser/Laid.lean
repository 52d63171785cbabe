import DevFramework.CmdParser.FrontEnd

/-! # Definitions written out

A definition with each token at the end of a line of its own is read back token by token: no two
rules that return a token match the same text, and none of them goes on behind a match into the next
line.
-/
namespace DevFramework.CmdParser
open Rules RegExp
set_option autoImplicit false
set_option maxHeartbeats 250000

/-! ## A token and the end of its line -/

/-- In a state where a rule of a token is matched, the state stands for it and the line ends. -/
theorem tokenStates_check : flexStates.all (fun e => (List.range 6).all fun k =>
    !mayEnd ((flexLeft e.1).getD k []) ||
      (yyAccept e.1 == k + 1 && yyNext e.1 3 == yyJam)) = true := by
  decide +kernel

theorem Lexeme.Spelled.state {l : Lexeme} (hl : l.Spelled) :
    yyAccept (stateOf l.text) = l.act + 1 ∧ stateOf (l.text ++ ['\n']) = yyJam := by
  have hrule : (flexPatterns.map (Pattern.regExp yyClass))[l.act]? = some l.rule := by
    rw [flexPatterns_regExp]
    exact l.act_rule
  rw [List.getElem?_map] at hrule
  obtain ⟨p, hp, hover⟩ := Option.map_eq_some_iff.mp hrule
  obtain ⟨hstate, hleaves⟩ := flexTables_implement.leaves yyClass_mem l.text
  obtain ⟨ps, hps, hend⟩ := (hleaves.matches_iff hp).mp (by rw [hover]; exact hl)
  obtain ⟨e, he, hs⟩ := List.mem_map.mp hstate
  have hcheck := List.all_eq_true.mp (List.all_eq_true.mp tokenStates_check e he) _
    (List.mem_range.mpr l.act_lt)
  rw [hs, List.getD_eq_getElem?_getD, hps, Option.getD_some, hend, Bool.not_true, Bool.false_or,
    Bool.and_eq_true, beq_iff_eq, beq_iff_eq] at hcheck
  rw [stateOf_concat]
  exact hcheck

theorem bestOf_accept {w : Text} {k : ℕ} (haccept : yyAccept (stateOf w) = k + 1) :
    bestOf w = (k + 1, w.length) := by
  induction w using List.reverseRecOn with
  | nil => cases haccept
  | append_singleton w c _ =>
    rw [bestOf_concat, haccept, if_neg (Nat.succ_ne_zero k), List.length_append,
      List.length_singleton]

theorem munch_of_best {u rest : Text} {k : ℕ} (h : bestOf (u ++ rest) = (k + 1, u.length)) :
    Munch flexRules (u ++ rest) k u := by
  have hmunch := flexTables_implement.munch yyClass_mem h
  rwa [flexPatterns_regExp, List.take_left] at hmunch

/-- At the end of a line a token is taken as it is spelled. -/
theorem Lexeme.Spelled.munch {l : Lexeme} (hl : l.Spelled) (rest : Text) :
    Munch flexRules (l.text ++ '\n' :: rest) l.act l.text := by
  obtain ⟨haccept, hjam⟩ := hl.state
  refine munch_of_best ?_
  rw [← List.singleton_append, ← List.append_assoc, bestOf_jam hjam, bestOf_concat, hjam,
    if_pos (by decide), bestOf_accept haccept]

/-- A blank and the end of a line are taken one by one, and ignored. -/
theorem munch_blank {c : Char} (hc : c = ' ' ∨ c = '\t' ∨ c = '\n') (rest : Text) :
    ∃ k, (k = 6 ∨ k = 7) ∧ Munch flexRules ([c] ++ rest) k [c] := by
  have hstate : yyBase (stateOf [c]) = 59 ∧ ∃ k, (k = 6 ∨ k = 7) ∧
      yyAccept (stateOf [c]) = k + 1 := by
    obtain rfl | rfl | rfl := hc
    · exact ⟨by decide, 7, .inr rfl, by decide⟩
    · exact ⟨by decide, 7, .inr rfl, by decide⟩
    · exact ⟨by decide, 6, .inl rfl, by decide⟩
  obtain ⟨hstop, k, hk, haccept⟩ := hstate
  refine ⟨k, hk, munch_of_best ?_⟩
  rw [bestOf_stop hstop, bestOf_accept haccept]

/-! ## Lines -/

/-- A token as a definition has it in a line: behind blanks and empty lines. -/
structure Laid where
  indent : Text
  lexeme : Lexeme
  blank : ∀ c ∈ indent, c = ' ' ∨ c = '\t' ∨ c = '\n'
  spelled : lexeme.Spelled
  noNul : eobChar ∉ lexeme.text

namespace Laid

def text (l : Laid) : Text := l.indent ++ (l.lexeme.text ++ ['\n'])

/-- The line in which the token ends, if the text begins in line `n`. -/
def line (l : Laid) (n : ℕ) : ℕ := n + l.indent.count '\n' + l.lexeme.text.count '\n'

theorem line_pos (l : Laid) (n : ℕ) : 0 < l.line (n + 1) := by
  unfold line
  omega

/-- The tokens of these lines behind `n` others. -/
def tokens : ℕ → List Laid → List Token
  | _, [] => []
  | n, l :: ls => ⟨l.lexeme, l.line (n + 1), l.line_pos n⟩ :: tokens (l.line (n + 1)) ls

end Laid

/-- What the scanner returns for a token. -/
def Token.scanned (t : Token) : ℕ × Text × ℕ := (t.lexeme.act + 1, t.lexeme.text, t.yylineno)

theorem scans_blanks {n : ℕ} {v rest echoed : Text} {tokens : List (ℕ × Text × ℕ)}
    (hv : ∀ c ∈ v, c = ' ' ∨ c = '\t' ∨ c = '\n')
    (h : Scans (n + v.count '\n') rest tokens echoed) : Scans n (v ++ rest) tokens echoed := by
  induction v generalizing n with
  | nil => exact h
  | cons c v ih =>
    obtain ⟨k, hk, hmunch⟩ := munch_blank (hv c List.mem_cons_self) (v ++ rest)
    refine Scans.ignore (u := [c]) hmunch hk (ih (fun d hd => hv d (List.mem_cons_of_mem c hd)) ?_)
    rwa [← List.singleton_append, List.count_append, ← Nat.add_assoc] at h

theorem scans_laid (n : ℕ) (ls : List Laid) :
    Scans (n + 1) (ls.flatMap Laid.text) ((Laid.tokens n ls).map Token.scanned) [] := by
  induction ls generalizing n with
  | nil => exact .nil
  | cons l ls ih =>
    rw [List.flatMap_cons, Laid.text, List.append_assoc, List.append_assoc]
    refine scans_blanks l.blank (.token (l.spelled.munch _) l.lexeme.act_lt ?_)
    exact scans_blanks (v := ['\n']) (by simp) (ih (l.line (n + 1)))

theorem stands_laid (n : ℕ) (ls : List Laid) :
    List.Forall₂ Stands ((Laid.tokens n ls).map Token.scanned) (Laid.tokens n ls) := by
  induction ls generalizing n with
  | nil => exact .nil
  | cons l ls ih =>
    exact .cons ⟨rfl, (strdup_eq l.noNul).symm, rfl, fun _ => l.spelled⟩ (ih _)

/-- A definition that is written out, one token at the end of each line, is read back: the scanner
returns its tokens, each with its line, and echoes nothing, and the parser runs their actions. -/
theorem laid_read_back (ls : List Laid) (reads : List Read)
    (hreads : reads.flatMap Read.bytes = ls.flatMap Laid.text) :
    (Flex.init reads).tokens ((ls.flatMap Laid.text).length + 1) =
        some ((Laid.tokens 0 ls).map Token.scanned, []) ∧
      yyparse reads = (compile (Laid.tokens 0 ls)).elim .exit fun c => .accept c [] := by
  have h := scans_laid 0 ls
  rw [← hreads] at h ⊢
  exact ⟨Flex.tokens_spec (Nat.lt_succ_self _) (Flex.init_lexes h),
    yyparse_spec h (stands_laid 0 ls)⟩

/-- ` [1]` and `//x` in two lines. -/
theorem laid_read_back_lines :
    let ls : List Laid :=
      [⟨[' '], .index (.digit 1), List.forall_mem_singleton.mpr (.inl rfl), by decide, by decide⟩,
        ⟨[], .sglineCmt "//x".toList, List.forall_mem_nil _, by decide, by decide⟩]
    (Flex.init [⟨" [1".toList, by decide⟩, ⟨"]\n//x\n".toList, by decide⟩]).tokens
        ((ls.flatMap Laid.text).length + 1) =
          some ([(3, "[1]".toList, 1), (2, "//x".toList, 2)], []) ∧
      yyparse [⟨" [1".toList, by decide⟩, ⟨"]\n//x\n".toList, by decide⟩] =
        (compile (Laid.tokens 0 ls)).elim .exit fun c => .accept c [] :=
  laid_read_back _ _ (by decide)

end DevFramework.CmdParser
