import DevFramework.CmdParser.Flex
import DevFramework.CmdParser.Rules

/-! # The generated scanner follows the rules

The tables of lex.flex.cpp implement the nine rules of lex.l, the default rule being the last of
them. So `yylex` takes from the file, however its reads cut it, the longest text that a rule
matches, and counts the lines.
-/
namespace DevFramework.CmdParser
open Rules RegExp
set_option autoImplicit false
set_option maxHeartbeats 250000

/-! ## The rules over classes of bytes -/

/-- `\n|\r\n`. -/
def newlineRule : RegExp Char := .alt (.word ['\n']) (.word ['\r', '\n'])

/-- `[ \t]`. -/
def blankRule : RegExp Char := .one fun c => c = ' ' ∨ c = '\t'

/-- Any character, for `ECHO`. -/
def defaultRule : RegExp Char := .one fun _ => true

/-- In the order of lex.l. -/
def flexRules : List (RegExp Char) :=
  [globalCmtRule, sglineCmtRule, indexRule, fileNameRule, takeBitsRule, cmdNameRule, newlineRule,
    blankRule, defaultRule]

/-- The classes of `yy_ec`, without that of the end of the buffer. -/
def flexClasses : List ℕ := [1, 2, 3, 4, 5, 6, 7, 8, 9, 10, 11, 12, 13]

/-- All classes but these. -/
def allBut (classes : List ℕ) : List ℕ := flexClasses.filter fun k => k ∉ classes

/-- The rules, class by class. -/
def flexPatterns : List Pattern :=
  [.seq (.word [8, 6]) (.seq (.star (.one (allBut [6]))) (.seq (.plus (.one [6]))
      (.seq (.star (.seq (.one (allBut [6, 8])) (.seq (.star (.one (allBut [6])))
        (.plus (.one [6]))))) (.word [8])))),
    .seq (.plus (.word [8, 8])) (.star (.one (allBut [3]))),
    .seq (.word [12]) (.seq (.plus (.one [9])) (.word [13])),
    .seq (.word [12]) (.seq (.star (.one [11])) (.word [13])),
    .seq (.word [12]) (.seq (.plus (.one [9])) (.seq (.word [7]) (.seq (.plus (.one [9]))
      (.word [13])))),
    .seq (.plus (.one [9, 11])) (.seq (.star (.one [5])) (.word [10])),
    .alt (.word [3]) (.word [4, 3]),
    .one [2, 5],
    .one flexClasses]

/-- The sets of classes in the patterns, and the characters that the rules have there. -/
def classRules : List (List ℕ × (Char → Bool)) :=
  [([3], fun c => c = '\n'), ([4], fun c => c = '\r'), ([5], fun c => c = ' '),
    ([6], fun c => c = '*'), ([7], fun c => c = '-'), ([8], fun c => c = '/'),
    ([10], fun c => c = ';'), ([12], fun c => c = '['), ([13], fun c => c = ']'),
    ([9], Char.isDigit), ([11], fun c => c.isAlpha ∨ c = '_'),
    ([9, 11], fun c => c.isAlphanum ∨ c = '_'), ([2, 5], fun c => c = ' ' ∨ c = '\t'),
    (allBut [6], fun c => c ≠ '*'), (allBut [6, 8], fun c => c ≠ '/' ∧ c ≠ '*'),
    (allBut [3], fun c => c ≠ '\n'), (flexClasses, fun _ => true)]

theorem ecTable_length : ecTable.length = 256 := by decide +kernel

/-- Entry by entry, the table has a character in the classes that the rules have it in. -/
theorem classRules_bytes : classRules.all (fun r => ecTable.zipIdx.all fun e =>
    decide ((if e.2 = 0 then 1 else e.1) ∈ r.1) == r.2 (Char.ofNat e.2)) = true := by
  decide +kernel

theorem eobChar_iff (c : Char) : c = eobChar ↔ c.toNat = 0 := by
  constructor
  · rintro rfl
    rfl
  · intro h
    rw [← Char.ofNat_toNat c, h]
    rfl

theorem large_ne {c : Char} (hc : 256 ≤ c.toNat) {d : Char} (hd : d.toNat < 256) : c ≠ d := by
  rintro rfl
  exact Nat.not_lt_of_le hc hd

theorem large_isAlphanum {c : Char} (hc : 256 ≤ c.toNat) :
    c.isAlpha = false ∧ c.isDigit = false := by
  have hval : 256 ≤ c.val.toNat := hc
  have hbounds : 'Z'.val.toNat = 90 ∧ 'z'.val.toNat = 122 ∧ '9'.val.toNat = 57 := by decide
  have halpha : c.isAlpha = (decide ('A'.val ≤ c.val ∧ c.val ≤ 'Z'.val) ||
      decide ('a'.val ≤ c.val) && decide (c.val ≤ 'z'.val)) := rfl
  have hdigit : c.isDigit = (decide ('0'.val ≤ c.val) && decide (c.val ≤ '9'.val)) := rfl
  rw [← Bool.or_eq_false_iff, ← Bool.not_eq_true, halpha, hdigit]
  simp only [Bool.or_eq_true, Bool.and_eq_true, decide_eq_true_eq, UInt32.le_iff_toNat_le]
  omega

/-- Characters that are no bytes are in the class of the bytes that no rule names. -/
theorem classRules_large {c : Char} (hc : 256 ≤ c.toNat) :
    classRules.all (fun r => decide (1 ∈ r.1) == r.2 c) = true := by
  obtain ⟨halpha, hdigit⟩ := large_isAlphanum hc
  have hne : ∀ d ∈ ['\n', '\r', '\t', ' ', '*', '-', '/', ';', '[', ']', '_'], c ≠ d := by
    intro d hd
    have hall : ['\n', '\r', '\t', ' ', '*', '-', '/', ';', '[', ']', '_'].all
        (fun d => decide (d.toNat < 256)) = true := by decide
    exact large_ne hc (of_decide_eq_true (List.all_eq_true.mp hall d hd))
  simp only [List.mem_cons, List.not_mem_nil, or_false, forall_eq_or_imp, forall_eq] at hne
  simp [classRules, allBut, flexClasses, hne, halpha, hdigit, Char.isAlphanum]

theorem yyClass_large {c : Char} (hc : 256 ≤ c.toNat) : yyClass c = 1 := by
  have hnone : ecTable[c.toNat]? = none :=
    List.getElem?_eq_none (by rw [ecTable_length]; exact hc)
  unfold yyClass yyEc
  rw [List.getD_eq_getElem?_getD, hnone, Option.getD_none, ite_self]

theorem regExp_class (i : ℕ) {classes : List ℕ} {p : Char → Bool}
    (hi : classRules[i]? = some (classes, p)) :
    (Pattern.one classes).regExp yyClass = .one p := by
  refine congrArg RegExp.one (funext fun c => ?_)
  by_cases hc : c.toNat < ecTable.length
  · have hentry : (ecTable[c.toNat], c.toNat) ∈ ecTable.zipIdx :=
      List.mem_zipIdx_iff_getElem?.mpr (List.getElem?_eq_getElem hc)
    have hbyte := beq_iff_eq.mp (List.all_eq_true.mp
      (List.all_eq_true.mp classRules_bytes _ (List.mem_of_getElem? hi)) _ hentry)
    rw [Char.ofNat_toNat] at hbyte
    have hclass : yyClass c = if c.toNat = 0 then 1 else ecTable[c.toNat] := by
      unfold yyClass yyEc
      rw [List.getD_eq_getElem?_getD, List.getElem?_eq_getElem hc, Option.getD_some]
      exact if_congr (eobChar_iff c) rfl rfl
    rw [hclass]
    exact hbyte
  · have hge : 256 ≤ c.toNat := by
      rw [ecTable_length] at hc
      exact Nat.le_of_not_lt hc
    rw [yyClass_large hge]
    exact beq_iff_eq.mp (List.all_eq_true.mp (classRules_large hge) _ (List.mem_of_getElem? hi))

/-- Class by class, the rules are those of lex.l. -/
theorem flexPatterns_regExp : flexPatterns.map (Pattern.regExp yyClass) = flexRules := by
  simp only [flexPatterns, List.map_cons, List.map_nil, Pattern.word, regExp_seq, regExp_alt,
    regExp_star, regExp_plus, regExp_class 0 rfl, regExp_class 1 rfl, regExp_class 2 rfl, regExp_class 3 rfl,
    regExp_class 4 rfl, regExp_class 5 rfl, regExp_class 6 rfl, regExp_class 7 rfl, regExp_class 8 rfl,
    regExp_class 9 rfl, regExp_class 10 rfl, regExp_class 11 rfl, regExp_class 12 rfl, regExp_class 13 rfl,
    regExp_class 14 rfl, regExp_class 15 rfl, regExp_class 16 rfl]
  rfl

/-! ## The tables implement the rules -/

def flexTables : Tables := ⟨yyNext, yyAccept, 1, yyJam⟩

/-- The states of `yylex`, and for each of them classes that lead to it. State 2 is never entered,
and state 3 only at the end of the buffer. -/
def flexStates : List (ℕ × List ℕ) :=
  [(1, []), (4, [1]), (5, [2]), (6, [3]), (7, [4]), (8, [8]), (9, [9]), (10, [12]), (11, [4, 3]),
    (12, [8, 6]), (13, [8, 8]), (14, [9, 5]), (15, [9, 9]), (16, [9, 10]), (17, [12, 9]),
    (18, [12, 11]), (19, [12, 13]), (20, [8, 6, 1]), (21, [8, 6, 6]), (22, [8, 8, 1]),
    (23, [8, 8, 8]), (24, [12, 9, 7]), (25, [12, 9, 13]), (26, [8, 6, 6, 1]), (27, [8, 6, 6, 8]),
    (28, [8, 8, 8, 8]), (29, [12, 9, 7, 9]), (30, [8, 6, 6, 1, 1]), (31, [8, 6, 6, 1, 6]),
    (32, [12, 9, 7, 9, 13]), (33, [1, 1])]

/-- What is left of the rules in a state. -/
def flexLeft (state : ℕ) : Left :=
  ((flexStates.lookup state).getD []).foldl (fun l k => l.after k) (.start flexPatterns)

/-- State by state: what the tables have to do for the rules, that a buffer ends in state 3, and
that nothing follows a match where the loop stops. -/
theorem flexStates_check : flexStates.all (fun e =>
    let s := e.1
    let l := flexLeft s
    flexClasses.all (fun k => decide (yyNext s k ∈ flexStates.map Prod.fst) &&
        decide (flexLeft (yyNext s k) = l.after k) && (yyBase s ≠ 59 || yyNext s k == yyJam)) &&
      yyAccept s == l.first && (s == yyJam) == l.isOver && yyNext s 0 == 3 &&
      decide (yyAccept s < 10)) = true := by
  decide +kernel

theorem flexState_facts {s : ℕ} (hs : s ∈ flexStates.map Prod.fst) :
    (∀ k ∈ flexClasses, yyNext s k ∈ flexStates.map Prod.fst ∧
      flexLeft (yyNext s k) = (flexLeft s).after k ∧ (yyBase s = 59 → yyNext s k = yyJam)) ∧
    yyAccept s = (flexLeft s).first ∧ (s = yyJam ↔ (flexLeft s).isOver = true) ∧
    yyNext s 0 = 3 ∧ yyAccept s < 10 := by
  obtain ⟨e, he, rfl⟩ := List.mem_map.mp hs
  have hcheck := List.all_eq_true.mp flexStates_check e he
  simp only [Bool.and_eq_true, beq_iff_eq, decide_eq_true_eq, List.all_eq_true,
    Bool.or_eq_true, ne_eq] at hcheck
  obtain ⟨⟨⟨⟨hnext, haccept⟩, hjam⟩, hend⟩, hlt⟩ := hcheck
  refine ⟨fun k hk => ?_, haccept, ?_, hend, hlt⟩
  · obtain ⟨⟨hmem, hleft⟩, hstop⟩ := hnext k hk
    exact ⟨hmem, hleft, fun hbase => hstop.resolve_left fun hne => hne hbase⟩
  · rw [← hjam, beq_iff_eq]

theorem flexTables_implement :
    flexTables.Implements flexClasses flexPatterns (flexStates.map Prod.fst) flexLeft where
  start := ⟨List.mem_cons_self, rfl⟩
  next _ hs k hk := ⟨((flexState_facts hs).1 k hk).1, ((flexState_facts hs).1 k hk).2.1⟩
  accept _ hs := (flexState_facts hs).2.1
  jam _ hs := (flexState_facts hs).2.2.1
  idle := rfl

/-! ## One match -/

theorem yyClass_mem (c : Char) : yyClass c ∈ flexClasses := by
  have hany := regExp_class 16 rfl
  exact of_decide_eq_true (congrFun (RegExp.one.inj hany) c)

theorem yyEc_lt (c : Char) : yyEc c < 14 := by
  have hall : ecTable.all (fun k => decide (k < 14)) = true := by decide +kernel
  unfold yyEc
  rw [List.getD_eq_getElem?_getD]
  cases hk : ecTable[c.toNat]? with
  | none => exact (by decide : 1 < 14)
  | some k => exact of_decide_eq_true (List.all_eq_true.mp hall k (List.mem_of_getElem? hk))

/-- Behind the end of the buffer the scanner jams, whatever stands there. -/
theorem endOfBuffer_next : ∀ k < 14, yyNext 3 k = yyJam := by decide

theorem start_accepts : ∀ k ∈ flexClasses, yyAccept (yyNext 1 k) ≠ 0 := by decide

/-- The state behind a text. -/
abbrev stateOf (w : Text) : ℕ := flexTables.run yyClass w

/-- The action for a text and what it matches. -/
abbrev bestOf (w : Text) : ℕ × ℕ := flexTables.best yyClass w

theorem stateOf_mem (w : Text) : stateOf w ∈ flexStates.map Prod.fst :=
  (flexTables_implement.leaves yyClass_mem w).1

theorem stateOf_concat (w : Text) (c : Char) :
    stateOf (w ++ [c]) = yyNext (stateOf w) (yyClass c) := Tables.run_concat w c

theorem bestOf_concat (w : Text) (c : Char) : bestOf (w ++ [c]) =
    if yyAccept (stateOf (w ++ [c])) = 0 then bestOf w
    else (yyAccept (stateOf (w ++ [c])), w.length + 1) := Tables.best_concat w c

theorem previous_concat (w : Text) (c : Char) (last : ℕ × ℕ) :
    yyGetPreviousState (w ++ [c]) last = (yyGetPreviousState w last).read (yyClass c) := by
  rw [yyGetPreviousState, List.foldl_append]
  rfl

theorem previous_state (w : Text) (last : ℕ × ℕ) :
    (yyGetPreviousState w last).state = stateOf w ∧
      (yyGetPreviousState w last).cp = w.length := by
  induction w using List.reverseRecOn with
  | nil => exact ⟨rfl, rfl⟩
  | append_singleton w c ih =>
    rw [previous_concat, stateOf_concat, ← ih.1, List.length_append, ← ih.2]
    exact ⟨rfl, rfl⟩

theorem findAction_read (r : Run) (k : ℕ) : yyFindAction (r.read k) =
    if yyAccept (yyNext r.state k) = 0 then yyFindAction r
    else (yyAccept (yyNext r.state k), r.cp + 1) := by
  unfold yyFindAction Run.read Run.note
  by_cases h : yyAccept r.state = 0
  · simp only [h, ne_eq, not_true_eq_false, if_false, if_true]
  · simp only [h, ne_eq, not_false_eq_true, if_true, if_false]

/-- Whatever was noted before, the action is that of the longest match in the text. -/
theorem findAction_previous {w : Text} (hw : w ≠ []) (last : ℕ × ℕ) :
    yyFindAction (yyGetPreviousState w last) = bestOf w := by
  induction w using List.reverseRecOn with
  | nil => exact absurd rfl hw
  | append_singleton w c ih =>
    obtain ⟨hstate, hcp⟩ := previous_state w last
    rw [previous_concat, findAction_read, hstate, hcp, bestOf_concat, stateOf_concat]
    by_cases hempty : w = []
    · rw [hempty]
      have haccepts := start_accepts _ (yyClass_mem c)
      rw [show stateOf [] = 1 from rfl, if_neg haccepts, if_neg haccepts]
    · rw [ih hempty]

/-- Behind a NUL, or where the buffer ends, the scanner finds the end of the buffer. -/
theorem yyMatch_nul {w l : Text} (last : ℕ × ℕ) (hl : l ≠ []) :
    yyMatch (eobChar :: l) (yyGetPreviousState w last) =
      ⟨yyJam, w.length + 2, 3, w.length + 1⟩ := by
  obtain ⟨hstate, hcp⟩ := previous_state w last
  obtain ⟨-, -, -, hend, -⟩ := flexState_facts (stateOf_mem w)
  cases l with
  | nil => exact absurd rfl hl
  | cons c l =>
    have hfirst : (yyGetPreviousState w last).read (yyEc eobChar) =
        ⟨3, w.length + 1, (yyGetPreviousState w last).note⟩ := by
      rw [Run.read, hstate, hcp, ← hend]
      rfl
    have hsecond : Run.read ⟨3, w.length + 1, (yyGetPreviousState w last).note⟩ (yyEc c) =
        ⟨yyJam, w.length + 2, 3, w.length + 1⟩ := by
      rw [Run.read, endOfBuffer_next _ (yyEc_lt c)]
      rfl
    rw [yyMatch, hfirst]
    have hgoes : yyBase 3 ≠ 59 := by decide
    have hstops : ¬ yyBase yyJam ≠ 59 := by decide
    simp only [hgoes, ne_eq, not_false_eq_true, if_true]
    rw [yyMatch, hsecond]
    exact if_neg hstops

/-- The loop stops where a match ends or the scanner jams, or behind the first NUL: a byte of the
buffer, or what ends it. -/
theorem yyMatch_spec (l : Text) {w : Text} (last : ℕ × ℕ) (hw : stateOf w ≠ yyJam) :
    (∃ v, v ≠ [] ∧ v <+: l ∧ yyBase (stateOf (w ++ v)) = 59 ∧
      yyMatch (l ++ [eobChar, eobChar]) (yyGetPreviousState w last) =
        yyGetPreviousState (w ++ v) last) ∨
    ∃ v, (v = l ∨ v ++ [eobChar] <+: l) ∧ stateOf (w ++ v) ≠ yyJam ∧
      yyMatch (l ++ [eobChar, eobChar]) (yyGetPreviousState w last) =
        ⟨yyJam, (w ++ v).length + 2, 3, (w ++ v).length + 1⟩ := by
  induction l generalizing w with
  | nil =>
    refine .inr ⟨[], .inl rfl, by rwa [List.append_nil], ?_⟩
    rw [List.append_nil]
    exact yyMatch_nul last (List.cons_ne_nil _ _)
  | cons c l ih =>
    by_cases hc : c = eobChar
    · refine .inr ⟨[], .inr ⟨l, by rw [hc]; rfl⟩, by rwa [List.append_nil], ?_⟩
      rw [List.append_nil, hc]
      exact yyMatch_nul last (by simp)
    · have hread : (yyGetPreviousState w last).read (yyEc c) =
          yyGetPreviousState (w ++ [c]) last := by
        rw [previous_concat, yyClass, if_neg hc]
      have hstate := (previous_state (w ++ [c]) last).1
      rw [List.cons_append, yyMatch, hread, hstate]
      by_cases hbase : yyBase (stateOf (w ++ [c])) = 59
      · exact .inl ⟨[c], List.cons_ne_nil _ _, ⟨l, rfl⟩, hbase, if_neg fun h => h hbase⟩
      · have hjam : stateOf (w ++ [c]) ≠ yyJam := by
          intro h
          rw [h] at hbase
          exact hbase (by decide)
        have hassoc : ∀ v, w ++ [c] ++ v = w ++ c :: v := fun v => by
          rw [List.append_assoc, List.singleton_append]
        obtain ⟨v, -, hv, hstop, hmatch⟩ | ⟨v, hv, hgoes, hmatch⟩ := ih hjam
        · rw [hassoc] at hstop hmatch
          exact .inl ⟨c :: v, List.cons_ne_nil _ _, (List.prefix_cons_inj c).mpr hv, hstop,
            (if_pos hbase).trans hmatch⟩
        · rw [hassoc] at hgoes hmatch
          refine .inr ⟨c :: v, ?_, hgoes, (if_pos hbase).trans hmatch⟩
          obtain rfl | hv := hv
          · exact .inl rfl
          · exact .inr ((List.prefix_cons_inj c).mpr hv)

/-! ## The best match of the whole text -/

/-- Where the scanner jams it has found its match. -/
theorem bestOf_jam {w : Text} (hw : stateOf w = yyJam) (v : Text) : bestOf (w ++ v) = bestOf w :=
  flexTables_implement.best_jam yyClass_mem hw v

/-- Where the loop stops the match is found. -/
theorem bestOf_stop {w : Text} (hw : yyBase (stateOf w) = 59) (v : Text) :
    bestOf (w ++ v) = bestOf w := by
  cases v with
  | nil => rw [List.append_nil]
  | cons c v =>
    have hnext : stateOf (w ++ [c]) = yyJam := by
      rw [stateOf_concat]
      exact ((flexState_facts (stateOf_mem w)).1 _ (yyClass_mem c)).2.2 hw
    have hsame : bestOf (w ++ [c]) = bestOf w := by
      rw [bestOf_concat, hnext]
      exact if_pos (by decide)
    rw [← List.singleton_append, ← List.append_assoc, bestOf_jam hnext, hsame]

theorem bestOf_action {w : Text} (hw : w ≠ []) : 0 < (bestOf w).1 ∧ (bestOf w).1 < 10 := by
  induction w using List.reverseRecOn with
  | nil => exact absurd rfl hw
  | append_singleton w c ih =>
    rw [bestOf_concat]
    split_ifs with hzero
    · refine ih fun hempty => ?_
      rw [hempty] at hzero
      exact start_accepts _ (yyClass_mem c) hzero
    · exact ⟨Nat.pos_of_ne_zero hzero, (flexState_facts (stateOf_mem _)).2.2.2.2⟩

theorem bestOf_length {w : Text} (hw : w ≠ []) : 0 < (bestOf w).2 ∧ (bestOf w).2 ≤ w.length := by
  obtain ⟨hle, -, hbehind⟩ := Tables.best_spec flexTables yyClass w
  refine ⟨?_, hle⟩
  by_contra hzero
  have hone := hbehind 1 (Nat.lt_succ_of_le (Nat.le_of_not_lt hzero)) (List.length_pos_iff.mpr hw)
  cases w with
  | nil => exact hw rfl
  | cons c w => exact start_accepts _ (yyClass_mem c) hone

namespace Flex

/-- A scan that has found its match in the buffer ends there. -/
theorem scan_found {fuel : ℕ} {s : Flex} {r r' : Run} {matching : Bool}
    (hr : (if matching then yyMatch (s.buffer.drop r.cp ++ [eobChar, eobChar]) r else r) = r')
    (haction : (yyFindAction r').1 < 10) :
    scan (fuel + 1) s r matching =
      some (.action (yyFindAction r').1 (yyFindAction r').2, { s with last := r'.last }) := by
  have hne : (yyFindAction r').1 ≠ yyEndOfBuffer := Nat.ne_of_lt haction
  rw [scan, hr]
  exact if_pos hne

section EndOfBuffer
variable {fuel m : ℕ} {s : Flex} {r : Run}

theorem scan_nul (hr : yyMatch (s.buffer.drop r.cp ++ [eobChar, eobChar]) r =
      ⟨yyJam, m + 2, 3, m + 1⟩) (hm : m + 1 ≤ s.buffer.length) :
    scan (fuel + 1) s r true =
      if ((yyGetPreviousState (s.buffer.take m) (3, m + 1)).read 1).state ≠ yyJam then
        scan fuel s ((yyGetPreviousState (s.buffer.take m) (3, m + 1)).read 1) true
      else
        scan fuel s { yyGetPreviousState (s.buffer.take m) (3, m + 1) with
          last := (yyGetPreviousState (s.buffer.take m) (3, m + 1)).note } false := by
  rw [scan, if_pos rfl, hr]
  exact (if_neg fun h => h rfl).trans (if_pos hm)

theorem scan_refill {read : Read} {reads : List Read}
    (hr : yyMatch (s.buffer.drop r.cp ++ [eobChar, eobChar]) r = ⟨yyJam, m + 2, 3, m + 1⟩)
    (hm : ¬ m + 1 ≤ s.buffer.length) (hreads : s.reads = read :: reads) :
    scan (fuel + 1) s r true =
      scan fuel { s with buffer := s.buffer ++ read.bytes, reads }
        (yyGetPreviousState ((s.buffer ++ read.bytes).take m) (3, m + 1)) true := by
  rw [scan, if_pos rfl, hr]
  refine (if_neg fun h => h rfl).trans ((if_neg hm).trans ?_)
  rw [hreads]
  rfl

theorem scan_last
    (hr : yyMatch (s.buffer.drop r.cp ++ [eobChar, eobChar]) r = ⟨yyJam, m + 2, 3, m + 1⟩)
    (hm : ¬ m + 1 ≤ s.buffer.length) (hreads : s.reads = []) :
    scan (fuel + 1) s r true =
      if m = 0 then some (.endOfFile, { s with last := (3, m + 1) })
      else scan fuel s (yyGetPreviousState s.buffer (3, m + 1)) false := by
  rw [scan, if_pos rfl, hr]
  refine (if_neg fun h => h rfl).trans ((if_neg hm).trans ?_)
  rw [hreads]
  rfl

end EndOfBuffer

/-- What a scan comes to: the best match of the whole text, which is in the buffer by then. -/
def Scanned (s : Flex) (m : Match) (s' : Flex) : Prop :=
  s'.text = s.text ∧ s'.yylineno = s.yylineno ∧ s'.yyout = s.yyout ∧
    ((s.text = [] ∧ m = .endOfFile) ∨
      (s.text ≠ [] ∧ m = .action (bestOf s.text).1 (bestOf s.text).2 ∧
        (bestOf s.text).2 ≤ s'.buffer.length))

/-- A match in the front part of the buffer that settles it. -/
theorem scanned_front {s : Flex} {w : Text} (hw : w ≠ []) (hfront : w <+: s.buffer)
    (hbest : bestOf s.text = bestOf w) (last : ℕ × ℕ) :
    Scanned s (.action (bestOf w).1 (bestOf w).2) { s with last } := by
  have hne : s.text ≠ [] := by
    obtain ⟨v, hv⟩ := hfront
    rw [text, ← hv, List.append_assoc]
    exact List.append_ne_nil_of_left_ne_nil hw _
  refine ⟨rfl, rfl, rfl, .inr ⟨hne, by rw [hbest], ?_⟩⟩
  rw [hbest]
  exact (bestOf_length hw).2.trans hfront.length_le

theorem scan_settled (fuel : ℕ) {s : Flex} {w : Text} (hw : w ≠ []) (hfront : w <+: s.buffer)
    (hbest : bestOf s.text = bestOf w) {r : Run} (hr : yyFindAction r = bestOf w) :
    ∃ m s', scan (fuel + 1) s r false = some (m, s') ∧ s.Scanned m s' := by
  rw [scan_found (if_neg Bool.false_ne_true) (by rw [hr]; exact (bestOf_action hw).2), hr]
  exact ⟨_, _, rfl, scanned_front hw hfront hbest _⟩

theorem text_front {s : Flex} {w : Text} (hfront : w <+: s.buffer) :
    ∃ v, s.text = w ++ v := by
  obtain ⟨v, hv⟩ := hfront
  exact ⟨v ++ s.reads.flatMap Read.bytes, by rw [text, ← hv, List.append_assoc]⟩

theorem findAction_note (r : Run) : yyFindAction { r with last := r.note } = yyFindAction r := by
  unfold yyFindAction Run.note
  by_cases h : yyAccept r.state = 0
  · simp only [h, ne_eq, not_true_eq_false, if_false, if_true]
  · simp only [h, if_false]

theorem scan_spec {fuel : ℕ} {s : Flex} {w : Text} (last : ℕ × ℕ) (hfront : w <+: s.buffer)
    (hw : stateOf w ≠ yyJam)
    (hfuel : s.text.length + s.reads.length + 1 < fuel + w.length) :
    ∃ m s', scan fuel s (yyGetPreviousState w last) true = some (m, s') ∧ s.Scanned m s' := by
  induction fuel generalizing s w last with
  | zero =>
    have hle := hfront.length_le
    have htext : s.buffer.length ≤ s.text.length := by simp [text]
    omega
  | succ fuel ih =>
    obtain ⟨l, hl⟩ := hfront
    have hdrop : s.buffer.drop w.length = l := by rw [← hl, List.drop_left]
    have hcp := (previous_state w last).2
    obtain ⟨v, hne, ⟨l', hl'⟩, hstop, hmatch⟩ | ⟨v, hv, hgoes, hmatch⟩ := yyMatch_spec l last hw
    · have hvne : w ++ v ≠ [] := List.append_ne_nil_of_right_ne_nil w hne
      have haction := findAction_previous hvne last
      have hrun : (if (true : Bool) then yyMatch (s.buffer.drop (yyGetPreviousState w last).cp ++
          [eobChar, eobChar]) (yyGetPreviousState w last) else yyGetPreviousState w last) =
          yyGetPreviousState (w ++ v) last := by
        rw [if_pos rfl, hcp, hdrop, hmatch]
      rw [scan_found hrun (by rw [haction]; exact (bestOf_action hvne).2), haction]
      have hfront : w ++ v <+: s.buffer := ⟨l', by rw [List.append_assoc, hl', hl]⟩
      obtain ⟨u, hu⟩ := text_front hfront
      exact ⟨_, _, rfl, scanned_front hvne hfront (by rw [hu, bestOf_stop hstop]) _⟩
    · have hr : yyMatch (s.buffer.drop (yyGetPreviousState w last).cp ++ [eobChar, eobChar])
          (yyGetPreviousState w last) = ⟨yyJam, (w ++ v).length + 2, 3, (w ++ v).length + 1⟩ := by
        rw [hcp, hdrop, hmatch]
      have htext : s.text.length = s.buffer.length + (s.reads.flatMap Read.bytes).length :=
        List.length_append
      have hvw : w.length ≤ (w ++ v).length := by simp
      by_cases hnul : (w ++ v).length + 1 ≤ s.buffer.length
      · -- a NUL in the buffer
        have hrest : v ++ [eobChar] <+: l := hv.resolve_left fun heq => by
          rw [heq, hl] at hnul
          omega
        have hfront : w ++ v ++ [eobChar] <+: s.buffer := by
          obtain ⟨l', hl'⟩ := hrest
          exact ⟨l', by rw [← hl, ← hl']; simp⟩
        have htake : s.buffer.take (w ++ v).length = w ++ v :=
          List.prefix_iff_eq_take.mp ((List.prefix_append _ _).trans hfront) |>.symm
        have hread : (yyGetPreviousState (w ++ v) (3, (w ++ v).length + 1)).read 1 =
            yyGetPreviousState (w ++ v ++ [eobChar]) (3, (w ++ v).length + 1) := by
          rw [previous_concat]
          rfl
        rw [scan_nul hr hnul, htake, hread, (previous_state _ _).1]
        by_cases hjam : stateOf (w ++ v ++ [eobChar]) = yyJam
        · rw [if_neg fun h => h hjam]
          have hvne : w ++ v ≠ [] := by
            intro hempty
            rw [hempty] at hjam
            exact absurd hjam (by decide)
          obtain ⟨fuel, rfl⟩ : ∃ k, fuel = k + 1 := ⟨fuel - 1, by omega⟩
          obtain ⟨u, hu⟩ := text_front hfront
          have hbest : bestOf s.text = bestOf (w ++ v) := by
            rw [hu, bestOf_jam hjam, bestOf_concat, hjam]
            exact if_pos (by decide)
          exact scan_settled fuel hvne ((List.prefix_append _ _).trans hfront) hbest
            ((findAction_note _).trans (findAction_previous hvne _))
        · rw [if_pos hjam]
          refine ih _ hfront hjam ?_
          rw [List.length_append, List.length_singleton]
          omega
      · -- the end of the buffer
        have hwhole : w ++ v = s.buffer := by
          obtain rfl | hrest := hv
          · exact hl
          · have hle := hrest.length_le
            rw [← hl, List.length_append, List.length_append] at hnul
            rw [List.length_append, List.length_singleton] at hle
            omega
        cases hreads : s.reads with
        | cons read reads =>
          have htake : (s.buffer ++ read.bytes).take (w ++ v).length = w ++ v := by
            rw [← hwhole, List.take_left]
          have hsame : text { s with buffer := s.buffer ++ read.bytes, reads } = s.text := by
            rw [text, text, hreads, List.flatMap_cons, List.append_assoc]
          rw [scan_refill hr hnul hreads, htake]
          rw [hreads, List.length_cons] at hfuel
          obtain ⟨m, s', hscan, hscanned⟩ :=
            ih (s := { s with buffer := s.buffer ++ read.bytes, reads }) (w := w ++ v)
              (3, (w ++ v).length + 1) (by rw [hwhole]; exact List.prefix_append _ _) hgoes
              (by rw [hsame]; show s.text.length + reads.length + 1 < _; omega)
          unfold Scanned at hscanned
          rw [hsame] at hscanned
          exact ⟨m, s', hscan, hscanned⟩
        | nil =>
          have hall : s.text = w ++ v := by rw [text, hreads, ← hwhole]; exact List.append_nil _
          rw [scan_last hr hnul hreads]
          by_cases hempty : w ++ v = []
          · rw [hempty]
            exact ⟨_, _, rfl, rfl, rfl, rfl, .inl ⟨hall.trans hempty, rfl⟩⟩
          · rw [if_neg fun h => hempty (List.length_eq_zero_iff.mp h), ← hwhole]
            rw [hall] at hfuel
            obtain ⟨fuel, rfl⟩ : ∃ k, fuel = k + 1 := ⟨fuel - 1, by omega⟩
            have hfront : w ++ v <+: s.buffer := ⟨[], by rw [List.append_nil, hwhole]⟩
            exact scan_settled fuel hempty hfront (by rw [hall])
              (findAction_previous hempty _)

/-- From anywhere between two matches, the scanner comes to the best match of the text. -/
theorem scan_start (s : Flex) : ∃ m s', scan s.scanFuel s ⟨1, 0, s.last⟩ true = some (m, s') ∧
    s.Scanned m s' := by
  have hstart : stateOf [] ≠ yyJam := by decide
  exact scan_spec s.last List.nil_prefix hstart (by simp [scanFuel])

end Flex

/-! ## The tokens of a file -/

/-- What lex.l makes of a text that begins in line `n`: the tokens, each with its rule and the line
in which it ends, and what is echoed. -/
inductive Scans : ℕ → Text → List (ℕ × Text × ℕ) → Text → Prop where
  | nil {n : ℕ} : Scans n [] [] []
  | token {n k : ℕ} {u rest echoed : Text} {tokens : List (ℕ × Text × ℕ)}
      (hu : Munch flexRules (u ++ rest) k u) (hk : k < 6)
      (hrest : Scans (n + u.count '\n') rest tokens echoed) :
      Scans n (u ++ rest) ((k + 1, u, n + u.count '\n') :: tokens) echoed
  | ignore {n k : ℕ} {u rest echoed : Text} {tokens : List (ℕ × Text × ℕ)}
      (hu : Munch flexRules (u ++ rest) k u) (hk : k = 6 ∨ k = 7)
      (hrest : Scans (n + u.count '\n') rest tokens echoed) : Scans n (u ++ rest) tokens echoed
  | echo {n : ℕ} {u rest echoed : Text} {tokens : List (ℕ × Text × ℕ)}
      (hu : Munch flexRules (u ++ rest) 8 u)
      (hrest : Scans (n + u.count '\n') rest tokens echoed) :
      Scans n (u ++ rest) tokens (u ++ echoed)

/-- The best match is what the rules take. -/
theorem bestOf_munch {text : Text} (htext : text ≠ []) :
    Munch flexRules text ((bestOf text).1 - 1) (text.take (bestOf text).2) := by
  have hpos := (bestOf_action htext).1
  have hbest : bestOf text = ((bestOf text).1 - 1 + 1, (bestOf text).2) := by
    rw [Nat.sub_add_cancel hpos]
  have hmunch := flexTables_implement.munch yyClass_mem hbest
  rwa [flexPatterns_regExp] at hmunch

/-- The first match of a text, its rule counted from zero. -/
abbrev firstRule (text : Text) : ℕ := (bestOf text).1 - 1

abbrev firstText (text : Text) : Text := text.take (bestOf text).2

abbrev restText (text : Text) : Text := text.drop (bestOf text).2

theorem firstRule_lt {text : Text} (htext : text ≠ []) : firstRule text < 9 := by
  have hlt := (bestOf_action htext).2
  unfold firstRule
  omega

theorem rest_shorter {text : Text} (htext : text ≠ []) :
    (restText text).length < text.length := by
  have hpos := (bestOf_length htext).1
  have htext' := List.length_pos_iff.mpr htext
  rw [List.length_drop]
  omega

theorem munch_first {text u rest : Text} {k : ℕ} (h : Munch flexRules text k u)
    (htext : text = u ++ rest) (hne : text ≠ []) :
    firstRule text = k ∧ firstText text = u ∧ restText text = rest := by
  obtain ⟨hk, hu⟩ := (bestOf_munch hne).unique h
  have hsame : u ++ restText text = u ++ rest := by
    rw [← htext, ← hu]
    exact List.take_append_drop _ _
  exact ⟨hk, hu, List.append_cancel_left hsame⟩

/-- How the scan of a text begins. -/
theorem Scans.first {n : ℕ} {text echoed : Text} {tokens : List (ℕ × Text × ℕ)}
    (h : Scans n text tokens echoed) (htext : text ≠ []) :
    (firstRule text < 6 ∧ ∃ tokens',
      tokens = (firstRule text + 1, firstText text, n + (firstText text).count '\n') :: tokens' ∧
        Scans (n + (firstText text).count '\n') (restText text) tokens' echoed) ∨
    ((firstRule text = 6 ∨ firstRule text = 7) ∧
      Scans (n + (firstText text).count '\n') (restText text) tokens echoed) ∨
    (firstRule text = 8 ∧ ∃ echoed', echoed = firstText text ++ echoed' ∧
      Scans (n + (firstText text).count '\n') (restText text) tokens echoed') := by
  cases h with
  | nil => exact absurd rfl htext
  | token hu hk hrest =>
    obtain ⟨h₁, h₂, h₃⟩ := munch_first hu rfl htext
    rw [h₁, h₂, h₃]
    exact .inl ⟨hk, _, rfl, hrest⟩
  | ignore hu hk hrest =>
    obtain ⟨h₁, h₂, h₃⟩ := munch_first hu rfl htext
    rw [h₁, h₂, h₃]
    exact .inr (.inl ⟨hk, hrest⟩)
  | echo hu hrest =>
    obtain ⟨h₁, h₂, h₃⟩ := munch_first hu rfl htext
    rw [h₁, h₂, h₃]
    exact .inr (.inr ⟨rfl, _, rfl, hrest⟩)

theorem Scans.of_nil {n : ℕ} {echoed : Text} {tokens : List (ℕ × Text × ℕ)}
    (h : Scans n [] tokens echoed) : tokens = [] ∧ echoed = [] := by
  generalize htext : ([] : Text) = text at h
  have hmatch : ∀ {u rest : Text} {k : ℕ}, [] = u ++ rest → ¬ Munch flexRules (u ++ rest) k u := by
    intro u rest k hnil hu
    obtain ⟨rfl, rfl⟩ := List.append_eq_nil_iff.mp hnil.symm
    obtain ⟨r, hr, hm⟩ := hu.rule
    have hnull : flexRules.all (fun r => !r.nullable) = true := by decide
    have hnot := List.all_eq_true.mp hnull r (List.mem_of_getElem? hr)
    rw [nullable_iff.mpr hm] at hnot
    cases hnot
  cases h with
  | nil => exact ⟨rfl, rfl⟩
  | token hu _ _ => exact absurd hu (hmatch htext)
  | ignore hu _ _ => exact absurd hu (hmatch htext)
  | echo hu _ => exact absurd hu (hmatch htext)

/-- Every text can be scanned. -/
theorem exists_scans (n : ℕ) (text : Text) : ∃ tokens echoed, Scans n text tokens echoed := by
  induction hlen : text.length using Nat.strong_induction_on generalizing n text with
  | _ len ih =>
    by_cases htext : text = []
    · rw [htext]
      exact ⟨_, _, .nil⟩
    · have hsplit : firstText text ++ restText text = text := List.take_append_drop _ _
      have hshort := rest_shorter htext
      obtain ⟨u, rest, k, rfl, hmunch, hless, hk⟩ : ∃ u rest k, text = u ++ rest ∧
          Munch flexRules (u ++ rest) k u ∧ rest.length < len ∧ k < 9 :=
        ⟨_, _, _, hsplit.symm, by rw [hsplit]; exact bestOf_munch htext, hlen ▸ hshort,
          firstRule_lt htext⟩
      obtain hk | hk | rfl : k < 6 ∨ (k = 6 ∨ k = 7) ∨ k = 8 := by omega
      · obtain ⟨tokens, echoed, h⟩ := ih _ hless (n + u.count '\n') rest rfl
        exact ⟨_, _, .token hmunch hk h⟩
      · obtain ⟨tokens, echoed, h⟩ := ih _ hless (n + u.count '\n') rest rfl
        exact ⟨_, _, .ignore hmunch hk h⟩
      · obtain ⟨tokens, echoed, h⟩ := ih _ hless (n + u.count '\n') rest rfl
        exact ⟨_, _, .echo hmunch h⟩

/-- A text is scanned in one way. -/
theorem Scans.unique {n : ℕ} {text echoed echoed' : Text} {tokens tokens' : List (ℕ × Text × ℕ)}
    (h : Scans n text tokens echoed) (h' : Scans n text tokens' echoed') :
    tokens = tokens' ∧ echoed = echoed' := by
  induction hlen : text.length using Nat.strong_induction_on generalizing n text tokens tokens'
    echoed echoed' with
  | _ len ih =>
    by_cases htext : text = []
    · rw [htext] at h h'
      rw [h.of_nil.1, h.of_nil.2, h'.of_nil.1, h'.of_nil.2]
      exact ⟨rfl, rfl⟩
    · have hshort := rest_shorter htext
      rw [hlen] at hshort
      obtain ⟨hk, l, rfl, hl⟩ | ⟨hk, hl⟩ | ⟨hk, e, rfl, hl⟩ := h.first htext
      · obtain ⟨-, l', rfl, hl'⟩ | ⟨hk', -⟩ | ⟨hk', -⟩ := h'.first htext
        · obtain ⟨htokens, hechoed⟩ := ih _ hshort hl hl' rfl
          exact ⟨by rw [htokens], hechoed⟩
        · omega
        · omega
      · obtain ⟨hk', -⟩ | ⟨-, hl'⟩ | ⟨hk', -⟩ := h'.first htext
        · omega
        · exact ih _ hshort hl hl' rfl
        · omega
      · obtain ⟨hk', -⟩ | ⟨hk', -⟩ | ⟨-, e', rfl, hl'⟩ := h'.first htext
        · omega
        · omega
        · obtain ⟨htokens, hechoed⟩ := ih _ hshort hl hl' rfl
          exact ⟨htokens, by rw [hechoed]⟩

/-- Every token is of a rule that returns one, is spelled as the rule says, and its line is not
before the text. -/
theorem Scans.token_rule {n : ℕ} {text echoed : Text} {tokens : List (ℕ × Text × ℕ)}
    (h : Scans n text tokens echoed) : ∀ t ∈ tokens, n ≤ t.2.2 ∧
      ∃ k < 6, t.1 = k + 1 ∧ ∃ r, flexRules[k]? = some r ∧ Matches r t.2.1 := by
  induction h with
  | nil => exact List.forall_mem_nil _
  | token hu hk _ ih =>
    obtain ⟨r, hr, hm⟩ := hu.rule
    intro t ht
    obtain rfl | ht := List.mem_cons.mp ht
    · exact ⟨Nat.le_add_right _ _, _, hk, rfl, r, hr, hm⟩
    · obtain ⟨hn, hrule⟩ := ih t ht
      exact ⟨(Nat.le_add_right _ _).trans hn, hrule⟩
  | ignore _ _ _ ih =>
    intro t ht
    obtain ⟨hn, hrule⟩ := ih t ht
    exact ⟨(Nat.le_add_right _ _).trans hn, hrule⟩
  | echo _ _ ih =>
    intro t ht
    obtain ⟨hn, hrule⟩ := ih t ht
    exact ⟨(Nat.le_add_right _ _).trans hn, hrule⟩

/-! ## The scanner's lines -/

/-- Lines are counted for the rules that can end one, and the others do not match an end of line. -/
theorem lines_counted {text : Text} (htext : text ≠ []) :
    (if eolTable.getD (bestOf text).1 0 = 1 then (firstText text).count '\n' else 0) =
      (firstText text).count '\n' := by
  by_cases heol : eolTable.getD (bestOf text).1 0 = 1
  · exact if_pos heol
  · rw [if_neg heol]
    refine (List.count_eq_zero.mpr fun hmem => ?_).symm
    obtain ⟨hlow, hhigh⟩ := bestOf_action htext
    have hmunch := bestOf_munch htext
    obtain ⟨r, hr, hm⟩ := hmunch.rule
    have hlacks : ∀ k < 8, eolTable.getD (k + 1) 0 ≠ 1 →
        (flexRules[k]?.all fun r => r.lacks '\n') = true := by decide
    obtain ⟨k, hk⟩ : ∃ k, (bestOf text).1 = k + 1 := ⟨(bestOf text).1 - 1, by omega⟩
    have hrule : (bestOf text).1 - 1 = k := by omega
    rw [hk] at heol
    rw [hrule] at hr hmunch
    by_cases hdefault : k = 8
    · -- the rule of the line ends comes first
      obtain rfl := hdefault
      obtain rfl : defaultRule = r := Option.some.inj hr
      obtain ⟨c, -, hc⟩ := matches_one.mp hm
      have hc' : firstText text = [c] := hc
      rw [hc', List.mem_singleton] at hmem
      refine hmunch.first 6 (by decide) newlineRule rfl ?_
      rw [show text.take (bestOf text).2 = [c] from hc, ← hmem]
      exact .left (matches_word.mpr rfl)
    · have hlack := hlacks k (by omega) heol
      rw [hr] at hlack
      exact not_mem_of_lacks hm hlack hmem

/-! ## Calls of the scanner -/

namespace Flex

/-- These tokens are still to come, and this is echoed in the end. -/
def Lexes (s : Flex) (tokens : List (ℕ × Text × ℕ)) (out : Text) : Prop :=
  ∃ echoed, Scans s.yylineno s.text tokens echoed ∧ s.yyout ++ echoed = out

theorem text_buffer {s : Flex} {n : ℕ} (hn : n ≤ s.buffer.length) :
    s.buffer.take n = s.text.take n ∧
      s.buffer.drop n ++ s.reads.flatMap Read.bytes = s.text.drop n := by
  rw [text, List.take_append_of_le_length hn, List.drop_append_of_le_length hn]
  exact ⟨rfl, rfl⟩

/-- The buffer holds the match, so it is taken from the text, and its lines are counted. -/
theorem take_match {s s' : Flex} (hs : s.text ≠ []) (htext : s'.text = s.text)
    (hline : s'.yylineno = s.yylineno) (hle : (bestOf s.text).2 ≤ s'.buffer.length) :
    ∃ t, s'.take (bestOf s.text).1 (bestOf s.text).2 = (firstText s.text, t) ∧
      t.text = restText s.text ∧ t.yylineno = s.yylineno + (firstText s.text).count '\n' ∧
      t.yyout = s'.yyout := by
  obtain ⟨htake, hdrop⟩ := text_buffer hle
  rw [htext] at htake hdrop
  refine ⟨{ s' with
    buffer := s'.buffer.drop (bestOf s.text).2
    yylineno := s'.yylineno + (firstText s.text).count '\n' }, ?_, hdrop, by rw [hline], rfl⟩
  rw [take, htake, lines_counted hs]

/-- One match: the end of the file, or what the first rule of the text makes of it. -/
theorem yylex_step (fuel : ℕ) (s : Flex) :
    (s.text = [] ∧ ∃ s', yylex (fuel + 1) s = some (none, s') ∧ s'.yyout = s.yyout) ∨
      (s.text ≠ [] ∧ ∃ t, t.text = restText s.text ∧
        t.yylineno = s.yylineno + (firstText s.text).count '\n' ∧ t.yyout = s.yyout ∧
        yylex (fuel + 1) s =
          if firstRule s.text < 6 then some (some (firstRule s.text + 1, firstText s.text), t)
          else if firstRule s.text < 8 then yylex fuel t
          else yylex fuel { t with yyout := t.yyout ++ firstText s.text }) := by
  obtain ⟨m, s', hscan, htext, hline, hyyout, ⟨hnil, rfl⟩ | ⟨hne, rfl, hle⟩⟩ := s.scan_start
  · refine .inl ⟨hnil, s', ?_, hyyout⟩
    rw [yylex, hscan]
  · obtain ⟨t, ht, hrest, hlines, hout⟩ := take_match hne htext hline hle
    refine .inr ⟨hne, t, hrest, hlines, hout.trans hyyout, ?_⟩
    have hpos := (bestOf_action hne).1
    have hact : (bestOf s.text).1 = firstRule s.text + 1 := by
      unfold firstRule
      omega
    rw [yylex, hscan]
    simp only [ht]
    rw [hact]
    rfl

/-- A call of `yylex` returns the next token of the text, or nothing where there is none. -/
theorem yylex_spec {fuel : ℕ} {s : Flex} {tokens : List (ℕ × Text × ℕ)} {out : Text}
    (hfuel : s.text.length < fuel) (h : s.Lexes tokens out) :
    (tokens = [] ∧ ∃ s', yylex fuel s = some (none, s') ∧ s'.yyout = out) ∨
      ∃ act u n rest, tokens = (act, u, n) :: rest ∧ ∃ s', yylex fuel s = some (some (act, u), s') ∧
        s'.text.length < s.text.length ∧ s'.yylineno = n ∧ s'.Lexes rest out := by
  induction fuel generalizing s with
  | zero => exact absurd hfuel (Nat.not_lt_zero _)
  | succ fuel ih =>
    obtain ⟨echoed, hscans, hout⟩ := h
    obtain ⟨hnil, s', hlex, hyyout⟩ | ⟨hne, t, htext, hline, hyyout, hlex⟩ := yylex_step fuel s
    · rw [hnil] at hscans
      obtain ⟨rfl, rfl⟩ := hscans.of_nil
      refine .inl ⟨rfl, s', hlex, ?_⟩
      rw [hyyout, ← hout, List.append_nil]
    · have hshort := rest_shorter hne
      rw [← htext] at hshort
      have hless : t.text.length < fuel := by omega
      obtain ⟨hk, l, rfl, hrest⟩ | ⟨hk, hrest⟩ | ⟨hk, e, rfl, hrest⟩ := hscans.first hne
      · rw [hlex, if_pos hk]
        exact .inr ⟨_, _, _, l, rfl, t, rfl, hshort, hline, echoed,
          by rw [hline, htext]; exact hrest, by rw [hyyout, hout]⟩
      · rw [hlex, if_neg (by omega), if_pos (by omega)]
        obtain hend | ⟨act, u, n, l, rfl, s', hs', hshort', h⟩ :=
          ih hless ⟨echoed, by rw [hline, htext]; exact hrest, by rw [hyyout, hout]⟩
        · exact .inl hend
        · exact .inr ⟨_, _, _, l, rfl, s', hs', hshort'.trans hshort, h⟩
      · rw [hlex, if_neg (by omega), if_neg (by omega)]
        obtain hend | ⟨act, u, n, l, rfl, s', hs', hshort', h⟩ :=
          ih (s := { t with yyout := t.yyout ++ firstText s.text }) hless
            ⟨e, by rw [← htext, ← hline] at hrest; exact hrest,
              by rw [← hout, ← hyyout]; exact List.append_assoc _ _ _⟩
        · exact .inl hend
        · exact .inr ⟨_, _, _, l, rfl, s', hs', hshort'.trans hshort, h⟩

theorem tokens_spec {fuel : ℕ} {s : Flex} {tokens : List (ℕ × Text × ℕ)} {out : Text}
    (hfuel : s.text.length < fuel) (h : s.Lexes tokens out) :
    s.tokens fuel = some (tokens, out) := by
  induction fuel generalizing s tokens with
  | zero => exact absurd hfuel (Nat.not_lt_zero _)
  | succ fuel ih =>
    rw [Flex.tokens]
    obtain ⟨rfl, s', hlex, hout⟩ | ⟨act, u, n, l, rfl, s', hlex, hshort, hline, hl⟩ :=
      yylex_spec (Nat.lt_succ_self _) h
    · rw [yylexFuel, hlex, ← hout]
    · rw [yylexFuel, hlex]
      have hrest := ih (by omega) hl
      simp only [hrest, hline, Option.map_some]

theorem init_lexes {reads : List Read} {tokens : List (ℕ × Text × ℕ)} {echoed : Text}
    (h : Scans 1 (reads.flatMap Read.bytes) tokens echoed) : (init reads).Lexes tokens echoed :=
  ⟨echoed, h, rfl⟩

end Flex

/-- However the reads cut the file, the calls of `yylex` return what the rules of lex.l make of it:
each time the longest text that a rule matches, under the first rule that matches it, with the
number of its line. -/
theorem tokens_iff (reads : List Read) :
    ((Flex.init reads).tokens ((reads.flatMap Read.bytes).length + 1)).isSome = true ∧
      ∀ tokens echoed, (Flex.init reads).tokens ((reads.flatMap Read.bytes).length + 1) =
        some (tokens, echoed) ↔ Scans 1 (reads.flatMap Read.bytes) tokens echoed := by
  obtain ⟨tokens, echoed, h⟩ := exists_scans 1 (reads.flatMap Read.bytes)
  have hrun := Flex.tokens_spec (Nat.lt_succ_self _) (Flex.init_lexes h)
  refine ⟨Option.isSome_of_eq_some hrun, fun tokens' echoed' => ⟨fun heq => ?_, fun h' => ?_⟩⟩
  · obtain ⟨rfl, rfl⟩ := Prod.mk.inj (Option.some.inj (hrun.symm.trans heq))
    exact h
  · exact Flex.tokens_spec (Nat.lt_succ_self _) (Flex.init_lexes h')

end DevFramework.CmdParser
