import DevFramework.CmdParser.Tree

/-! # Building the tree

`Built c ts` relates the compiler after the tokens `ts` to the sections of `ts`: the tree holds
their items, and the cursors and the actions' variables are where the last section and the last
command of it put them. Every accepted token keeps it.
-/
namespace DevFramework.CmdParser
open Groups
set_option autoImplicit false
set_option maxHeartbeats 250000

theorem forall₂_concat {α β : Type*} {R : α → β → Prop} {l : List α} {u : List β} {a : α} {b : β} :
    List.Forall₂ R (l ++ [a]) (u ++ [b]) ↔ List.Forall₂ R l u ∧ R a b := by
  refine List.forall₂_reverse_iff.symm.trans ?_
  simp [and_comm]

/-! ## Allocating and attaching -/

namespace JfCmdParser
variable {p : JfCmdParser} {ps : List Ptr} {is : List Item}

@[simp] theorem length_alloc (n : Node) : (p.alloc n).nodes.length = p.nodes.length + 1 := by
  simp [alloc]

@[simp] theorem length_attach (parent child : Ptr) :
    (p.attach parent child).nodes.length = p.nodes.length := by
  simp [attach]

theorem alloc_new (n : Node) : (p.alloc n).nodes[p.nodes.length]? = some n := by
  simp [alloc]

theorem alloc_old (n : Node) {q : Ptr} (hq : q < p.nodes.length) :
    (p.alloc n).nodes[q]? = p.nodes[q]? := List.getElem?_append_left hq

theorem attach_self {parent : Ptr} (child : Ptr) {n : Node} (h : p.nodes[parent]? = some n) :
    (p.attach parent child).nodes[parent]? = some (n.pushChild child) := by
  simp [attach, h]

theorem attach_ne {parent q : Ptr} (child : Ptr) (h : parent ≠ q) :
    (p.attach parent child).nodes[q]? = p.nodes[q]? := List.getElem?_modify_ne _ _ h

/-! ## One operation on the tree -/

theorem tree_allocUnderRoot {n : Node} (h : Tree p.nodes ps is) {q : Ptr} (hq : q ≠ root) :
    (p.allocUnderRoot n).nodes[root]? =
      some { nodeType := .root, child := ps ++ [p.nodes.length] } ∧
    (q < p.nodes.length → (p.allocUnderRoot n).nodes[q]? = p.nodes[q]?) ∧
    (p.allocUnderRoot n).nodes[p.nodes.length]? = some n := by
  have hroot : (p.alloc n).nodes[root]? = some { nodeType := .root, child := ps } :=
    (alloc_old n h.pos).trans h.root
  have hne : root ≠ p.nodes.length := (Nat.ne_of_gt h.pos).symm
  refine ⟨attach_self _ hroot, fun hlt => ?_, ?_⟩
  · exact (attach_ne _ hq.symm).trans (alloc_old n hlt)
  · exact (attach_ne _ hne).trans (alloc_new n)

theorem tree_close (h : Tree p.nodes ps is) :
    Tree (p.allocUnderRoot closeNode).nodes (ps ++ [p.nodes.length]) (is ++ [.close]) :=
  h.grow (tree_allocUnderRoot h (q := 1) (by decide)).1
    (fun _ hq => (tree_allocUnderRoot h hq).2.1) le_rfl
    (.close (tree_allocUnderRoot h (q := 1) (by decide)).2.2)

/-- Before the first section nothing is closed; before any other the last file is. -/
theorem tree_closeLast {ss : List Section} (h : Tree p.nodes ps (items ss)) :
    ∃ ps', Tree p.closeLast.nodes ps' (opening ss) := by
  have hempty : (p.nodes[root]?.map fun n => n.child.isEmpty) = some true ↔ ss = [] := by
    rw [h.root]
    simp only [Option.map_some, Option.some.injEq, List.isEmpty_iff]
    rw [h.nil_iff]
    cases ss with
    | nil => simp [items]
    | cons s ss => simp [items, Section.items]
  unfold closeLast opening
  by_cases hss : ss = []
  · rw [if_pos (hempty.mpr hss), if_pos (List.isEmpty_iff.mpr hss)]
    subst hss
    exact ⟨ps, h⟩
  · rw [if_neg fun hc => hss (hempty.mp hc), if_neg fun hc => hss (List.isEmpty_iff.mp hc)]
    exact ⟨_, tree_close h⟩

theorem tree_setFileName {ss : List Section} (h : Tree p.nodes ps (items ss)) (name : Text) :
    (∃ ps', Tree (p.setFileName ('[' :: (name ++ [']']))).nodes ps' (opening ss ++ [.create name])) ∧
    (p.setFileName ('[' :: (name ++ [']']))).curLine = none := by
  obtain ⟨ps', h'⟩ := tree_closeLast h
  generalize hq : p.closeLast = q at h'
  have hname : (('[' :: (name ++ [']'])).drop 1).take (('[' :: (name ++ [']'])).length - 2) =
      name := by
    simp
  have hlen := h'.pos
  have hnode : ((q.alloc createNode).alloc (fileNameNode name)).nodes[q.nodes.length]? =
      some createNode := (alloc_old _ (by simp)).trans (alloc_new _)
  have hchild : ((q.alloc createNode).alloc (fileNameNode name)).nodes[q.nodes.length + 1]? =
      some (fileNameNode name) := by
    have := alloc_new (p := q.alloc createNode) (fileNameNode name)
    rwa [length_alloc] at this
  have hold : ∀ r, r < q.nodes.length →
      ((q.alloc createNode).alloc (fileNameNode name)).nodes[r]? = q.nodes[r]? := fun r hr =>
    (alloc_old (p := q.alloc createNode) _ (by
      rw [length_alloc]
      exact Nat.lt_succ_of_lt hr)).trans (alloc_old _ hr)
  have hne : root ≠ q.nodes.length := (Nat.ne_of_gt hlen).symm
  have hne' : root ≠ q.nodes.length + 1 := (Nat.succ_ne_zero _).symm
  have hcur : (((((q.alloc createNode).alloc (fileNameNode name)).attach q.nodes.length
      (q.nodes.length + 1)).attach root q.nodes.length)).nodes[q.nodes.length + 1]? =
      some (fileNameNode name) :=
    (attach_ne _ hne').trans ((attach_ne _ (Nat.ne_of_lt (Nat.lt_succ_self _))).trans hchild)
  simp only [setFileName, hq, hname, curLine]
  refine ⟨⟨ps' ++ [q.nodes.length], ?_⟩, by rw [hcur]; rfl⟩
  refine h'.grow ?_ ?_ le_rfl (.create (c := q.nodes.length + 1) ?_ hcur)
  · exact attach_self _ ((attach_ne _ hne.symm).trans ((hold _ hlen).trans h'.root))
  · intro r hr hlt
    exact (attach_ne _ hr.symm).trans ((attach_ne _ (Nat.ne_of_gt hlt)).trans (hold r hlt))
  · exact (attach_ne _ hne).trans (attach_self _ hnode)

theorem tree_setCmdName (h : Tree p.nodes ps is) {range : Text}
    (hbits : p.bits = '[' :: (range ++ [']'])) (name : Text) (line : ℕ) (sid : BitVec 32) :
    Tree (p.setCmdName (name ++ [';']) line sid).nodes (ps ++ [p.nodes.length])
      (is ++ [.write range name sid []]) ∧
    (p.setCmdName (name ++ [';']) line sid).parentNode = p.nodes.length ∧
    (p.setCmdName (name ++ [';']) line sid).curLine = some line := by
  have hrange : (p.bits.drop 1).take (p.bits.length - 2) = range := by
    rw [hbits]
    simp
  have hname : (name ++ [';']).take ((name ++ [';']).length - 1) = name := by simp
  have hlen := h.pos
  obtain ⟨hroot, -, hnode⟩ := tree_allocUnderRoot (n := writeNode range) h (q := 1) (by decide)
  have hold := fun r (hr : r ≠ root) => (tree_allocUnderRoot (n := writeNode range) h hr).2.1
  have hcount : (p.allocUnderRoot (writeNode range)).nodes.length = p.nodes.length + 1 := by
    simp [allocUnderRoot]
  have hold' : ∀ r, r < p.nodes.length + 1 → ((p.allocUnderRoot (writeNode range)).alloc
      (cmdNameNode name line sid)).nodes[r]? = (p.allocUnderRoot (writeNode range)).nodes[r]? :=
    fun r hr => alloc_old _ (by rw [hcount]; exact hr)
  have hchild : ((p.allocUnderRoot (writeNode range)).alloc
      (cmdNameNode name line sid)).nodes[p.nodes.length + 1]? =
      some (cmdNameNode name line sid) := by
    rw [← hcount]
    exact alloc_new _
  have hne : p.nodes.length ≠ root := Nat.ne_of_gt hlen
  have hcur : (((p.allocUnderRoot (writeNode range)).alloc (cmdNameNode name line sid)).attach
      p.nodes.length (p.nodes.length + 1)).nodes[p.nodes.length + 1]? =
      some (cmdNameNode name line sid) :=
    (attach_ne _ (Nat.ne_of_lt (Nat.lt_succ_self _))).trans hchild
  simp only [setCmdName, hrange, hname, curLine]
  refine ⟨?_, trivial, by rw [hcur]; rfl⟩
  refine h.grow ?_ ?_ le_rfl (.write (c := p.nodes.length + 1) ?_ hcur .nil)
  · exact (attach_ne _ hne).trans ((hold' _ (Nat.succ_pos _)).trans hroot)
  · intro r hr hlt
    exact (attach_ne _ (Nat.ne_of_gt hlt)).trans
      ((hold' r (Nat.lt_succ_of_lt hlt)).trans (hold r hr hlt))
  · exact attach_self _ ((hold' _ (Nat.lt_succ_self _)).trans hnode)

/-- A comment on the cursor's line goes to the last item, whose node is the parent cursor's. -/
theorem tree_setSingleLineComment {range name : Text} {sid : BitVec 32} {cmts : List Text}
    (h : Tree p.nodes (ps ++ [p.parentNode]) (is ++ [.write range name sid cmts])) (cmt : Text)
    {line : ℕ} (hline : p.curLine = some line) :
    Tree (p.setSingleLineComment cmt line).nodes (ps ++ [p.parentNode])
      (is ++ [.write range name sid (cmts ++ [cmt])]) ∧
    (p.setSingleLineComment cmt line).parentNode = p.parentNode ∧
    (p.setSingleLineComment cmt line).curLine = some line := by
  generalize hpar : p.parentNode = q at h
  have hall := h.holds
  rw [forall₂_concat] at hall
  obtain ⟨hps, hq⟩ := hall
  obtain ⟨n, hn, htype⟩ := hq.oper
  have hn' : (p.alloc (cmtNode cmt line)).nodes[q]? = some n := (alloc_old _ hq.lt).trans hn
  have hdata : KeepsData p.nodes ((p.alloc (cmtNode cmt line)).attach q p.nodes.length).nodes :=
    (KeepsData.append _ _).trans (.modify hn' (by rw [htype]; decide) _)
  have hnew : ((p.alloc (cmtNode cmt line)).attach q p.nodes.length).nodes[p.nodes.length]? =
      some (cmtNode cmt line) := (attach_ne _ (Nat.ne_of_lt hq.lt)).trans (alloc_new _)
  have hold : ∀ r, r ≠ q → r < p.nodes.length →
      ((p.alloc (cmtNode cmt line)).attach q p.nodes.length).nodes[r]? = p.nodes[r]? :=
    fun r hr hlt => (attach_ne _ hr.symm).trans (alloc_old _ hlt)
  have hlt := hq.lt
  have hqmem : q ∈ ps ++ [q] := List.mem_append_right ps (List.mem_singleton_self q)
  have hset : p.setSingleLineComment cmt line =
      { (p.alloc (cmtNode cmt line)).attach q p.nodes.length with curNode := p.nodes.length } := by
    rw [setSingleLineComment, if_pos hline, hpar]
  rw [hset, curLine]
  refine ⟨⟨(hold _ (h.ne_root hqmem).symm h.pos).trans h.root, h.nodup, ?_⟩, hpar, by
    rw [hnew]; rfl⟩
  rw [forall₂_concat]
  refine ⟨?_, ?_⟩
  · -- the other items do not have node `q`
    have hmem := (List.forall₂_and_left ps is).mpr ⟨fun r hr => hr, hps⟩
    refine List.Forall₂.imp ?_ hmem
    rintro r j ⟨hr, hj⟩
    refine hj.frame hdata (hold r ?_ hj.lt)
    rintro rfl
    exact (List.nodup_append.mp h.nodup).2.2 r hr r (List.mem_singleton_self r) rfl
  · cases hq with
    | @write c cs _ _ _ _ _ hnode hchild hrest =>
      have hnode' : ((p.alloc (cmtNode cmt line)).attach q p.nodes.length).nodes[q]? =
          some { writeNode range with child := c :: (cs ++ [p.nodes.length]) } :=
        attach_self _ ((alloc_old _ hlt).trans hnode)
      refine .write hnode' (hdata _ _ hchild rfl) ?_
      exact List.rel_append (hdata.cmts hrest) (.cons ⟨line, hnew⟩ .nil)

/-- A comment on another line is dropped. -/
theorem setSingleLineComment_other (cmt : Text) {line : ℕ} (h : p.curLine ≠ some line) :
    p.setSingleLineComment cmt line = p := if_neg h

end JfCmdParser

/-! ## The invariant -/

/-- The actions' variables in a section whose tokens so far are `body`. -/
structure InSection (c : Compiler) (body : List Token) : Prop where
  index : c.cmdIdx = BitVec.ofNat 32 (groups Token.cmdName? body).length
  named : c.stage = 2 →
    body.findSome? Token.takeBits? = none ∧ groups Token.cmdName? body = []
  ranged : c.stage = 3 → ∃ b, body.findSome? Token.takeBits? = some b ∧
    c.parser.bits = '[' :: (rangeText b.1 b.2 ++ [']'])

/-- Where the cursors are: on no line before the first command of a section, and on the line of its
last command after that. -/
inductive Cursors (c : Compiler) (ps : List Ptr) : List (Text × List Token) → Prop where
  | before (stage : c.stage = 1) (line : c.parser.curLine = none) : Cursors c ps []
  | opened {gs : List (Text × List Token)} {name : Text} {body : List Token}
      (inside : InSection c body) (cmds : groups Token.cmdName? body = [])
      (line : c.parser.curLine = none) : Cursors c ps (gs ++ [(name, body)])
  | command {gs : List (Text × List Token)} {name : Text} {body after : List Token}
      {cs : List ((Text × ℕ) × List Token)} {cmd : Text} {line : ℕ} {ps₀ : List Ptr}
      (inside : InSection c body)
      (cmds : groups Token.cmdName? body = cs ++ [((cmd, line), after)])
      (cur : c.parser.curLine = some line) (parent : ps = ps₀ ++ [c.parser.parentNode])
      (treat : c.treatAsSiglelineCmt = if after.any (Token.isBlockOn line) then 0 else line) :
      Cursors c ps (gs ++ [(name, body)])

/-- The sections with commands have a range. -/
def Ranged (ss : List Section) : Prop := ∀ s ∈ ss, s.commands ≠ [] → ∃ b, s.range = some b

/-- Every command is in a section. -/
def AllIn (ts : List Token) : Prop :=
  (groups Token.fileName? ts).flatMap (fun g => g.2.filterMap Token.cmdName?) =
    ts.filterMap Token.cmdName?

structure Built (c : Compiler) (ts : List Token) : Prop where
  tree : ∃ ps, Tree c.parser.nodes ps (items (sections ts)) ∧
    Cursors c ps (groups Token.fileName? ts)
  ranged : Ranged (sections ts)
  all : AllIn ts

theorem built_init : Built .init [] := by
  refine ⟨⟨[], ⟨rfl, List.nodup_nil, .nil⟩, .before rfl rfl⟩, ?_, rfl⟩
  intro s hs
  cases hs

theorem AllIn.marker {ts : List Token} {t : Token} {name : Text} (h : AllIn ts)
    (ht : t.fileName? = some name) : AllIn (ts ++ [t]) := by
  have hcmd : t.cmdName? = none := by
    unfold Token.fileName? at ht
    split at ht
    · rename_i hlex
      simp [Token.cmdName?, hlex]
    · cases ht
  rw [AllIn, groups_append_marker ts ht, List.flatMap_append, h]
  simp [hcmd]

theorem AllIn.other {ts : List Token} {t : Token} (h : AllIn ts) (ht : t.fileName? = none)
    (hin : t.cmdName? = none ∨ groups Token.fileName? ts ≠ []) : AllIn (ts ++ [t]) := by
  rw [AllIn] at h ⊢
  rcases List.eq_nil_or_concat (groups Token.fileName? ts) with hnil | ⟨gs, ⟨name, body⟩, hg⟩
  · have hcmd : t.cmdName? = none := hin.resolve_right fun hne => hne hnil
    rw [hnil] at h
    rw [groups_append_none ht hnil, List.filterMap_append, ← h]
    simp [hcmd]
  · rw [List.concat_eq_append] at hg
    rw [hg] at h
    rw [groups_append_last ht hg, List.filterMap_append, ← h]
    simp

/-! ## Tokens that start nothing -/

/-- A comment or an `INDEX`. -/
structure Token.Neutral (t : Token) : Prop where
  file : t.fileName? = none
  bits : t.takeBits? = none
  cmd : t.cmdName? = none

/-- The effect of such a token: at most a comment attached at the cursor. -/
structure Comments (c : Compiler) (t : Token) (c' : Compiler) : Prop where
  stage : c'.stage = c.stage ∨ c'.stage = 1
  index : c'.cmdIdx = c.cmdIdx
  bits : c'.parser.bits = c.parser.bits
  nowhere : c.parser.curLine = none → c'.parser = c.parser
  here : ∀ line block, c.parser.curLine = some line →
    (c.treatAsSiglelineCmt = if block then 0 else line) →
    (c'.parser = match t.commentOn line block with
      | some cmt => c.parser.setSingleLineComment cmt line
      | none => c.parser) ∧
    c'.treatAsSiglelineCmt = if block || t.isBlockOn line then 0 else line

theorem setSingleLineComment_bits (p : JfCmdParser) (cmt : Text) (line : ℕ) :
    (p.setSingleLineComment cmt line).bits = p.bits := by
  unfold JfCmdParser.setSingleLineComment
  split <;> rfl

theorem comments_sgline {c : Compiler} {t : Token} {text : Text}
    (ht : t.lexeme = .sglineCmt text) :
    Comments c t (c.processSingleLineComment text t.yylineno) := by
  refine ⟨.inl rfl, rfl, setSingleLineComment_bits _ _ _, fun hnone => ?_, ?_⟩
  · exact JfCmdParser.setSingleLineComment_other _ (by simp [hnone])
  · intro line block hcur htreat
    have hblock : t.isBlockOn line = false := by simp [Token.isBlockOn, ht]
    refine ⟨?_, by rw [hblock, Bool.or_false]; exact htreat⟩
    by_cases hline : t.yylineno = line
    · simp [Token.commentOn, hline, ht, Compiler.processSingleLineComment]
    · have hother : c.parser.curLine ≠ some t.yylineno := by
        rw [hcur]
        exact fun h => hline (Option.some.inj h).symm
      simp only [Token.commentOn, if_neg hline]
      exact JfCmdParser.setSingleLineComment_other _ hother

theorem comments_global {c : Compiler} {t : Token} {text : Text}
    (ht : t.lexeme = .globalCmt text) :
    Comments c t (c.processGlobalComment text t.yylineno) := by
  have hpos := t.pos
  unfold Compiler.processGlobalComment
  refine ⟨?_, ?_, ?_, fun hnone => ?_, ?_⟩
  · split <;> exact .inl rfl
  · split <;> rfl
  · split
    · exact setSingleLineComment_bits _ _ _
    · rfl
  · split
    · exact JfCmdParser.setSingleLineComment_other _ (by simp [hnone])
    · rfl
  · intro line block hcur htreat
    by_cases hline : t.yylineno = line
    · have hblock : t.isBlockOn line = true := by simp [Token.isBlockOn, ht, hline]
      cases block with
      | true =>
        have hne : c.treatAsSiglelineCmt ≠ t.yylineno := by
          rw [htreat, if_pos rfl]
          omega
        rw [if_neg hne]
        exact ⟨by simp [Token.commentOn, hline, ht], htreat⟩
      | false =>
        have heq : c.treatAsSiglelineCmt = t.yylineno := by
          rw [htreat, if_neg Bool.false_ne_true, hline]
        rw [if_pos heq, hblock]
        exact ⟨by simp [Token.commentOn, hline, ht, Compiler.processSingleLineComment], rfl⟩
    · have hblock : t.isBlockOn line = false := by simp [Token.isBlockOn, ht, hline]
      have hne : c.treatAsSiglelineCmt ≠ t.yylineno := by
        rw [htreat]
        split <;> omega
      rw [if_neg hne, hblock, Bool.or_false]
      exact ⟨by simp [Token.commentOn, hline], htreat⟩

theorem comments_index (c : Compiler) {t : Token} {number : Digits}
    (ht : t.lexeme = .index number) : Comments c t c.processIndex := by
  refine ⟨.inr rfl, rfl, rfl, fun _ => rfl, fun line block hcur htreat => ⟨?_, ?_⟩⟩
  · have hcmt : t.commentOn line block = none := by simp [Token.commentOn, ht]
    rw [hcmt]
    rfl
  · have hblock : t.isBlockOn line = false := by simp [Token.isBlockOn, ht]
    rw [hblock, Bool.or_false]
    exact htreat

/-! ## What a token does to the sections -/

section Tokens
variable {ts body : List Token} {t : Token} {gs : List (Text × List Token)} {name : Text}

theorem sections_last (hts : groups Token.fileName? ts = gs ++ [(name, body)]) :
    sections ts = gs.map sectionOf ++ [sectionOf (name, body)] := by
  simp [sections, hts]

/-- Only the last section changes. -/
theorem ranged_last (h : Ranged (sections ts))
    (hts : groups Token.fileName? ts = gs ++ [(name, body)]) {s : Section}
    (hs : s.commands ≠ [] → ∃ b, s.range = some b) : Ranged (gs.map sectionOf ++ [s]) := by
  intro s' hs'
  rcases List.mem_append.mp hs' with hs' | hs'
  · apply h s'
    rw [sections_last hts]
    exact List.mem_append_left _ hs'
  · rw [List.mem_singleton.mp hs']
    exact hs

theorem findSome_append (ht : t.takeBits? = none) :
    (body ++ [t]).findSome? Token.takeBits? = body.findSome? Token.takeBits? := by
  simp [List.findSome?_append, ht]

end Tokens

theorem Built.neutral {c c' : Compiler} {ts : List Token} {t : Token} (h : Built c ts)
    (ht : t.Neutral) (hc : Comments c t c') : Built c' (ts ++ [t]) := by
  obtain ⟨⟨ps, htree, hcur⟩, hranged, hall⟩ := h
  have hall' := hall.other ht.file (.inl ht.cmd)
  have hin : ∀ {body : List Token}, InSection c body →
      (groups Token.cmdName? (body ++ [t])).length = (groups Token.cmdName? body).length →
      (groups Token.cmdName? body = [] → groups Token.cmdName? (body ++ [t]) = []) →
      InSection c' (body ++ [t]) := by
    intro body hin hlen hnil
    refine ⟨by rw [hc.index, hin.index, hlen], fun h2 => ?_, fun h3 => ?_⟩
    · have h2' : c.stage = 2 := by
        rcases hc.stage with h | h <;> omega
      obtain ⟨hbits, hcmds⟩ := hin.named h2'
      exact ⟨(findSome_append ht.bits).trans hbits, hnil hcmds⟩
    · have h3' : c.stage = 3 := by
        rcases hc.stage with h | h <;> omega
      obtain ⟨b, hbits, htext⟩ := hin.ranged h3'
      exact ⟨b, (findSome_append ht.bits).trans hbits, hc.bits.trans htext⟩
  generalize hg : groups Token.fileName? ts = g at hcur
  cases hcur with
  | before hstage hline =>
    have hg' := groups_append_none ht.file hg
    have hsec : sections (ts ++ [t]) = sections ts := by simp [sections, hg, hg']
    refine ⟨⟨ps, ?_, ?_⟩, hsec ▸ hranged, hall'⟩
    · rw [hc.nowhere hline, hsec]
      exact htree
    · rw [hg']
      refine .before ?_ (by rw [hc.nowhere hline]; exact hline)
      rcases hc.stage with h | h
      · exact h.trans hstage
      · exact h
  | @opened gs name body hinside hcmds hline =>
    have hg' := groups_append_last ht.file hg
    have hcmds' := groups_append_none ht.cmd hcmds
    have hlast : sectionOf (name, body ++ [t]) = sectionOf (name, body) := by
      simp [sectionOf, findSome_append ht.bits, hcmds, hcmds']
    have hsec : sections (ts ++ [t]) = sections ts := by
      rw [sections_last hg', hlast, ← sections_last hg]
    refine ⟨⟨ps, ?_, ?_⟩, hsec ▸ hranged, hall'⟩
    · rw [hc.nowhere hline, hsec]
      exact htree
    · rw [hg']
      exact .opened (hin hinside (by rw [hcmds, hcmds']) fun _ => hcmds') hcmds'
        (by rw [hc.nowhere hline]; exact hline)
  | @command gs name body after cs cmd line ps₀ hinside hcmds hline hparent htreat =>
    have hg' := groups_append_last ht.file hg
    have hcmds' := groups_append_last ht.cmd hcmds
    obtain ⟨hparser, htreat'⟩ := hc.here line (after.any (Token.isBlockOn line)) hline htreat
    have hinside' : InSection c' (body ++ [t]) := by
      refine hin hinside (by simp [hcmds, hcmds']) fun hnil => ?_
      rw [hcmds] at hnil
      simp at hnil
    have hany : (after ++ [t]).any (Token.isBlockOn line) =
        (after.any (Token.isBlockOn line) || t.isBlockOn line) := by
      simp
    rw [← hany] at htreat'
    -- the last command's comments are the only part of the sections that changes
    let base : Section := { sectionOf (name, body) with commands := cs.map commandOf }
    have hold : items (sections ts) = opening (gs.map sectionOf) ++ base.items ++
        [base.item base.commands.length ⟨cmd, attached line false after⟩] := by
      rw [sections_last hg, items_append, List.append_assoc, ← base.items_append_command]
      simp [base, sectionOf, hcmds, commandOf]
    have hnew : items (sections (ts ++ [t])) = opening (gs.map sectionOf) ++ base.items ++
        [base.item base.commands.length ⟨cmd, attached line false after ++
          (t.commentOn line (after.any (Token.isBlockOn line))).toList⟩] := by
      rw [sections_last hg', items_append, List.append_assoc, ← base.items_append_command]
      simp [base, sectionOf, hcmds', commandOf, findSome_append ht.bits, attached_append]
    rw [hold, hparent] at htree
    have hranged' : Ranged (sections (ts ++ [t])) := by
      rw [sections_last hg']
      refine ranged_last hranged hg fun _ => ?_
      obtain ⟨b, hb⟩ := hranged (sectionOf (name, body))
        (by rw [sections_last hg]; exact List.mem_append_right _ (List.mem_singleton_self _))
        (by simp [sectionOf, hcmds])
      exact ⟨b, (findSome_append ht.bits).trans hb⟩
    refine ⟨?_, hranged', hall'⟩
    rw [hnew, hg']
    refine ⟨ps₀ ++ [c.parser.parentNode], ?_⟩
    cases hcmt : t.commentOn line (after.any (Token.isBlockOn line)) with
    | none =>
      rw [hcmt] at hparser
      simp only at hparser
      rw [hparser, Option.toList_none, List.append_nil]
      exact ⟨htree, .command hinside' hcmds' (by rw [hparser]; exact hline) (by rw [hparser])
        htreat'⟩
    | some cmt =>
      rw [hcmt] at hparser
      simp only at hparser
      obtain ⟨htree', hparent', hline'⟩ :=
        JfCmdParser.tree_setSingleLineComment htree cmt hline
      rw [hparser]
      exact ⟨htree', .command hinside' hcmds' (by rw [hparser]; exact hline')
        (by rw [hparser, hparent']) htreat'⟩

/-! ## Tokens that start something -/

section Starts
variable {c c' : Compiler} {ts : List Token} {t : Token}

theorem Built.fileName (h : Built c ts) {name : SeriesName} (ht : t.lexeme = .fileName name) :
    Built (c.processCreateNewFile t.lexeme.text) (ts ++ [t]) := by
  obtain ⟨⟨ps, htree, -⟩, hranged, hall⟩ := h
  have hfile : t.fileName? = some name.chars := by simp [Token.fileName?, ht]
  have hg := groups_append_marker ts hfile
  have hsec : sections (ts ++ [t]) = sections ts ++ [⟨name.chars, none, []⟩] := by
    simp [sections, hg, sectionOf, groups]
  obtain ⟨⟨ps', htree'⟩, hline⟩ := JfCmdParser.tree_setFileName htree name.chars
  refine ⟨⟨ps', ?_, ?_⟩, ?_, hall.marker hfile⟩
  · rw [hsec, items_append, ht]
    exact htree'
  · rw [hg, ht]
    refine .opened ⟨rfl, fun _ => ⟨rfl, rfl⟩, fun h => ?_⟩ rfl hline
    cases h
  · rw [hsec]
    intro s hs
    rcases List.mem_append.mp hs with hs | hs
    · exact hranged s hs
    · rw [List.mem_singleton.mp hs]
      exact fun h => absurd rfl h

theorem Built.takeBits (h : Built c ts) {left right : Digits}
    (ht : t.lexeme = .takeBits left right) (hs : c.processTakeBits t.lexeme.text = some c') :
    Built c' (ts ++ [t]) := by
  obtain ⟨⟨ps, htree, hcur⟩, hranged, hall⟩ := h
  unfold Compiler.processTakeBits at hs
  split at hs
  · cases hs
  rename_i hstage
  rw [not_not] at hstage
  cases hs
  have hfile : t.fileName? = none := by simp [Token.fileName?, ht]
  have hcmd : t.cmdName? = none := by simp [Token.cmdName?, ht]
  generalize hg : groups Token.fileName? ts = g at hcur
  cases hcur with
  | before h1 _ => omega
  | @opened gs name body hinside hcmds hline =>
    have hg' := groups_append_last hfile hg
    have hcmds' := groups_append_none hcmd hcmds
    have hbits : (body ++ [t]).findSome? Token.takeBits? = some (left, right) := by
      simp [List.findSome?_append, (hinside.named hstage).1, Token.takeBits?, ht]
    refine ⟨⟨ps, ?_, ?_⟩, ?_, hall.other hfile (.inl hcmd)⟩
    · have hitems : (sectionOf (name, body ++ [t])).items = (sectionOf (name, body)).items := by
        simp [Section.items, sectionOf, hcmds, hcmds']
      rw [sections_last hg', items_append, hitems, ← items_append, ← sections_last hg]
      exact htree
    · rw [hg']
      refine .opened ⟨?_, fun h2 => ?_, fun _ => ⟨_, hbits, by rw [ht]; rfl⟩⟩ hcmds' hline
      · rw [hcmds', ← hcmds]
        exact hinside.index
      · simp only [hstage] at h2
        omega
    · rw [sections_last hg']
      exact ranged_last hranged hg fun _ => ⟨_, hbits⟩
  | command hinside hcmds _ _ _ =>
    have hnil := (hinside.named hstage).2
    rw [hcmds] at hnil
    simp at hnil

theorem Built.cmdName (h : Built c ts) {id : CmdIdent} {spaces : ℕ}
    (ht : t.lexeme = .cmdName id spaces)
    (hs : c.processCmd t.lexeme.text t.yylineno = some c') : Built c' (ts ++ [t]) := by
  obtain ⟨⟨ps, htree, hcur⟩, hranged, hall⟩ := h
  unfold Compiler.processCmd at hs
  split at hs
  · cases hs
  rename_i hstage
  rw [not_not] at hstage
  cases hs
  have hfile : t.fileName? = none := by simp [Token.fileName?, ht]
  have hnobits : t.takeBits? = none := by simp [Token.takeBits?, ht]
  have hcmd : t.cmdName? = some (id.chars ++ List.replicate spaces ' ', t.yylineno) := by
    simp [Token.cmdName?, ht]
  have htext : t.lexeme.text = (id.chars ++ List.replicate spaces ' ') ++ [';'] := by
    simp [ht, Lexeme.text]
  obtain ⟨gs, name, body, hg, hinside⟩ : ∃ gs name body,
      groups Token.fileName? ts = gs ++ [(name, body)] ∧ InSection c body := by
    generalize hg : groups Token.fileName? ts = g at hcur
    cases hcur with
    | before h1 _ => omega
    | opened hinside _ _ => exact ⟨_, _, _, rfl, hinside⟩
    | command hinside _ _ _ _ => exact ⟨_, _, _, rfl, hinside⟩
  obtain ⟨b, hrange, hbits⟩ := hinside.ranged hstage
  have hg' := groups_append_last hfile hg
  have hcmds := groups_append_marker body hcmd
  have hsec : sectionOf (name, body ++ [t]) = { sectionOf (name, body) with
      commands := (sectionOf (name, body)).commands ++
        [⟨id.chars ++ List.replicate spaces ' ', []⟩] } := by
    simp [sectionOf, findSome_append hnobits, hcmds, commandOf, attached]
  have hnew : items (sections (ts ++ [t])) = items (sections ts) ++
      [.write (rangeText b.1 b.2) (id.chars ++ List.replicate spaces ' ') c.cmdIdx []] := by
    rw [sections_last hg', items_append, hsec, Section.items_append_command, ← List.append_assoc,
      ← items_append, ← sections_last hg, hinside.index]
    simp [Section.item, Section.rangeText, sectionOf, hrange]
  obtain ⟨htree', hparent, hline⟩ := JfCmdParser.tree_setCmdName htree hbits
    (id.chars ++ List.replicate spaces ' ') t.yylineno c.cmdIdx
  refine ⟨⟨ps ++ [c.parser.nodes.length], ?_, ?_⟩, ?_, hall.other hfile (.inr (by simp [hg]))⟩
  · rw [hnew, htext]
    exact htree'
  · rw [hg']
    refine .command ⟨?_, fun h2 => ?_, fun _ => ⟨b, ?_, hbits⟩⟩ hcmds (by rw [htext]; exact hline)
      (by rw [htext, hparent]) rfl
    · simp only [hcmds, hinside.index, List.length_append, List.length_singleton,
        BitVec.ofNat_add]
      rfl
    · simp only at h2
      omega
    · exact (findSome_append hnobits).trans hrange
  · rw [sections_last hg']
    exact ranged_last hranged hg fun _ => ⟨b, (findSome_append hnobits).trans hrange⟩

end Starts

/-! ## Every token -/

theorem built_step {c c' : Compiler} {ts : List Token} {t : Token} (h : Built c ts)
    (hs : c.command t = some c') : Built c' (ts ++ [t]) := by
  unfold Compiler.command at hs
  split at hs <;> rename_i ht
  · cases hs
    refine h.neutral ⟨?_, ?_, ?_⟩ (by rw [ht]; exact comments_global ht) <;>
      simp [Token.fileName?, Token.takeBits?, Token.cmdName?, ht]
  · cases hs
    refine h.neutral ⟨?_, ?_, ?_⟩ (by rw [ht]; exact comments_sgline ht) <;>
      simp [Token.fileName?, Token.takeBits?, Token.cmdName?, ht]
  · cases hs
    refine h.neutral ⟨?_, ?_, ?_⟩ (comments_index c ht) <;>
      simp [Token.fileName?, Token.takeBits?, Token.cmdName?, ht]
  · cases hs
    exact h.fileName ht
  · exact h.takeBits ht hs
  · exact h.cmdName ht hs

/-- An accepted definition leaves the tree of its sections. -/
theorem built_compile {ts : List Token} {c : Compiler} (h : compile ts = some c) : Built c ts := by
  suffices hall : ∀ ts₀ c₀, Built c₀ ts₀ →
      Transition.run Compiler.command c₀ ts = some c → Built c (ts₀ ++ ts) from
    hall [] .init built_init h
  clear h
  induction ts with
  | nil =>
    intro ts₀ c₀ h₀ hrun
    obtain rfl : c₀ = c := Option.some.inj hrun
    rw [List.append_nil]
    exact h₀
  | cons t ts ih =>
    intro ts₀ c₀ h₀ hrun
    obtain ⟨c₁, hs, hrest⟩ := Option.bind_eq_some_iff.mp hrun
    have := ih (ts₀ ++ [t]) c₁ (built_step h₀ hs) hrest
    rwa [List.append_assoc] at this

end DevFramework.CmdParser
