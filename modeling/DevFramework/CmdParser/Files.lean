import DevFramework.CmdParser.Draining
import DevFramework.CmdParser.Ranges

/-! # The files of a definition

A definition with sections gives one file a section, opened, written and closed before the next one
is opened: its header, a line a command, its ending. One without sections reads `file_` before
anything has set it.
-/
namespace DevFramework.CmdParser
set_option autoImplicit false
set_option maxHeartbeats 250000

/-! ## What a file is to hold -/

/-- A command's request line and response line, then its comments, then the end of the line. -/
def Section.line (tgt : TargetOutput) (s : Section) (i : ℕ) (c : Command) : Text :=
  constantText tgt (s.constant tgt i c) ++ c.comments.flatMap (fun cmt => '\t' :: tgt.trans cmt) ++
    crlf

/-- The section's file, whose header is written on this date. -/
def Section.content (tgt : TargetOutput) (s : Section) (date : Text) : Text :=
  tgt.header s.name date ++ (s.commands.mapIdx (s.line tgt)).flatten ++ tgt.ending

def Section.constants (tgt : TargetOutput) (s : Section) : List Constant :=
  s.commands.mapIdx (s.constant tgt)

/-- The section's file once it is closed; it is the `k`-th file that is opened. -/
def Section.file (env : Env) (tgt : TargetOutput) (k : ℕ) (s : Section) : OutFile :=
  ⟨s.name ++ tgt.extension, s.content tgt (env.yearMonthDay k), 1⟩

/-! ## The open file -/

/-- The writer whose last file is open and holds this text. -/
def Writer.opened (fs : List OutFile) (name content : Text) (es : List Constant) : Writer :=
  ⟨some fs.length, fs ++ [⟨name, content, 0⟩], es⟩

theorem modify_last {α : Type*} (l : List α) (a : α) (f : α → α) :
    (l ++ [a]).modify l.length f = l ++ [f a] := by
  induction l with
  | nil => rfl
  | cons x l ih => simp [ih]

section Opened
variable {tgt : TargetOutput} {fs : List OutFile} {name content : Text} {es : List Constant}

theorem fwrite_opened (text : Text) :
    (Writer.opened fs name content es).fwrite text =
      .ok (Writer.opened fs name (content ++ text) es) := by
  simp [Writer.fwrite, Writer.opened, modify_last]

theorem close_opened :
    (Writer.opened fs name content es).close tgt =
      .ok ⟨some fs.length, fs ++ [⟨name, content ++ tgt.ending, 1⟩], es⟩ := by
  rw [Writer.close, fwrite_opened]
  simp [Except.bind, Writer.fclose, Writer.opened, modify_last]

theorem create_opened {env : Env} (hopen : env.fopen (name ++ tgt.extension) = true) {w : Writer}
    (hname : name ≠ []) :
    w.create env tgt name = .ok (Writer.opened w.files (name ++ tgt.extension)
      (tgt.header name (env.yearMonthDay w.files.length)) w.emitted) := by
  have hfopen : w.fopen (name ++ tgt.extension) =
      Writer.opened w.files (name ++ tgt.extension) [] w.emitted := rfl
  have hne : name.isEmpty = false := by simpa using hname
  simp only [Writer.create, hne, hopen, if_true, Bool.false_eq_true, if_false]
  split
  · rename_i hempty
    rw [hfopen, List.isEmpty_iff.mp hempty]
  · rw [hfopen, fwrite_opened, List.nil_append]

end Opened

/-! ## Running the items of a section -/

/-- The outcome is this one, or an abort because a command is out of range. -/
def Yields (r : Result Writer) (w : Writer) : Prop :=
  r = .ok w ∨ ∃ w', r = .error ⟨.outOfRange, w'⟩

theorem Yields.bind {r : Result Writer} {w w' : Writer} {f : Writer → Result Writer}
    (h : Yields r w) (hf : Yields (f w) w') : Yields (r.bind f) w' := by
  rcases h with rfl | ⟨w₁, rfl⟩
  · exact hf
  · exact .inr ⟨w₁, rfl⟩

theorem drainItems_append (env : Env) (tgt : TargetOutput) (w : Writer) (is js : List Item) :
    drainItems env tgt w (is ++ js) =
      (drainItems env tgt w is).bind fun w => drainItems env tgt w js := by
  induction is generalizing w with
  | nil => rfl
  | cons i is ih =>
    simp only [List.cons_append, drainItems]
    cases itemStep env tgt w i with
    | error e => rfl
    | ok w₁ => exact ih w₁

theorem foldl_cmtText (tgt : TargetOutput) (cmts : List Text) (finLine : Text) :
    cmts.foldl (fun finLine cmt => cmtText tgt cmt finLine) finLine =
      finLine ++ cmts.flatMap fun cmt => '\t' :: tgt.trans cmt := by
  induction cmts generalizing finLine with
  | nil => simp
  | cons cmt cmts ih =>
    rw [List.foldl_cons, ih, List.flatMap_cons, cmtText]
    simp

section Running
variable (env : Env) (tgt : TargetOutput) (fs : List OutFile) (name : Text) {s : Section}

theorem command_run {b : Digits × Digits} (hb : s.range = some b) (i : ℕ) (c : Command)
    (content : Text) (es : List Constant) :
    itemStep env tgt (Writer.opened fs name content es) (s.item i c) =
      if s.endCmd.slt (s.startCmd + BitVec.ofNat 32 i) then
        .error ⟨.outOfRange, Writer.opened fs name content es⟩
      else .ok (Writer.opened fs name (content ++ s.line tgt i c) (es ++ [s.constant tgt i c])) := by
  have hout : s.endCmd.slt (s.constant tgt i c).request =
      s.endCmd.slt (s.startCmd + BitVec.ofNat 32 i) := rfl
  simp only [itemStep, Section.item, cmdText_eq tgt hb, hout]
  by_cases hslt : s.endCmd.slt (s.startCmd + BitVec.ofNat 32 i) = true
  · rw [if_pos hslt, if_pos hslt]
    rfl
  · rw [if_neg hslt, if_neg hslt]
    simp only [Except.bind, foldl_cmtText, List.nil_append, Writer.writeLine]
    exact fwrite_opened _

/-- The open file after the section's first `k` commands. -/
def Section.written (s : Section) (k : ℕ) (content : Text) (es : List Constant) : Writer :=
  Writer.opened fs name (content ++ ((s.commands.take k).mapIdx (s.line tgt)).flatten)
    (es ++ (s.commands.take k).mapIdx (s.constant tgt))

theorem Section.written_succ {k : ℕ} (hk : k < s.commands.length) (content : Text)
    (es : List Constant) :
    s.written tgt fs name (k + 1) content es = Writer.opened fs name
      (content ++ ((s.commands.take k).mapIdx (s.line tgt)).flatten ++ s.line tgt k s.commands[k])
      (es ++ (s.commands.take k).mapIdx (s.constant tgt) ++ [s.constant tgt k s.commands[k]]) := by
  rw [Section.written, List.take_add_one, List.getElem?_eq_getElem hk]
  simp only [Option.toList_some, List.mapIdx_concat, List.length_take, Nat.min_eq_left hk.le,
    List.flatten_concat, ← List.append_assoc]

/-- The commands are written up to the first that is out of range. -/
theorem commands_run (hb : s.commands ≠ [] → ∃ b, s.range = some b) (content : Text)
    (es : List Constant) (k : ℕ) (hk : k ≤ s.commands.length) :
    drainItems env tgt (Writer.opened fs name content es) ((s.commands.take k).mapIdx s.item) =
      if k ≤ s.reach then .ok (s.written tgt fs name k content es)
      else .error ⟨.outOfRange, s.written tgt fs name s.reach content es⟩ := by
  induction k with
  | zero => simp [drainItems, Section.written]
  | succ k ih =>
    have hlt : k < s.commands.length := hk
    obtain ⟨b, hb⟩ := hb (List.ne_nil_of_length_pos (by omega))
    rw [List.take_add_one, List.getElem?_eq_getElem hlt]
    simp only [Option.toList_some, List.mapIdx_concat, List.length_take, Nat.min_eq_left hlt.le,
      drainItems_append, ih hlt.le]
    by_cases hreach : k ≤ s.reach
    · rw [if_pos hreach]
      simp only [Except.bind, drainItems]
      by_cases hnext : k + 1 ≤ s.reach
      · rw [if_pos hnext, Section.written_succ tgt fs name hlt, Section.written,
          command_run env tgt fs name hb, Section.in_of_lt_reach hnext]
        rfl
      · obtain rfl : k = s.reach := by omega
        rw [if_neg hnext, Section.written, command_run env tgt fs name hb, Section.out_at_reach hlt]
        rfl
    · rw [if_neg hreach, if_neg (by omega)]
      rfl

/-- A section that opens its file: it is one more file, or the run ends in the middle of it. -/
theorem section_run (hname : s.name ≠ []) (hopen : env.fopen (s.name ++ tgt.extension) = true)
    (hb : s.commands ≠ [] → ∃ b, s.range = some b) (w : Writer) :
    drainItems env tgt w (s.items ++ [.close]) =
      if s.reach = s.commands.length then
        .ok ⟨some w.files.length, w.files ++ [s.file env tgt w.files.length],
          w.emitted ++ s.constants tgt⟩
      else .error ⟨.outOfRange, s.written tgt w.files (s.name ++ tgt.extension) s.reach
        (tgt.header s.name (env.yearMonthDay w.files.length)) w.emitted⟩ := by
  have hcmds := commands_run env tgt w.files (s.name ++ tgt.extension) hb
    (tgt.header s.name (env.yearMonthDay w.files.length)) w.emitted s.commands.length le_rfl
  rw [List.take_length] at hcmds
  simp only [Section.items, List.cons_append, drainItems, itemStep, create_opened hopen hname]
  rw [Except.bind, drainItems_append, hcmds]
  by_cases hreach : s.reach = s.commands.length
  · rw [if_pos hreach, if_pos hreach.ge]
    simp only [Except.bind, drainItems, itemStep, Section.written, close_opened, List.take_length]
    rfl
  · have hle := s.reach_le
    rw [if_neg hreach, if_neg (by omega)]
    rfl

theorem sections_yield (hopen : ∀ fn, env.fopen fn = true) {ss : List Section}
    (hnames : ∀ s ∈ ss, s.name ≠ []) (hb : Ranged ss) (w : Writer) :
    ∃ file, Yields (drainItems env tgt w (ss.flatMap fun s => s.items ++ [.close]))
      ⟨file, w.files ++ ss.mapIdx (fun i s => s.file env tgt (w.files.length + i)),
        w.emitted ++ ss.flatMap (Section.constants tgt)⟩ := by
  induction ss generalizing w with
  | nil => exact ⟨w.file, .inl (by simp [drainItems])⟩
  | cons s ss ih =>
    have hone : Yields (drainItems env tgt w (s.items ++ [.close]))
        ⟨some w.files.length, w.files ++ [s.file env tgt w.files.length],
          w.emitted ++ s.constants tgt⟩ := by
      rw [section_run env tgt (hnames s List.mem_cons_self) (hopen _) (hb s List.mem_cons_self) w]
      split
      · exact .inl rfl
      · exact .inr ⟨_, rfl⟩
    obtain ⟨file, hrest⟩ := ih (fun s' hs' => hnames s' (List.mem_cons_of_mem s hs'))
      (fun s' hs' => hb s' (List.mem_cons_of_mem s hs'))
      ⟨some w.files.length, w.files ++ [s.file env tgt w.files.length],
        w.emitted ++ s.constants tgt⟩
    refine ⟨file, ?_⟩
    rw [List.flatMap_cons, drainItems_append]
    refine hone.bind ?_
    have hshift : (fun (i : ℕ) (s : Section) => s.file env tgt (w.files.length + 1 + i)) =
        fun i s => s.file env tgt (w.files.length + (i + 1)) := by
      funext i s
      rw [Nat.add_assoc, Nat.add_comm 1 i]
    simp only [List.length_append, List.length_singleton, hshift] at hrest
    simpa [List.mapIdx_cons] using hrest

end Running

/-! ## The whole output -/

theorem items_close {ss : List Section} (hss : ss ≠ []) :
    items ss ++ [.close] = ss.flatMap fun s => s.items ++ [.close] := by
  have hall : ∀ ss : List Section, (ss.flatMap fun s => .close :: s.items) ++ [.close] =
      .close :: ss.flatMap fun s => s.items ++ [.close] := by
    intro ss
    induction ss with
    | nil => rfl
    | cons s ss ih => simp [ih]
  cases ss with
  | nil => exact absurd rfl hss
  | cons s ss =>
    have := hall (s :: ss)
    simp only [List.flatMap_cons, List.cons_append, List.cons.injEq, true_and] at this
    simpa [items] using this

/-- What the disk has under a name: the text of the file that was opened with it last. -/
def Writer.disk (w : Writer) (fn : Text) : Option Text :=
  (w.files.reverse.find? fun f => f.name = fn).map OutFile.content

theorem disk_eq {w : Writer} (hnodup : (w.files.map OutFile.name).Nodup) {f : OutFile}
    (hf : f ∈ w.files) : w.disk f.name = some f.content := by
  have hfind : w.files.reverse.find? (fun g => g.name = f.name) = some f := by
    cases hfind : w.files.reverse.find? fun g => g.name = f.name with
    | none =>
      have := List.find?_eq_none.mp hfind f (List.mem_reverse.mpr hf)
      simp at this
    | some g =>
      have hname : g.name = f.name := by simpa using List.find?_some hfind
      have hg : g ∈ w.files := List.mem_reverse.mp (List.mem_of_find?_eq_some hfind)
      rw [List.inj_on_of_nodup_map hnodup hg hf hname]
  rw [Writer.disk, hfind]
  rfl

/-- One file a section, in order, each closed once, on the disk under its own name; every command
token in it; nothing left in the queue. -/
structure Written (env : Env) (tgt : TargetOutput) (ts : List Token) (d : Drain) : Prop where
  files : d.writer.files = (sections ts).mapIdx (Section.file env tgt)
  disk : ∀ (k : ℕ) (s : Section), (sections ts)[k]? = some s →
    d.writer.disk (s.name ++ tgt.extension) = some (s.content tgt (env.yearMonthDay k))
  commands : (sections ts).flatMap (fun s => s.commands.map Command.name) =
    ts.filterMap fun t => t.cmdName?.map Prod.fst
  queue : d.dataNodes = []

theorem section_names (g : Text × List Token) :
    (sectionOf g).commands.map Command.name = (g.2.filterMap Token.cmdName?).map Prod.fst := by
  rw [← Groups.groups_markers]
  simp [sectionOf, commandOf]

theorem written_of_files {env : Env} {tgt : TargetOutput} {ts : List Token} {nodes : List Node}
    {w : Writer} (hdistinct : ((sections ts).map Section.name).Nodup) (hall : AllIn ts)
    (hfiles : w.files = (sections ts).mapIdx (Section.file env tgt)) :
    Written env tgt ts ⟨nodes, [], w⟩ := by
  have hnames : w.files.map OutFile.name =
      ((sections ts).map Section.name).map (· ++ tgt.extension) := by
    rw [hfiles, List.map_map]
    apply List.ext_getElem?
    intro i
    rw [List.getElem?_map, List.getElem?_mapIdx, List.getElem?_map, Option.map_map]
    rfl
  have hnodup : (w.files.map OutFile.name).Nodup := by
    rw [hnames]
    exact hdistinct.map (List.append_left_injective tgt.extension)
  refine ⟨hfiles, fun k s hk => ?_, ?_, rfl⟩
  · have hmem : s.file env tgt k ∈ w.files := by
      rw [hfiles]
      apply List.mem_of_getElem? (i := k)
      simp [hk]
    exact disk_eq hnodup hmem
  · have hmap := congrArg (List.map Prod.fst) hall
    rw [List.map_filterMap] at hmap
    simpa [sections, List.flatMap_map, section_names, List.map_flatMap] using hmap

/-- An accepted definition whose sections have distinct names that are not empty, with no command
out of range, is written file by file as it should be exactly when it has a section. -/
theorem output_writes_sections (env : Env) (hopen : ∀ fn, env.fopen fn = true) (tgt : TargetOutput)
    (ts : List Token) (c : Compiler) (hacc : compile ts = some c)
    (hnames : ∀ s ∈ sections ts, s.name ≠ []) (hdistinct : ((sections ts).map Section.name).Nodup)
    (hrange : ∀ e, output env tgt c.parser = .error e → e.why ≠ .outOfRange) :
    (∃ d, output env tgt c.parser = .ok d ∧ Written env tgt ts d) ↔
      ∃ t ∈ ts, t.fileName?.isSome = true := by
  obtain ⟨nodes', hout⟩ := output_eq hacc env tgt
  have hbuilt := built_compile hacc
  have hsections : sections ts ≠ [] ↔ ∃ t ∈ ts, t.fileName?.isSome = true := by
    rw [sections, Ne, List.map_eq_nil_iff, Groups.groups_eq_nil]
    simp [Option.isSome_iff_ne_none]
  rw [← hsections]
  refine ⟨?_, fun hss => ?_⟩
  · -- without a section the only item closes a file that was never opened
    rintro ⟨d, hd, -⟩ hnil
    rw [hout, hnil] at hd
    cases hd
  · obtain ⟨file, hyields⟩ := sections_yield env tgt hopen hnames hbuilt.ranged .init
    rw [items_close hss] at hout
    rcases hyields with hok | ⟨w, herr⟩
    · rw [hok] at hout
      exact ⟨_, hout, written_of_files hdistinct hbuilt.all (by simp [Writer.init])⟩
    · rw [herr] at hout
      exact absurd rfl (hrange _ hout)

/-- One section `[a][1-3]` with the command `x;`. -/
theorem output_writes_one_section :
    ∃ ts c, compile ts = some c ∧ ∃ d, output ⟨fun _ => true, fun _ => []⟩ (cppOutput id) c.parser =
      .ok d ∧ Written ⟨fun _ => true, fun _ => []⟩ (cppOutput id) ts d := by
  let ts : List Token := [⟨.fileName .a, 1, Nat.succ_pos 0⟩,
    ⟨.takeBits (.digit 1) (.digit 3), 1, Nat.succ_pos 0⟩, ⟨.cmdName .x 0, 2, Nat.succ_pos 1⟩]
  have hok : (compile ts).map (fun c => (output ⟨fun _ => true, fun _ => []⟩ (cppOutput id)
      c.parser).isOk) = some true := by decide +kernel
  obtain ⟨c, hacc, hc⟩ := Option.map_eq_some_iff.mp hok
  refine ⟨ts, c, hacc, (output_writes_sections _ (fun _ => rfl) _ ts c hacc (by decide +kernel)
    (by decide +kernel) fun e he => ?_).mpr (by decide +kernel)⟩
  rw [he] at hc
  cases hc

/-- The empty definition is accepted, and either back end closes a file that was never opened. -/
theorem output_empty_definition :
    compile [] = some .init ∧ sections [] = [] ∧ ∀ tgt ∈ [cppOutput id, goOutput],
      output ⟨fun _ => true, fun _ => []⟩ tgt Compiler.init.parser = .error ⟨.undefined, .init⟩ ∧
      ¬∃ d, output ⟨fun _ => true, fun _ => []⟩ tgt Compiler.init.parser = .ok d ∧
        Written ⟨fun _ => true, fun _ => []⟩ tgt [] d := by
  refine ⟨rfl, rfl, fun tgt _ => ?_⟩
  have hout : output ⟨fun _ => true, fun _ => []⟩ tgt Compiler.init.parser =
      .error ⟨.undefined, .init⟩ := rfl
  refine ⟨hout, ?_⟩
  rintro ⟨d, hd, -⟩
  rw [hout] at hd
  cases hd

end DevFramework.CmdParser
