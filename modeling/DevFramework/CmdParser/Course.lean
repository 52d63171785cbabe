import DevFramework.CmdParser.Ids

/-! # How far a run comes

`course` says from the sections alone which commands a run puts on lines and why it ends early: a
section without a name opens no file, so its first line goes through a `file_` that is not set or
closed; a section whose file cannot be opened, and the first command that is out of range, end the
run. `output_course` says that a run of either back end is like that.
-/
namespace DevFramework.CmdParser
set_option autoImplicit false
set_option maxHeartbeats 250000

/-! ## From the sections -/

/-- The commands of the section that are put on lines, and why the run ends in it, if it does. -/
def Section.course (opens : Text → Bool) (s : Section) : List Command × Option Stop :=
  if s.name.isEmpty then
    match s.commands with
    | [] => ([], some .undefined)
    | c :: _ => if s.reach = 0 then ([], some .outOfRange) else ([c], some .undefined)
  else if opens s.name then
    (s.commands.take s.reach, if s.reach = s.commands.length then none else some .outOfRange)
  else ([], some .openError)

/-- The sections that a run comes to, each with its commands that are put on lines, and why the run
ends early, if it does. -/
def course (opens : Text → Bool) : List Section → List (Section × List Command) × Option Stop
  | [] => ([], none)
  | s :: ss =>
    match s.course opens with
    | (cs, some why) => ([(s, cs)], some why)
    | (cs, none) => ((s, cs) :: (course opens ss).1, (course opens ss).2)

/-- A definition without sections closes a file that was never opened. -/
def definitionCourse (opens : Text → Bool) (ss : List Section) :
    List (Section × List Command) × Option Stop :=
  if ss.isEmpty then ([], some .undefined) else course opens ss

/-- The constants of the commands that a run puts on lines in a section. -/
def reachedConstants (tgt : TargetOutput) (r : Section × List Command) : List Constant :=
  r.2.mapIdx (r.1.constant tgt)

/-- Why a run ended early. -/
def stopOf {α : Type} : Result α → Option Stop
  | .ok _ => none
  | .error e => some e.why

/-- Nothing can be written: `file_` is not set, or its file is closed. -/
def Writer.Idle (w : Writer) : Prop :=
  ∀ i, w.file = some i → w.files[i]?.map OutFile.closed ≠ some 0

/-! ## One section -/

section Course
variable {env : Env} {tgt : TargetOutput} {w : Writer} {s : Section}

theorem init_idle : Writer.init.Idle := by
  intro i hi
  cases hi

theorem Writer.Idle.fwrite (h : w.Idle) (text : Text) : w.fwrite text = .error ⟨.undefined, w⟩ := by
  unfold Writer.fwrite
  cases hfile : w.file with
  | none => rfl
  | some i => simp only [if_neg (h i hfile)]

theorem Writer.Idle.close (h : w.Idle) : w.close tgt = .error ⟨.undefined, w⟩ := by
  rw [Writer.close, h.fwrite]
  rfl

/-- What a run that starts with a writer does, as far as the course tells. -/
def Follows (tgt : TargetOutput) (w : Writer) (r : Result Writer)
    (rs : List (Section × List Command)) (e : Option Stop) : Prop :=
  (lastWriter r).emitted = w.emitted ++ rs.flatMap (reachedConstants tgt) ∧ stopOf r = e

/-- A section without a name, when nothing can be written. -/
theorem nameless_run (env : Env) (tgt : TargetOutput) (hidle : w.Idle) (hname : s.name = [])
    (hb : s.commands ≠ [] → ∃ b, s.range = some b) (opens : Text → Bool) :
    Follows tgt w (drainItems env tgt w (s.items ++ [.close])) [(s, (s.course opens).1)]
      (s.course opens).2 ∧ (s.course opens).2 ≠ none := by
  have hcreate : itemStep env tgt w (.create s.name) = .ok w := by
    simp [itemStep, Writer.create, hname]
  simp only [Section.items, List.cons_append, drainItems, hcreate]
  cases hcmds : s.commands with
  | nil =>
    have hcourse : s.course opens = ([], some .undefined) := by
      simp [Section.course, hname, hcmds]
    rw [hcourse]
    refine ⟨⟨?_, ?_⟩, by simp⟩
    · simp [Except.bind, drainItems, itemStep, hidle.close, lastWriter, reachedConstants]
    · simp [Except.bind, drainItems, itemStep, hidle.close, stopOf]
  | cons c cs =>
    obtain ⟨b, hb⟩ := hb (by simp [hcmds])
    have hpos : 0 < s.commands.length := by simp [hcmds]
    simp only [Except.bind, List.mapIdx_cons, List.cons_append, drainItems, itemStep, Section.item,
      cmdText_eq tgt hb]
    have hout : s.endCmd.slt (s.constant tgt 0 c).request =
      s.endCmd.slt (s.startCmd + BitVec.ofNat 32 0) := rfl
    by_cases hreach : s.reach = 0
    · have hcourse : s.course opens = ([], some .outOfRange) := by
        simp [Section.course, hname, hcmds, hreach]
      have hslt : s.endCmd.slt (s.startCmd + BitVec.ofNat 32 0) = true := by
        have := Section.out_at_reach (s := s) (by omega)
        rwa [hreach] at this
      rw [hcourse, hout, hslt]
      exact ⟨⟨by simp [lastWriter, reachedConstants], rfl⟩, by simp⟩
    · have hcourse : s.course opens = ([c], some .undefined) := by
        simp [Section.course, hname, hcmds, hreach]
      have hslt : s.endCmd.slt (s.startCmd + BitVec.ofNat 32 0) = false :=
        Section.in_of_lt_reach (by omega)
      have hidle' : Writer.Idle { w with emitted := w.emitted ++ [s.constant tgt 0 c] } := hidle
      rw [hcourse, hout, hslt]
      simp only [Bool.false_eq_true, if_false, Writer.writeLine, hidle'.fwrite]
      exact ⟨⟨by simp [lastWriter, reachedConstants], rfl⟩, by simp⟩

/-- A section and its `OT_CLOSE`, started when nothing can be written, follow the section's course;
if the run goes on, nothing can be written again. -/
theorem section_follows (hidle : w.Idle) (hb : s.commands ≠ [] → ∃ b, s.range = some b)
    {opens : Text → Bool} (hopens : opens s.name = env.fopen (s.name ++ tgt.extension)) :
    Follows tgt w (drainItems env tgt w (s.items ++ [.close])) [(s, (s.course opens).1)]
      (s.course opens).2 ∧
    ∀ w', drainItems env tgt w (s.items ++ [.close]) = .ok w' → w'.Idle := by
  by_cases hname : s.name = []
  · obtain ⟨hfollows, hstop⟩ := nameless_run env tgt hidle hname hb opens
    refine ⟨hfollows, fun w' hw' => ?_⟩
    rw [Follows, hw'] at hfollows
    exact absurd hfollows.2.symm hstop
  have hne : s.name.isEmpty = false := by simpa using hname
  cases hfopen : env.fopen (s.name ++ tgt.extension) with
  | false =>
    have hcourse : s.course opens = ([], some .openError) := by
      simp [Section.course, hname, hopens, hfopen]
    have hcreate : itemStep env tgt w (.create s.name) = .error ⟨.openError, w⟩ := by
      simp [itemStep, Writer.create, hname, hfopen]
    rw [hcourse]
    simp only [Section.items, List.cons_append, drainItems, hcreate]
    refine ⟨⟨by simp [Except.bind, lastWriter, reachedConstants], rfl⟩, fun w' hw' => ?_⟩
    cases hw'
  | true =>
    have hcourse : s.course opens = (s.commands.take s.reach,
        if s.reach = s.commands.length then none else some .outOfRange) := by
      simp [Section.course, hname, hopens, hfopen]
    rw [hcourse, section_run env tgt hname hfopen hb w]
    by_cases hreach : s.reach = s.commands.length
    · rw [if_pos hreach, if_pos hreach, hreach, List.take_length]
      refine ⟨⟨by simp [lastWriter, reachedConstants, Section.constants], rfl⟩, fun w' hw' => ?_⟩
      obtain rfl := Except.ok.inj hw'
      intro i hi
      obtain rfl := Option.some.inj hi
      simp [Section.file]
    · rw [if_neg hreach, if_neg hreach]
      refine ⟨⟨by simp [lastWriter, reachedConstants, Section.written, Writer.opened], rfl⟩, ?_⟩
      intro w' hw'
      cases hw'

/-! ## All sections -/

theorem error_of_stopOf {r : Result Writer} {why : Stop} (h : stopOf r = some why) :
    ∃ w', r = .error ⟨why, w'⟩ := by
  cases r with
  | ok w' => cases h
  | error e =>
    obtain rfl := Option.some.inj h
    exact ⟨e.writer, rfl⟩

theorem ok_of_stopOf {r : Result Writer} (h : stopOf r = none) : ∃ w', r = .ok w' := by
  cases r with
  | ok w' => exact ⟨w', rfl⟩
  | error e => cases h

theorem sections_follow (env : Env) (tgt : TargetOutput) {opens : Text → Bool} {ss : List Section} (hidle : w.Idle)
    (hb : Ranged ss) (hopens : ∀ s ∈ ss, opens s.name = env.fopen (s.name ++ tgt.extension)) :
    Follows tgt w (drainItems env tgt w (ss.flatMap fun s => s.items ++ [.close]))
      (course opens ss).1 (course opens ss).2 := by
  induction ss generalizing w with
  | nil => exact ⟨by simp [drainItems, lastWriter, course], rfl⟩
  | cons s ss ih =>
    obtain ⟨⟨hem, hstop⟩, hnext⟩ := section_follows hidle (hb s List.mem_cons_self)
      (hopens s List.mem_cons_self)
    rw [List.flatMap_cons, drainItems_append, course]
    cases hcourse : s.course opens with
    | mk cs e =>
      rw [hcourse] at hem hstop
      cases e with
      | some why =>
        obtain ⟨w', hw'⟩ := error_of_stopOf hstop
        rw [hw'] at hem ⊢
        exact ⟨hem, rfl⟩
      | none =>
        obtain ⟨w', hw'⟩ := ok_of_stopOf hstop
        rw [hw'] at hem ⊢
        obtain ⟨hem', hstop'⟩ := ih (hnext w' hw')
          (fun s' hs' => hb s' (List.mem_cons_of_mem s hs'))
          fun s' hs' => hopens s' (List.mem_cons_of_mem s hs')
        have hw : w'.emitted = w.emitted ++ reachedConstants tgt (s, cs) := by
          simpa [lastWriter] using hem
        refine ⟨?_, hstop'⟩
        simp only [Except.bind, hem', hw, List.flatMap_cons, List.append_assoc]

end Course

/-! ## The whole definition -/

/-- **The course of a run.** It puts the constants of the commands it comes to on lines, and ends
as the sections say. -/
theorem output_course (env : Env) (tgt : TargetOutput) {ts : List Token} {c : Compiler}
    (hacc : compile ts = some c) (opens : Text → Bool)
    (hopens : ∀ s ∈ sections ts, opens s.name = env.fopen (s.name ++ tgt.extension)) :
    emitted (output env tgt c.parser) =
      (definitionCourse opens (sections ts)).1.flatMap (reachedConstants tgt) ∧
    stopOf (output env tgt c.parser) = (definitionCourse opens (sections ts)).2 := by
  obtain ⟨nodes', hout⟩ := output_eq hacc env tgt
  rw [hout]
  by_cases hss : sections ts = []
  · rw [hss]
    exact ⟨rfl, rfl⟩
  · have hne : (sections ts).isEmpty = false := by simpa using hss
    have hfollows := sections_follow env tgt init_idle
      (built_compile hacc).ranged hopens
    rw [items_close hss]
    simp only [definitionCourse, hne, Bool.false_eq_true, if_false]
    obtain ⟨hem, hstop⟩ := hfollows
    generalize drainItems env tgt .init ((sections ts).flatMap fun s => s.items ++ [.close]) = r
      at hem hstop ⊢
    cases r with
    | ok w => exact ⟨hem, hstop⟩
    | error e => exact ⟨hem, hstop⟩

end DevFramework.CmdParser
