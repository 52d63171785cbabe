import DevFramework.CmdParser.Course

/-! # The handle `file_`

`file_` is set by `fopen` only and never reset, so in a run it is the last file that was opened, or
not set at all. It is used while it is not set, or after its file was closed, by the ending of a
definition without sections and by the first line of a section without a name.
-/
namespace DevFramework.CmdParser
set_option autoImplicit false
set_option maxHeartbeats 250000

/-- `file_` is the file opened last; it is not set before the first one. -/
def Writer.Latest (w : Writer) : Prop :=
  w.file = if w.files.isEmpty then none else some (w.files.length - 1)

/-- A run goes through the section to its end. -/
def Section.Completes (opens : Text → Bool) (s : Section) : Prop :=
  s.name ≠ [] ∧ opens s.name = true ∧ s.reach = s.commands.length

/-- The first command is out of range, so a run ends before it writes anything. -/
def Section.AbortsFirst (s : Section) : Prop := s.commands ≠ [] ∧ s.reach = 0

/-! ## The last file -/

section Latest
variable {env : Env} {tgt : TargetOutput} {w w' : Writer}

theorem fwrite_latest {text : Text} (h : w.Latest) (hok : w.fwrite text = .ok w') : w'.Latest := by
  unfold Writer.fwrite at hok
  split at hok
  · cases hok
  · split at hok
    · obtain rfl := Except.ok.inj hok
      simpa [Writer.Latest, ← List.length_eq_zero_iff] using h
    · cases hok

theorem fclose_latest (h : w.Latest) (hok : w.fclose = .ok w') : w'.Latest := by
  unfold Writer.fclose at hok
  split at hok
  · cases hok
  · split at hok
    · obtain rfl := Except.ok.inj hok
      simpa [Writer.Latest, ← List.length_eq_zero_iff] using h
    · cases hok

theorem fopen_latest (name : Text) : (w.fopen name).Latest := by
  simp [Writer.Latest, Writer.fopen]

theorem bind_latest {α : Type} {r : Result α} {f : α → Result Writer}
    (hf : ∀ a, r = .ok a → ∀ v, f a = .ok v → v.Latest) (hok : r.bind f = .ok w') :
    w'.Latest := by
  cases r with
  | error e => cases hok
  | ok a => exact hf a rfl w' hok

theorem cmdText_latest {range name finLine : Text} {sid : BitVec 32} {v : Text × Writer}
    (h : w.Latest) (hok : cmdText tgt range name sid finLine w = .ok v) : v.2.Latest := by
  unfold cmdText at hok
  split at hok
  · obtain rfl := Except.ok.inj hok
    exact h
  · split at hok
    · cases hok
    · obtain rfl := Except.ok.inj hok
      exact h

theorem itemStep_latest {i : Item} (h : w.Latest) (hok : itemStep env tgt w i = .ok w') :
    w'.Latest := by
  cases i with
  | create name =>
    simp only [itemStep, Writer.create] at hok
    split at hok
    · obtain rfl := Except.ok.inj hok
      exact h
    · split at hok
      · split at hok
        · obtain rfl := Except.ok.inj hok
          exact fopen_latest _
        · exact fwrite_latest (fopen_latest _) hok
      · cases hok
  | write range name sid cmts =>
    exact bind_latest (fun v hv u hu => fwrite_latest (cmdText_latest h hv) hu) hok
  | close => exact bind_latest (fun v hv u hu => fclose_latest (fwrite_latest h hv) hu) hok

theorem drainItems_latest {is : List Item} (h : w.Latest)
    (hok : drainItems env tgt w is = .ok w') : w'.Latest := by
  induction is generalizing w w' with
  | nil =>
    obtain rfl := Except.ok.inj hok
    exact h
  | cons i is ih =>
    exact bind_latest (fun v hv u hu => ih (itemStep_latest h hv) hu) hok

end Latest

/-! ## Where a run comes to use an invalid handle -/

section Undefined
variable {opens : Text → Bool} {s : Section} {ss : List Section}

theorem section_completes : (s.course opens).2 = none ↔ s.Completes opens := by
  unfold Section.course Section.Completes
  cases hname : s.name with
  | nil =>
    cases hcmds : s.commands with
    | nil => simp
    | cons c cs =>
      simp only [List.isEmpty_nil, if_true, ne_eq, not_true_eq_false, false_and, iff_false]
      split <;> simp
  | cons a rest =>
    cases hopen : opens (a :: rest) <;> simp

theorem section_undefined :
    (s.course opens).2 = some .undefined ↔ s.name = [] ∧ ¬ s.AbortsFirst := by
  unfold Section.course Section.AbortsFirst
  cases hname : s.name with
  | nil =>
    cases hcmds : s.commands with
    | nil => simp
    | cons c cs => by_cases hreach : s.reach = 0 <;> simp [hreach]
  | cons a rest =>
    cases hopen : opens (a :: rest)
    · simp
    · by_cases hreach : s.reach = s.commands.length <;> simp [hreach]

/-- A run uses an invalid handle in the first section that it does not complete, if that one has no
name and does not abort at once. -/
theorem course_undefined : (course opens ss).2 = some .undefined ↔
    ∃ pre s post, ss = pre ++ s :: post ∧ (∀ r ∈ pre, r.Completes opens) ∧ s.name = [] ∧
      ¬ s.AbortsFirst := by
  induction ss with
  | nil => simp [course]
  | cons s ss ih =>
    have hstop : (course opens (s :: ss)).2 = ((s.course opens).2 <|> (course opens ss).2) := by
      rw [course]
      rcases s.course opens with ⟨cs, _ | why⟩ <;> rfl
    rw [hstop]
    cases hone : (s.course opens).2 with
    | none =>
      have hcompletes := section_completes.mp hone
      rw [Option.orElse_eq_orElse, Option.orElse_none, ih]
      constructor
      · rintro ⟨pre, s', post, rfl, hpre, hs'⟩
        exact ⟨s :: pre, s', post, rfl, List.forall_mem_cons.mpr ⟨hcompletes, hpre⟩, hs'⟩
      · rintro ⟨pre, s', post, heq, hpre, hs'⟩
        cases pre with
        | nil =>
          obtain ⟨rfl, -⟩ := List.cons.inj heq
          exact absurd hs'.1 hcompletes.1
        | cons r pre =>
          obtain ⟨rfl, rfl⟩ := List.cons.inj heq
          exact ⟨pre, s', post, rfl, (List.forall_mem_cons.mp hpre).2, hs'⟩
    | some why =>
      rw [Option.orElse_eq_orElse, Option.orElse_some]
      have hnot : ¬ s.Completes opens := fun h => by
        rw [section_completes.mpr h] at hone
        cases hone
      rw [← hone, section_undefined]
      constructor
      · exact fun hs => ⟨[], s, ss, rfl, List.forall_mem_nil _, hs⟩
      · rintro ⟨pre, s', post, heq, hpre, hs'⟩
        cases pre with
        | nil =>
          obtain ⟨rfl, -⟩ := List.cons.inj heq
          exact hs'
        | cons r pre =>
          obtain ⟨rfl, -⟩ := List.cons.inj heq
          exact absurd (List.forall_mem_cons.mp hpre).1 hnot

end Undefined

/-- **The handle.** Throughout a run `file_` is the last file opened, or not set. It is never used
unset or closed exactly when the definition has a section, and every section without a name that a
run comes to has a first command that is out of range. -/
theorem handle_valid (env : Env) (tgt : TargetOutput) (ts : List Token) (c : Compiler)
    (hacc : compile ts = some c) :
    (∀ is w, is <+: items (sections ts) ++ [.close] → drainItems env tgt .init is = .ok w →
      w.Latest) ∧
    ((∀ e, output env tgt c.parser = .error e → e.why ≠ .undefined) ↔
      sections ts ≠ [] ∧ ∀ pre s post, sections ts = pre ++ s :: post →
        (∀ r ∈ pre, r.Completes fun name => env.fopen (name ++ tgt.extension)) → s.name = [] →
          s.AbortsFirst) := by
  refine ⟨fun is w _ hok => drainItems_latest (show Writer.init.Latest from rfl) hok, ?_⟩
  have hstop := (output_course env tgt hacc (fun name => env.fopen (name ++ tgt.extension))
    fun s _ => rfl).2
  have hundef : (∀ e, output env tgt c.parser = .error e → e.why ≠ .undefined) ↔
      stopOf (output env tgt c.parser) ≠ some .undefined := by
    cases output env tgt c.parser with
    | ok d => simp [stopOf]
    | error e => simp [stopOf]
  rw [hundef, hstop, definitionCourse]
  by_cases hss : sections ts = []
  · simp [hss]
  · have hne : (sections ts).isEmpty = false := by simpa using hss
    rw [hne]
    simp only [Bool.false_eq_true, if_false, ne_eq, hss, not_false_eq_true, true_and,
      course_undefined]
    push Not
    rfl

/-- `[a][1-3]` with the command `x;`. -/
theorem handle_valid_one_section :
    ∃ ts c, compile ts = some c ∧
      ∀ e, output ⟨fun _ => true, fun _ => []⟩ goOutput c.parser = .error e → e.why ≠ .undefined := by
  let ts : List Token := [⟨.fileName .a, 1, Nat.succ_pos 0⟩,
    ⟨.takeBits (.digit 1) (.digit 3), 1, Nat.succ_pos 0⟩, ⟨.cmdName .x 0, 2, Nat.succ_pos 1⟩]
  have hsections : sections ts = [⟨['a'], some (.digit 1, .digit 3), [⟨['x'], []⟩]⟩] := by
    decide +kernel
  obtain ⟨c, hacc⟩ : ∃ c, compile ts = some c := ⟨_, rfl⟩
  refine ⟨ts, c, hacc, (handle_valid ⟨fun _ => true, fun _ => []⟩ goOutput ts c hacc).2.mpr ?_⟩
  rw [hsections]
  refine ⟨List.cons_ne_nil _ _, fun pre s post heq _ hname => ?_⟩
  have hs : s ∈ pre ++ s :: post := by simp
  rw [← heq, List.mem_singleton] at hs
  rw [hs] at hname
  cases hname

/-- Why a run ended early, with `file_` and how often each file was closed by then. -/
def abortedAt : Result Drain → Option (Stop × Option ℕ × List ℕ)
  | .ok _ => none
  | .error e => some (e.why, e.writer.file, e.writer.files.map OutFile.closed)

/-- `[a][1-3]x;` and `[][4-5]y;`: the line of `y` is written to the file of the first section,
which is closed. -/
theorem nameless_writes_closed :
    ∃ ts c w, compile ts = some c ∧
      output ⟨fun _ => true, fun _ => []⟩ goOutput c.parser = .error ⟨.undefined, w⟩ ∧
      w.file = some 0 ∧ w.files.map OutFile.closed = [1] := by
  let none : SeriesName := ⟨[], List.forall_mem_nil _⟩
  let y : CmdIdent := ⟨['y'], List.cons_ne_nil _ _, List.forall_mem_singleton.mpr (.inl rfl)⟩
  let ts : List Token := [⟨.fileName .a, 1, Nat.succ_pos 0⟩,
    ⟨.takeBits (.digit 1) (.digit 3), 1, Nat.succ_pos 0⟩, ⟨.cmdName .x 0, 2, Nat.succ_pos 1⟩,
    ⟨.fileName none, 3, Nat.succ_pos 2⟩, ⟨.takeBits (.digit 4) (.digit 5), 3, Nat.succ_pos 2⟩,
    ⟨.cmdName y 0, 4, Nat.succ_pos 3⟩]
  have hrun : (compile ts).map (fun c =>
      abortedAt (output ⟨fun _ => true, fun _ => []⟩ goOutput c.parser)) =
      some (some (.undefined, some 0, [1])) := by decide +kernel
  obtain ⟨c, hacc, hc⟩ := Option.map_eq_some_iff.mp hrun
  cases hout : output ⟨fun _ => true, fun _ => []⟩ goOutput c.parser with
  | ok d =>
    rw [hout] at hc
    cases hc
  | error e =>
    rw [hout] at hc
    obtain ⟨hwhy, hrest⟩ := Prod.mk.inj (Option.some.inj hc)
    obtain ⟨hfile, hclosed⟩ := Prod.mk.inj hrest
    obtain ⟨why, w⟩ := e
    simp only at hwhy
    subst hwhy
    exact ⟨ts, c, w, hacc, hout, hfile, hclosed⟩

end DevFramework.CmdParser
