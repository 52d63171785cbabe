import DevFramework.CmdParser.Course

/-! # The two back ends side by side

Run on the tree of the same definition, where `fopen` answers both alike, the two back ends come
equally far: the same commands of the same sections, with the same ids, and the same end. The names
differ by `data[0] -= 32`, which is the upper case of a lower-case letter and of nothing else that a
command's name may start with.
-/
namespace DevFramework.CmdParser
set_option autoImplicit false
set_option maxHeartbeats 250000

/-- The name with its first letter in upper case. -/
def capitalized (name : Text) : Text := name.modifyHead Char.toUpper

/-- The first character is a lower-case letter. -/
def StartsLower (name : Text) : Prop := ∀ a ∈ name.head?, a.isLower = true

/-- The outputs of the two back ends correspond: they put the constants of the same commands of the
same sections on lines, with the same ids, end alike, and the names of the second are those of the
first with the first letter in upper case. -/
structure Correspond (trans : Text → Text) (cpp go : Result Drain) : Prop where
  sections : ∃ rs : List (Section × List Command), emitted cpp = rs.flatMap (reachedConstants (cppOutput trans)) ∧
    emitted go = rs.flatMap (reachedConstants goOutput)
  ids : (emitted cpp).map (fun k => (k.range, k.request, k.response)) =
    (emitted go).map fun k => (k.range, k.request, k.response)
  stop : stopOf cpp = stopOf go
  names : (emitted go).map Constant.name = (emitted cpp).map fun k => capitalized k.name

/-! ## First characters -/

theorem goName_char (a : Char) (ha : a.isAlphanum ∨ a = '_') :
    Char.ofNat ((a.toNat + 224) % 256) = a.toUpper ↔ a.isLower = true := by
  have hall : ∀ n : Fin 128, (Char.ofNat n).isAlphanum ∨ Char.ofNat n = '_' →
      (Char.ofNat (((Char.ofNat n).toNat + 224) % 256) = (Char.ofNat n).toUpper ↔
        (Char.ofNat n).isLower = true) := by decide +kernel
  have hlt : a.toNat < 128 := by
    rcases ha with ha | rfl
    · have hval : a.val.toNat = a.toNat := rfl
      rw [← hval]
      rcases (Bool.or_eq_true _ _).mp ha with ha | ha
      · rcases (Bool.or_eq_true _ _).mp ha with ha | ha
        · have hle : a.val ≤ 'Z'.val := (of_decide_eq_true ha).2
          exact lt_of_le_of_lt (UInt32.le_iff_toNat_le.mp hle) (by decide)
        · have hle : a.val ≤ 'z'.val := of_decide_eq_true ((Bool.and_eq_true _ _).mp ha).2
          exact lt_of_le_of_lt (UInt32.le_iff_toNat_le.mp hle) (by decide)
      · have hle : a.val ≤ '9'.val := of_decide_eq_true ((Bool.and_eq_true _ _).mp ha).2
        exact lt_of_le_of_lt (UInt32.le_iff_toNat_le.mp hle) (by decide)
    · decide
  have hself : Char.ofNat a.toNat = a := Char.ofNat_toNat a
  have := hall ⟨a.toNat, hlt⟩
  simp only [hself] at this
  exact this ha

/-- The name of a command starts with a character that the rule of the lexer admits. -/
theorem command_head {ts : List Token} {s : Section} (hs : s ∈ sections ts) {c : Command}
    (hc : c ∈ s.commands) : ∃ a rest, c.name = a :: rest ∧ (a.isAlphanum ∨ a = '_') := by
  obtain ⟨g, -, rfl⟩ := List.mem_map.mp hs
  have hname : c.name ∈ (sectionOf g).commands.map Command.name := List.mem_map_of_mem hc
  rw [section_names] at hname
  obtain ⟨⟨name, line⟩, hmem, rfl⟩ := List.mem_map.mp hname
  obtain ⟨t, -, ht⟩ := List.mem_filterMap.mp hmem
  unfold Token.cmdName? at ht
  split at ht
  · next id spaces _ =>
    obtain ⟨hname, -⟩ := Prod.mk.inj (Option.some.inj ht)
    obtain ⟨a, rest, hchars⟩ := List.exists_cons_of_ne_nil id.nonempty
    refine ⟨a, rest ++ List.replicate spaces ' ', ?_, id.admitted a (by simp [hchars])⟩
    simp only [← hname, hchars, List.cons_append]
  · cases ht

theorem goName_eq {ts : List Token} {s : Section} (hs : s ∈ sections ts) {c : Command}
    (hc : c ∈ s.commands) : goName c.name = capitalized c.name ↔ StartsLower c.name := by
  obtain ⟨a, rest, hname, ha⟩ := command_head hs hc
  rw [hname]
  simp only [goName, capitalized, List.modifyHead_cons, List.cons.injEq, and_true, StartsLower,
    List.head?_cons, Option.mem_some_iff, forall_eq']
  exact goName_char a ha

/-! ## The run -/

theorem course_sub {opens : Text → Bool} {ss : List Section} {r : Section × List Command}
    (hr : r ∈ (course opens ss).1) : r.1 ∈ ss ∧ ∀ c ∈ r.2, c ∈ r.1.commands := by
  have hone : ∀ s : Section, ∀ c ∈ (s.course opens).1, c ∈ s.commands := by
    intro s c hc
    unfold Section.course at hc
    split at hc
    · cases hcmds : s.commands with
      | nil => simp [hcmds] at hc
      | cons c' cs =>
        simp only [hcmds] at hc
        split at hc
        · cases hc
        · rw [List.mem_singleton.mp hc]
          exact List.mem_cons_self
    · split at hc
      · exact List.mem_of_mem_take hc
      · cases hc
  induction ss with
  | nil => cases hr
  | cons s ss ih =>
    rw [course] at hr
    have hs := hone s
    cases hcourse : s.course opens with
    | mk cs e =>
      rw [hcourse] at hr hs
      cases e with
      | some why =>
        obtain rfl := List.mem_singleton.mp hr
        exact ⟨List.mem_cons_self, hs⟩
      | none =>
        rcases List.mem_cons.mp hr with rfl | hr
        · exact ⟨List.mem_cons_self, hs⟩
        · obtain ⟨hmem, hcmds⟩ := ih hr
          exact ⟨List.mem_cons_of_mem s hmem, hcmds⟩

theorem definitionCourse_sub {opens : Text → Bool} {ss : List Section}
    {r : Section × List Command} (hr : r ∈ (definitionCourse opens ss).1) :
    r.1 ∈ ss ∧ ∀ c ∈ r.2, c ∈ r.1.commands := by
  unfold definitionCourse at hr
  split at hr
  · cases hr
  · exact course_sub hr

theorem map_mapIdx {α β γ : Type} (f : ℕ → α → β) (g : β → γ) (l : List α) :
    (l.mapIdx f).map g = l.mapIdx fun i a => g (f i a) := by
  apply List.ext_getElem?
  intro i
  rw [List.getElem?_map, List.getElem?_mapIdx, List.getElem?_mapIdx, Option.map_map]
  rfl

theorem mapIdx_eq_map {α β : Type} (g : α → β) (l : List α) :
    (l.mapIdx fun _ a => g a) = l.map g := by
  apply List.ext_getElem?
  intro i
  rw [List.getElem?_mapIdx, List.getElem?_map]

theorem reached_ids (tgt tgt' : TargetOutput) (rs : List (Section × List Command)) :
    (rs.flatMap (reachedConstants tgt)).map (fun k => (k.range, k.request, k.response)) =
      (rs.flatMap (reachedConstants tgt')).map fun k => (k.range, k.request, k.response) := by
  rw [List.map_flatMap, List.map_flatMap]
  congr 1
  funext r
  simp only [reachedConstants, map_mapIdx]
  rfl

theorem reached_names (tgt : TargetOutput) (rs : List (Section × List Command)) :
    (rs.flatMap (reachedConstants tgt)).map Constant.name =
      (rs.flatMap Prod.snd).map fun c => tgt.rename c.name := by
  rw [List.map_flatMap, List.map_flatMap]
  congr 1
  funext r
  simp only [reachedConstants, map_mapIdx]
  exact mapIdx_eq_map _ r.2

/-- **The two back ends.** They come equally far, with the same ids, and end alike; and they
correspond in their names too exactly when every command that they come to has a name that starts
with a lower-case letter. -/
theorem back_ends_correspond (env env' : Env) (trans : Text → Text) (ts : List Token)
    (c : Compiler) (hacc : compile ts = some c)
    (hopen : ∀ s ∈ sections ts,
      env.fopen (s.name ++ ".h".toList) = env'.fopen (s.name ++ ".go".toList)) :
    ((∃ rs : List (Section × List Command), emitted (output env (cppOutput trans) c.parser) =
          rs.flatMap (reachedConstants (cppOutput trans)) ∧
        emitted (output env' goOutput c.parser) = rs.flatMap (reachedConstants goOutput)) ∧
      stopOf (output env (cppOutput trans) c.parser) = stopOf (output env' goOutput c.parser)) ∧
    (Correspond trans (output env (cppOutput trans) c.parser) (output env' goOutput c.parser) ↔
      ∀ r ∈ (definitionCourse (fun name => env.fopen (name ++ ".h".toList)) (sections ts)).1,
        ∀ cmd ∈ r.2, StartsLower cmd.name) := by
  obtain ⟨hcpp, hstop⟩ := output_course env (cppOutput trans) hacc
    (fun name => env.fopen (name ++ ".h".toList)) fun s _ => rfl
  obtain ⟨hgo, hstop'⟩ := output_course env' goOutput hacc
    (fun name => env.fopen (name ++ ".h".toList)) hopen
  have hsub := @definitionCourse_sub (fun name => env.fopen (name ++ ".h".toList)) (sections ts)
  generalize (definitionCourse (fun name => env.fopen (name ++ ".h".toList)) (sections ts)) = d
    at hcpp hstop hgo hstop' hsub ⊢
  have hnames : (emitted (output env' goOutput c.parser)).map Constant.name =
        (emitted (output env (cppOutput trans) c.parser)).map (fun k => capitalized k.name) ↔
      ∀ r ∈ d.1, ∀ cmd ∈ r.2, StartsLower cmd.name := by
    have hcap : (emitted (output env (cppOutput trans) c.parser)).map
        (fun k => capitalized k.name) = (d.1.flatMap Prod.snd).map fun c => capitalized c.name := by
      have := congrArg (List.map capitalized) (reached_names (cppOutput trans) d.1)
      rw [← hcpp, List.map_map, List.map_map] at this
      exact this
    rw [hcap, hgo, reached_names, List.map_inj_left]
    simp only [List.mem_flatMap, forall_exists_index, and_imp]
    constructor
    · intro h r hr cmd hcmd
      obtain ⟨hs, hcmds⟩ := hsub hr
      exact (goName_eq hs (hcmds cmd hcmd)).mp (h cmd r hr hcmd)
    · intro h cmd r hr hcmd
      obtain ⟨hs, hcmds⟩ := hsub hr
      exact (goName_eq hs (hcmds cmd hcmd)).mpr (h r hr cmd hcmd)
  refine ⟨⟨⟨d.1, hcpp, hgo⟩, hstop.trans hstop'.symm⟩, fun h => hnames.mp h.names, fun h => ?_⟩
  exact {
    sections := ⟨d.1, hcpp, hgo⟩
    ids := by rw [hcpp, hgo]; exact reached_ids _ _ _
    stop := hstop.trans hstop'.symm
    names := hnames.mpr h }

/-- `[a][1-3]` with the command `x;`. -/
theorem back_ends_correspond_lower :
    ∃ ts c, compile ts = some c ∧
      Correspond id (output ⟨fun _ => true, fun _ => []⟩ (cppOutput id) c.parser)
        (output ⟨fun _ => true, fun _ => []⟩ goOutput c.parser) := by
  let ts : List Token := [⟨.fileName .a, 1, Nat.succ_pos 0⟩,
    ⟨.takeBits (.digit 1) (.digit 3), 1, Nat.succ_pos 0⟩, ⟨.cmdName .x 0, 2, Nat.succ_pos 1⟩]
  have hcourse : definitionCourse (fun _ => true) (sections ts) =
      ([(⟨['a'], some (.digit 1, .digit 3), [⟨['x'], []⟩]⟩, [⟨['x'], []⟩])], none) := by
    decide +kernel
  obtain ⟨c, hacc⟩ : ∃ c, compile ts = some c := ⟨_, rfl⟩
  refine ⟨ts, c, hacc, (back_ends_correspond ⟨fun _ => true, fun _ => []⟩
    ⟨fun _ => true, fun _ => []⟩ id ts c hacc fun _ _ => rfl).2.mpr ?_⟩
  rw [hcourse]
  intro r hr cmd hcmd
  obtain rfl := List.mem_singleton.mp hr
  obtain rfl := List.mem_singleton.mp hcmd
  intro b hb
  obtain rfl := Option.some.inj hb
  decide

/-- `[a][1-3]` with the command `X;`: the Go constants are those of `8`. -/
theorem upper_case_shifted :
    ∃ ts c, compile ts = some c ∧
      (emitted (output ⟨fun _ => true, fun _ => []⟩ (cppOutput id) c.parser)).map Constant.name =
        [['X']] ∧
      (emitted (output ⟨fun _ => true, fun _ => []⟩ goOutput c.parser)).map Constant.name =
        [['8']] ∧
      ¬ Correspond id (output ⟨fun _ => true, fun _ => []⟩ (cppOutput id) c.parser)
        (output ⟨fun _ => true, fun _ => []⟩ goOutput c.parser) := by
  let x : CmdIdent := ⟨['X'], List.cons_ne_nil _ _, List.forall_mem_singleton.mpr (.inl rfl)⟩
  let ts : List Token := [⟨.fileName .a, 1, Nat.succ_pos 0⟩,
    ⟨.takeBits (.digit 1) (.digit 3), 1, Nat.succ_pos 0⟩, ⟨.cmdName x 0, 2, Nat.succ_pos 1⟩]
  have hnames : (compile ts).map (fun c =>
      ((emitted (output ⟨fun _ => true, fun _ => []⟩ (cppOutput id) c.parser)).map Constant.name,
        (emitted (output ⟨fun _ => true, fun _ => []⟩ goOutput c.parser)).map Constant.name)) =
      some ([['X']], [['8']]) := by decide +kernel
  obtain ⟨c, hacc, hc⟩ := Option.map_eq_some_iff.mp hnames
  obtain ⟨hcpp, hgo⟩ := Prod.mk.inj hc
  refine ⟨ts, c, hacc, hcpp, hgo, fun h => ?_⟩
  have hcap : ∀ l : List Constant, l.map (fun k => capitalized k.name) =
      (l.map Constant.name).map capitalized := by simp
  have := h.names
  rw [hgo, hcap, hcpp] at this
  revert this
  decide

end DevFramework.CmdParser
