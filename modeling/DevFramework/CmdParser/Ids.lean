import DevFramework.CmdParser.Files

/-! # The ids of a definition

Whatever way a run ends, the constants it put on its lines are among those of the sections' commands
that are in range, in their order. For ranges between bit 1 and bit 30 that do not overlap, such
constants never meet.
-/
namespace DevFramework.CmdParser
set_option autoImplicit false
set_option maxHeartbeats 250000

/-! ## What a run emits -/

/-- The writer of a run, however it ended. -/
def lastWriter : Result Writer → Writer
  | .ok w => w
  | .error e => e.writer

theorem lastWriter_bind {r : Result Writer} {f : Writer → Result Writer} {es : List Constant}
    (hr : (lastWriter r).emitted = es)
    (hf : ∀ w, w.emitted = es → (lastWriter (f w)).emitted = es) :
    (lastWriter (r.bind f)).emitted = es := by
  cases r with
  | error e => exact hr
  | ok w => exact hf w hr

theorem fwrite_emitted (w : Writer) (text : Text) :
    (lastWriter (w.fwrite text)).emitted = w.emitted := by
  unfold Writer.fwrite
  split
  · rfl
  · split <;> rfl

theorem fclose_emitted (w : Writer) : (lastWriter w.fclose).emitted = w.emitted := by
  unfold Writer.fclose
  split
  · rfl
  · split <;> rfl

theorem create_emitted (env : Env) (tgt : TargetOutput) (w : Writer) (name : Text) :
    (lastWriter (w.create env tgt name)).emitted = w.emitted := by
  unfold Writer.create
  split
  · rfl
  · split
    · simp only
      split
      · rfl
      · exact fwrite_emitted _ _
    · rfl

theorem close_emitted (tgt : TargetOutput) (w : Writer) :
    (lastWriter (w.close tgt)).emitted = w.emitted :=
  lastWriter_bind (fwrite_emitted w _) fun w' h => (fclose_emitted w').trans h

/-- The constants of an item, none if its command is out of range. -/
def Item.constants (tgt : TargetOutput) : Item → List Constant
  | .write range name sid _ =>
    ((cmdBounds range).bind fun bounds =>
      (cmdConstant tgt range name sid bounds).toOption).toList
  | _ => []

/-- An item emits its constants, or it ends the run with none or all of them emitted. -/
theorem itemStep_emitted (env : Env) (tgt : TargetOutput) (w : Writer) (i : Item) :
    (∃ w', itemStep env tgt w i = .ok w' ∧ w'.emitted = w.emitted ++ i.constants tgt) ∨
    ∃ e, itemStep env tgt w i = .error e ∧
      (e.writer.emitted = w.emitted ∨ e.writer.emitted = w.emitted ++ i.constants tgt) := by
  have hother : ∀ r : Result Writer, (lastWriter r).emitted = w.emitted ++ i.constants tgt →
      (∃ w', r = .ok w' ∧ w'.emitted = w.emitted ++ i.constants tgt) ∨
      ∃ e, r = .error e ∧
        (e.writer.emitted = w.emitted ∨ e.writer.emitted = w.emitted ++ i.constants tgt) := by
    rintro (e | w') hr
    · exact .inr ⟨e, rfl, .inr hr⟩
    · exact .inl ⟨w', rfl, hr⟩
  cases i with
  | create name => exact hother _ ((create_emitted env tgt w name).trans (List.append_nil _).symm)
  | close => exact hother _ ((close_emitted tgt w).trans (List.append_nil _).symm)
  | write range name sid cmts =>
    simp only [itemStep, Item.constants, cmdText] at hother ⊢
    cases hbounds : cmdBounds range with
    | none =>
      rw [hbounds] at hother
      exact hother _ ((fwrite_emitted w _).trans (List.append_nil _).symm)
    | some bounds =>
      rw [hbounds] at hother
      cases hconst : cmdConstant tgt range name sid bounds with
      | error why => exact .inr ⟨⟨why, w⟩, by simp [hconst, Except.bind], .inl rfl⟩
      | ok c =>
        simp only [hconst, Option.bind_some, Except.toOption] at hother ⊢
        exact hother _ (fwrite_emitted _ _)

theorem drainItems_emitted (env : Env) (tgt : TargetOutput) (w : Writer) (is : List Item) :
    (∃ w', drainItems env tgt w is = .ok w' ∧
      w'.emitted = w.emitted ++ is.flatMap (Item.constants tgt)) ∨
    ∃ e es, drainItems env tgt w is = .error e ∧ e.writer.emitted = w.emitted ++ es ∧
      es <+: is.flatMap (Item.constants tgt) := by
  induction is generalizing w with
  | nil => exact .inl ⟨w, rfl, (List.append_nil _).symm⟩
  | cons i is ih =>
    rw [List.flatMap_cons]
    rcases itemStep_emitted env tgt w i with ⟨w₁, hok, hem⟩ | ⟨e, herr, hem⟩
    · simp only [drainItems, hok, Except.bind]
      rcases ih w₁ with ⟨w', hrest, hem'⟩ | ⟨e, es, hrest, hem', hpre⟩
      · exact .inl ⟨w', hrest, by rw [hem', hem, List.append_assoc]⟩
      · exact .inr ⟨e, i.constants tgt ++ es, hrest, by rw [hem', hem, List.append_assoc],
          (List.prefix_append_right_inj _).mpr hpre⟩
    · simp only [drainItems, herr, Except.bind]
      rcases hem with hem | hem
      · exact .inr ⟨e, [], rfl, by rw [hem, List.append_nil], List.nil_prefix⟩
      · exact .inr ⟨e, i.constants tgt, rfl, hem, List.prefix_append _ _⟩

/-! ## The constants of a section -/

/-- The section's constants that are in range. -/
def Section.allowed (tgt : TargetOutput) (s : Section) : List Constant :=
  (s.constants tgt).filter fun k => !s.endCmd.slt k.request

theorem item_constants (tgt : TargetOutput) {s : Section} {b : Digits × Digits}
    (hb : s.range = some b) (i : ℕ) (c : Command) :
    (s.item i c).constants tgt =
      [s.constant tgt i c].filter fun k => !s.endCmd.slt k.request := by
  simp only [Item.constants, Section.item, cmdBounds_section hb, Option.bind_some,
    cmdConstant_section]
  by_cases hslt : s.endCmd.slt (s.constant tgt i c).request = true
  · rw [if_pos hslt, List.filter_cons_of_neg (by simp [hslt])]
    rfl
  · rw [if_neg hslt, List.filter_cons_of_pos (by simp [hslt])]
    rfl

theorem section_constants (tgt : TargetOutput) {s : Section}
    (hb : s.commands ≠ [] → ∃ b, s.range = some b) :
    s.items.flatMap (Item.constants tgt) = s.allowed tgt := by
  by_cases hnil : s.commands = []
  · simp [Section.items, Section.allowed, Section.constants, hnil, Item.constants]
  · obtain ⟨b, hb⟩ := hb hnil
    have hall : ∀ l : List (Command × ℕ),
        (l.map fun p => s.item p.2 p.1).flatMap (Item.constants tgt) =
          (l.map fun p => s.constant tgt p.2 p.1).filter fun k => !s.endCmd.slt k.request := by
      intro l
      induction l with
      | nil => rfl
      | cons p l ih =>
        rw [List.map_cons, List.flatMap_cons, ih, item_constants tgt hb, ← List.filter_append]
        rfl
    rw [Section.items, List.flatMap_cons, List.mapIdx_eq_zipIdx_map]
    rw [Section.allowed, Section.constants, List.mapIdx_eq_zipIdx_map]
    exact hall s.commands.zipIdx

theorem items_constants (tgt : TargetOutput) {ss : List Section} (hb : Ranged ss) :
    (items ss ++ [Item.close]).flatMap (Item.constants tgt) = ss.flatMap (Section.allowed tgt) := by
  have htail : (items ss).flatMap (Item.constants tgt) =
      (ss.flatMap fun s => Item.close :: s.items).flatMap (Item.constants tgt) := by
    cases ss with
    | nil => rfl
    | cons s ss => rfl
  have hsections : ∀ ss : List Section, Ranged ss →
      (ss.flatMap fun s => Item.close :: s.items).flatMap (Item.constants tgt) =
        ss.flatMap (Section.allowed tgt) := by
    intro ss hss
    induction ss with
    | nil => rfl
    | cons s ss ih =>
      rw [List.flatMap_cons, List.flatMap_append, ih fun s' hs' => hss s' (List.mem_cons_of_mem s hs'),
        List.flatMap_cons, List.flatMap_cons, section_constants tgt (hss s List.mem_cons_self)]
      rfl
  rw [List.flatMap_append, htail, hsections ss hb]
  exact List.append_nil _

/-! ## Their ids -/

section Ids
variable {tgt : TargetOutput} {s : Section} {l r : Digits}

theorem startCmd_toNat (hs : s.range = some (l, r)) (hl : 1 ≤ l.value) (hle : l.value ≤ 30) :
    s.startCmd.toNat = 2 ^ (l.value - 1) := by
  have hmin : ((min l.value intMax : ℕ) : ℤ) - 1 = ((l.value - 1 : ℕ) : ℤ) := by
    simp only [intMax]
    omega
  have hlt : 2 ^ (l.value - 1) < 2 ^ 32 := Nat.pow_lt_pow_right (by decide) (by omega)
  simp only [Section.startCmd, hs, Option.map_some, Option.getD_some, hmin]
  rw [shiftOne_eq (by omega), BitVec.toNat_ofNat, Nat.mod_eq_of_lt hlt]

theorem endCmd_section (hs : s.range = some (l, r)) (hr : r.value ≤ 30) :
    s.endCmd.toNat = 2 ^ r.value - 1 := by
  have hmin : min r.value intMax = r.value := by
    simp only [intMax]
    omega
  simp only [Section.endCmd, hs, Option.map_some, Option.getD_some, hmin]
  exact endCmd_toNat (by omega)

/-- A constant in range lies between the section's first and last id. -/
theorem allowed_range (hs : s.range = some (l, r)) (hl : 1 ≤ l.value) (hlr : l.value ≤ r.value)
    (hr : r.value ≤ 30) (hlen : s.commands.length < 2 ^ 30) {k : Constant}
    (hk : k ∈ s.allowed tgt) :
    2 ^ (l.value - 1) ≤ k.request.toNat ∧ k.request.toNat ≤ 2 ^ r.value - 1 := by
  obtain ⟨hk, hslt⟩ := List.mem_filter.mp hk
  obtain ⟨i, hi, rfl⟩ := List.mem_mapIdx.mp hk
  have hstart := startCmd_toNat hs hl (by omega)
  have hend := endCmd_section hs hr
  have hpow : 2 ^ (l.value - 1) ≤ 2 ^ 29 := Nat.pow_le_pow_right (by decide) (by omega)
  have hpow' : 2 ^ r.value ≤ 2 ^ 30 := Nat.pow_le_pow_right (by decide) hr
  have hid : (s.startCmd + BitVec.ofNat 32 i).toNat = 2 ^ (l.value - 1) + i := by
    rw [BitVec.toNat_add, BitVec.toNat_ofNat, hstart]
    omega
  refine ⟨by simp only [Section.constant, hid]; omega, ?_⟩
  simp only [Section.constant, hid] at hslt ⊢
  have hint : ∀ x : BitVec 32, x.toNat < 2 ^ 31 → x.toInt = x.toNat := fun x hx =>
    BitVec.toInt_eq_toNat_of_lt (by omega)
  simp only [BitVec.slt, Bool.not_eq_true', decide_eq_false_iff_not] at hslt
  rw [hint _ (by omega), hint _ (by omega), hid, hend] at hslt
  omega

/-- No two commands of a section have the same id. -/
theorem allowed_distinct (hlen : s.commands.length < 2 ^ 30) :
    (s.allowed tgt).Pairwise fun k k' => k.request ≠ k'.request := by
  apply List.Pairwise.filter
  rw [List.pairwise_iff_getElem]
  intro i j hi hj hij heq
  simp only [Section.constants, List.getElem_mapIdx, Section.constant, List.length_mapIdx]
    at heq hi hj
  have hnat := congrArg BitVec.toNat ((BitVec.add_right_inj _).mp heq)
  rw [BitVec.toNat_ofNat, BitVec.toNat_ofNat] at hnat
  omega

end Ids

/-- Bit 31 is clear in the id, so setting it adds `2 ^ 31`. -/
theorem responseId_toNat {x : BitVec 32} (h : x.toNat < 2 ^ 31) :
    (responseId x).toNat = x.toNat + 2 ^ 31 := by
  have hor := Nat.two_pow_add_eq_or_of_lt h 1
  rw [Nat.mul_one, Nat.or_comm] at hor
  rw [responseId, BitVec.toNat_or]
  exact hor.symm.trans (Nat.add_comm _ _)

/-! ## The whole definition -/

/-- The constants put on lines, however the run ended. -/
def emitted : Result Drain → List Constant
  | .ok d => d.writer.emitted
  | .error e => e.writer.emitted

theorem emitted_prefix (env : Env) (tgt : TargetOutput) {ts : List Token} {c : Compiler}
    (hacc : compile ts = some c) :
    emitted (output env tgt c.parser) <+: (sections ts).flatMap (Section.allowed tgt) := by
  obtain ⟨nodes', hout⟩ := output_eq hacc env tgt
  have hall := items_constants tgt (built_compile hacc).ranged
  rcases drainItems_emitted env tgt .init (items (sections ts) ++ [.close]) with
    ⟨w, hok, hem⟩ | ⟨e, es, herr, hem, hpre⟩
  · rw [hok] at hout
    rw [hout, ← hall]
    show w.emitted <+: _
    rw [hem]
    exact List.prefix_rfl
  · rw [herr] at hout
    rw [hout, ← hall]
    show e.writer.emitted <+: _
    rw [hem]
    exact hpre

/-- A run that ends well has run every item. -/
theorem drainItems_ok {env : Env} {tgt : TargetOutput} {w w' : Writer} {is : List Item}
    (h : drainItems env tgt w is = .ok w') {i : Item} (hi : i ∈ is) :
    ∃ w₁ w₂, itemStep env tgt w₁ i = .ok w₂ := by
  induction is generalizing w with
  | nil => cases hi
  | cons j is ih =>
    rw [drainItems] at h
    cases hw : itemStep env tgt w j with
    | error e =>
      rw [hw] at h
      cases h
    | ok w₁ =>
      rw [hw] at h
      rcases List.mem_cons.mp hi with rfl | hi
      · exact ⟨w, w₁, hw⟩
      · exact ih h hi

theorem item_mem_items {ss : List Section} {s : Section} (hs : s ∈ ss) {i : Item}
    (hi : i ∈ s.items) : i ∈ items ss ++ [Item.close] := by
  have hmem : i ∈ ss.flatMap fun s => s.items ++ [Item.close] :=
    List.mem_flatMap.mpr ⟨s, hs, List.mem_append_left _ hi⟩
  rwa [← items_close (List.ne_nil_of_mem hs)] at hmem

theorem emitted_all (env : Env) (tgt : TargetOutput) {ts : List Token} {c : Compiler}
    (hacc : compile ts = some c) {d : Drain} (hd : output env tgt c.parser = .ok d) :
    d.writer.emitted = (sections ts).flatMap (Section.constants tgt) := by
  obtain ⟨nodes', hout⟩ := output_eq hacc env tgt
  have hranged := (built_compile hacc).ranged
  rw [hd] at hout
  rcases drainItems_emitted env tgt .init (items (sections ts) ++ [.close]) with
    ⟨w, hok, hem⟩ | ⟨e, es, herr, -, -⟩
  · rw [hok] at hout
    obtain rfl := Except.ok.inj hout
    rw [items_constants tgt hranged] at hem
    refine hem.trans (List.flatMap_congr fun s hs => ?_)
    rw [Section.allowed, List.filter_eq_self]
    intro k hk
    obtain ⟨i, hi, rfl⟩ := List.mem_mapIdx.mp hk
    obtain ⟨b, hb⟩ := hranged s hs (List.ne_nil_of_length_pos (Nat.zero_lt_of_lt hi))
    have hitem : s.item i s.commands[i] ∈ s.items :=
      List.mem_cons_of_mem _ (List.mem_mapIdx.mpr ⟨i, hi, rfl⟩)
    obtain ⟨w₁, w₂, hstep⟩ := drainItems_ok hok (item_mem_items hs hitem)
    simp only [itemStep, Section.item, cmdText_eq tgt hb] at hstep
    split at hstep
    · cases hstep
    · rename_i hslt
      simpa using hslt
  · rw [herr] at hout
    cases hout

/-- The numbers of every range are those of a section below the sign bit. -/
def RangesInBounds (ss : List Section) : Prop :=
  ∀ s ∈ ss, ∀ l r : Digits, s.range = some (l, r) →
    1 ≤ l.value ∧ l.value ≤ r.value ∧ r.value ≤ 30

/-- No bit is in the ranges of two sections. -/
def RangesDisjoint (ss : List Section) : Prop :=
  ss.Pairwise fun s s' => ∀ l r l' r' : Digits, s.range = some (l, r) → s'.range = some (l', r') →
    r.value < l'.value ∨ r'.value < l.value

section Definition
variable {tgt : TargetOutput} {ss : List Section}

/-- The section of a constant, with its range. -/
theorem allowed_section (hranged : Ranged ss) (hbits : RangesInBounds ss)
    (hlen : ∀ s ∈ ss, s.commands.length < 2 ^ 30) {s : Section} (hs : s ∈ ss) {k : Constant}
    (hk : k ∈ s.allowed tgt) :
    ∃ l r : Digits, s.range = some (l, r) ∧ k.range = rangeText l r ∧
      k.name ∈ s.commands.map (fun c => tgt.rename c.name) ∧
      k.response = responseId k.request ∧
      2 ^ (l.value - 1) ≤ k.request.toNat ∧ k.request.toNat ≤ 2 ^ r.value - 1 ∧
      1 ≤ l.value ∧ r.value ≤ 30 := by
  obtain ⟨i, hi, hik⟩ := List.mem_mapIdx.mp (List.mem_filter.mp hk).1
  obtain ⟨⟨l, r⟩, hb⟩ := hranged s hs (List.ne_nil_of_length_pos (Nat.zero_lt_of_lt hi))
  obtain ⟨hl, hlr, hr⟩ := hbits s hs l r hb
  obtain ⟨hlow, hhigh⟩ := allowed_range hb hl hlr hr (hlen s hs) hk
  refine ⟨l, r, hb, ?_, ?_, ?_, hlow, hhigh, hl, hr⟩
  · rw [← hik]
    simp [Section.constant, Section.rangeText, hb]
  · rw [← hik]
    exact List.mem_map.mpr ⟨s.commands[i], List.getElem_mem hi, rfl⟩
  · rw [← hik]
    rfl

theorem allowed_pairwise (tgt : TargetOutput) (hranged : Ranged ss) (hbits : RangesInBounds ss)
    (hlen : ∀ s ∈ ss, s.commands.length < 2 ^ 30) (hdisj : RangesDisjoint ss) :
    (ss.flatMap (Section.allowed tgt)).Pairwise fun k k' => k.request ≠ k'.request := by
  rw [List.pairwise_flatMap]
  refine ⟨fun s hs => allowed_distinct (hlen s hs), ?_⟩
  refine List.Pairwise.imp_of_mem ?_ hdisj
  intro s s' hs hs' hd k hk k' hk' heq
  obtain ⟨l, r, hb, -, -, -, hlow, hhigh, hl, -⟩ := allowed_section hranged hbits hlen hs hk
  obtain ⟨l', r', hb', -, -, -, hlow', hhigh', hl', -⟩ :=
    allowed_section hranged hbits hlen hs' hk'
  rw [heq] at hlow hhigh
  have hpos := Nat.two_pow_pos r.value
  have hpos' := Nat.two_pow_pos r'.value
  rcases hd l r l' r' hb hb' with hlt | hlt
  · have : 2 ^ r.value ≤ 2 ^ (l'.value - 1) := Nat.pow_le_pow_right (by decide) (by omega)
    omega
  · have : 2 ^ r'.value ≤ 2 ^ (l.value - 1) := Nat.pow_le_pow_right (by decide) (by omega)
    omega

end Definition

/-- The ids of a definition: however the run ends, every constant emitted belongs to a command of a
section and lies in that section's range with bit 31 clear, its response has that bit set, and no
two constants are equal; a run that ends well has emitted those of every command. -/
theorem ids_distinct (env : Env) (tgt : TargetOutput) (ts : List Token) (c : Compiler)
    (hacc : compile ts = some c) (hbits : RangesInBounds (sections ts))
    (hdisj : RangesDisjoint (sections ts))
    (hlen : ∀ s ∈ sections ts, s.commands.length < 2 ^ 30) :
    ((emitted (output env tgt c.parser)).map Constant.request).Nodup ∧
    ((emitted (output env tgt c.parser)).flatMap fun k => [k.request, k.response]).Nodup ∧
    (∀ k ∈ emitted (output env tgt c.parser), k.request.getLsbD 31 = false ∧
      k.response = k.request ||| 0x80000000#32 ∧
      ∃ s ∈ sections ts, ∃ l r : Digits, s.range = some (l, r) ∧ k.range = rangeText l r ∧
        k.name ∈ s.commands.map (fun c => tgt.rename c.name) ∧
        2 ^ (l.value - 1) ≤ k.request.toNat ∧ k.request.toNat ≤ 2 ^ r.value - 1) ∧
    ∀ d, output env tgt c.parser = .ok d →
      d.writer.emitted = (sections ts).flatMap (Section.constants tgt) := by
  have hranged := (built_compile hacc).ranged
  have hpre := emitted_prefix env tgt hacc
  have hpair := (allowed_pairwise tgt hranged hbits hlen hdisj).sublist hpre.sublist
  have hall : ∀ k ∈ emitted (output env tgt c.parser), ∃ s ∈ sections ts, k ∈ s.allowed tgt :=
    fun k hk => List.mem_flatMap.mp (hpre.subset hk)
  have hlow : ∀ k ∈ emitted (output env tgt c.parser),
      k.request.toNat < 2 ^ 31 ∧ k.response.toNat = k.request.toNat + 2 ^ 31 := by
    intro k hk
    obtain ⟨s, hs, hks⟩ := hall k hk
    obtain ⟨l, r, -, -, -, hresp, -, hhigh, -, hr⟩ := allowed_section hranged hbits hlen hs hks
    have hpow : 2 ^ r.value ≤ 2 ^ 30 := Nat.pow_le_pow_right (by decide) hr
    have hlt : k.request.toNat < 2 ^ 31 := by omega
    exact ⟨hlt, hresp ▸ responseId_toNat hlt⟩
  refine ⟨List.pairwise_map.mpr hpair, ?_, fun k hk => ⟨?_, ?_⟩,
    fun d hd => emitted_all env tgt hacc hd⟩
  · -- requests are below `2 ^ 31`, responses are not
    apply List.pairwise_flatMap.mpr
    refine ⟨fun k hk => ?_, ?_⟩
    · obtain ⟨hk, hresp⟩ := hlow k hk
      refine List.pairwise_pair.mpr fun heq => ?_
      have := congrArg BitVec.toNat heq
      omega
    · refine List.Pairwise.imp_of_mem ?_ hpair
      intro k k' hk hk' hne x hx y hy heq
      obtain ⟨hk, hresp⟩ := hlow k hk
      obtain ⟨hk', hresp'⟩ := hlow k' hk'
      have hnat : k.request.toNat ≠ k'.request.toNat := fun h => hne (BitVec.eq_of_toNat_eq h)
      have hxy := congrArg BitVec.toNat heq
      simp only [List.mem_cons, List.not_mem_nil, or_false] at hx hy
      rcases hx with rfl | rfl <;> rcases hy with rfl | rfl <;> omega
  · have := (hlow k hk).1
    rw [← BitVec.testBit_toNat]
    exact Nat.testBit_lt_two_pow this
  · obtain ⟨s, hs, hks⟩ := hall k hk
    obtain ⟨l, r, hb, hrange, hname, hresp, hlow, hhigh, -, -⟩ :=
      allowed_section hranged hbits hlen hs hks
    exact ⟨hresp, s, hs, l, r, hb, hrange, hname, hlow, hhigh⟩

/-- `[a][1-3]x;` and `[b][4-5]y;` in Go. -/
theorem ids_distinct_two_sections :
    ∃ ts c, compile ts = some c ∧
      ((emitted (output ⟨fun _ => true, fun _ => []⟩ goOutput c.parser)).map Constant.request).Nodup ∧
      (emitted (output ⟨fun _ => true, fun _ => []⟩ goOutput c.parser)).map Constant.request =
        [1#32, 8#32] := by
  let b : SeriesName := ⟨['b'], List.forall_mem_singleton.mpr (.inl rfl)⟩
  let y : CmdIdent := ⟨['y'], List.cons_ne_nil _ _, List.forall_mem_singleton.mpr (.inl rfl)⟩
  let ts : List Token := [⟨.fileName .a, 1, Nat.succ_pos 0⟩,
    ⟨.takeBits (.digit 1) (.digit 3), 1, Nat.succ_pos 0⟩, ⟨.cmdName .x 0, 2, Nat.succ_pos 1⟩,
    ⟨.fileName b, 3, Nat.succ_pos 2⟩, ⟨.takeBits (.digit 4) (.digit 5), 3, Nat.succ_pos 2⟩,
    ⟨.cmdName y 0, 4, Nat.succ_pos 3⟩]
  have hsections : sections ts = [⟨['a'], some (.digit 1, .digit 3), [⟨['x'], []⟩]⟩,
      ⟨['b'], some (.digit 4, .digit 5), [⟨['y'], []⟩]⟩] := by decide +kernel
  have hids : (compile ts).map (fun c => (emitted (output ⟨fun _ => true, fun _ => []⟩ goOutput
      c.parser)).map Constant.request) = some [1#32, 8#32] := by decide +kernel
  obtain ⟨c, hacc, hc⟩ := Option.map_eq_some_iff.mp hids
  refine ⟨ts, c, hacc, (ids_distinct _ _ ts c hacc ?_ ?_ (by rw [hsections]; decide)).1, hc⟩
  · rw [hsections]
    intro s hs l r hb
    rcases List.mem_cons.mp hs with rfl | hs
    · cases hb
      decide
    · rw [List.mem_singleton] at hs
      subst hs
      cases hb
      decide
  · rw [hsections]
    refine List.pairwise_pair.mpr fun l r l' r' hb hb' => ?_
    cases hb
    cases hb'
    decide

end DevFramework.CmdParser
