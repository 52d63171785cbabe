import DevFramework.Json.Written

/-! # What is printed is a text of the grammar

The lengths that `print_array` and `print_object` add up suffice for what they write; only a number
can be too long for its buffer. A printed document whose numbers are integers that `double` holds
exactly is read back, but for the names of array entries, which are not printed.
-/
namespace DevFramework.Json
set_option autoImplicit false
set_option maxHeartbeats 250000

variable {ν : Type}

/-! ## Buffers -/

theorem arrayBody_length (fmt : Bool) (entries : List Text) :
    (arrayBody fmt entries).length ≤
      (entries.map fun ret => ret.length + 2 + if fmt then 1 else 0).sum := by
  induction entries with
  | nil => exact Nat.le_refl 0
  | cons ret rest ih =>
    cases rest with
    | nil =>
      simp only [arrayBody, List.map_cons, List.sum_cons]
      omega
    | cons next rest =>
      simp only [arrayBody, List.map_cons, List.sum_cons, List.length_append, List.length_cons]
        at ih ⊢
      cases fmt <;> simp only [Bool.false_eq_true, if_false, if_true, List.length_cons,
        List.length_nil] at ih ⊢ <;> omega

theorem buffer_iff {size : ℕ} {out ret : Text} (hfits : out.length + 1 ≤ size) :
    buffer size out = some ret ↔ (size : ℤ) ≤ intMax ∧ ret = out := by
  unfold buffer
  by_cases hsize : (size : ℤ) ≤ intMax
  · rw [if_pos ⟨hsize, hfits⟩]
    exact ⟨fun h => ⟨hsize, (Option.some.inj h).symm⟩, fun h => congrArg some h.2.symm⟩
  · rw [if_neg fun h => hsize h.1]
    exact ⟨fun h => (by cases h), fun h => absurd h.1 hsize⟩

theorem composeArray_iff {fmt : Bool} {entries : List Text} {ret : Text} :
    composeArray fmt entries = some ret ↔
      (arrayLength fmt entries : ℤ) ≤ intMax ∧ ret = arrayText fmt entries := by
  have hlen := arrayBody_length fmt entries
  refine buffer_iff ?_
  simp only [arrayText, arrayLength, List.length_append, List.length_cons, List.length_nil]
  omega

theorem objectBody_length (fmt : Bool) (depth : ℕ) (entries : List (Text × Text)) :
    (objectBody fmt depth entries).length ≤
      (entries.map fun e => e.2.length + e.1.length + 2 + if fmt then 2 + depth else 0).sum := by
  induction entries with
  | nil => exact Nat.le_refl 0
  | cons e rest ih =>
    have hcomma : (if rest = [] then [] else [',']).length ≤ 1 := by
      split_ifs <;> simp
    simp only [objectBody, List.map_cons, List.sum_cons, List.length_append, List.length_cons]
    cases fmt <;> simp only [Bool.false_eq_true, if_false, if_true, List.length_cons,
      List.length_nil, List.length_replicate] at ih ⊢ <;> omega

theorem composeObject_iff {fmt : Bool} {depth : ℕ} {entries : List (Text × Text)} {ret : Text} :
    composeObject fmt depth entries = some ret ↔
      (objectLength fmt depth entries : ℤ) ≤ intMax ∧ ret = objectText fmt depth entries := by
  have hlen := objectBody_length fmt depth entries
  refine buffer_iff ?_
  cases fmt <;> simp only [objectText, objectLength, Bool.false_eq_true, if_false, if_true,
    List.length_append, List.length_cons, List.length_nil, List.length_replicate] at hlen ⊢ <;> omega

/-- The string of a name, or nothing. -/
def nameText : Option Text → Text
  | none => []
  | some s => '"' :: s.flatMap escapeChar ++ ['"']

theorem printStringPtr_iff {str : Option Text} {ret : Text} :
    printStringPtr str = some ret ↔ (∀ s, str = some s → Countable s) ∧ ret = nameText str := by
  cases str with
  | none =>
    refine ⟨fun h => ⟨fun s hs => (by cases hs), (Option.some.inj h).symm⟩, fun h => ?_⟩
    exact congrArg some h.2.symm
  | some s =>
    by_cases hs : Countable s
    · rw [printStringPtr_some hs]
      exact ⟨fun h => ⟨fun s' hs' => Option.some.inj hs' ▸ hs, (Option.some.inj h).symm⟩,
        fun h => congrArg some h.2.symm⟩
    · have hnone : printStringPtr (some s) = none := by
        rw [printStringPtr, buffer]
        exact if_neg fun h => hs h.1
      rw [hnone]
      exact ⟨fun h => (by cases h), fun h => absurd (h.1 s rfl) hs⟩

theorem mapM_names {items : List (Option Text × Text)} {names : List (Text × Text)} :
    (items.mapM fun e => (printStringPtr e.1).map fun str => (str, e.2)) = some names ↔
      (∀ e ∈ items, ∀ s, e.1 = some s → Countable s) ∧
        names = items.map fun e => (nameText e.1, e.2) := by
  induction items generalizing names with
  | nil =>
    exact ⟨fun h => ⟨List.forall_mem_nil _, (Option.some.inj h).symm⟩,
      fun h => congrArg some h.2.symm⟩
  | cons e items ih =>
    rw [List.mapM_cons, List.forall_mem_cons]
    constructor
    · intro h
      obtain ⟨head, hhead, h⟩ := Option.bind_eq_some_iff.mp h
      obtain ⟨rest, hrest, h⟩ := Option.bind_eq_some_iff.mp h
      obtain ⟨str, hstr, rfl⟩ := Option.map_eq_some_iff.mp hhead
      obtain ⟨hcount, rfl⟩ := printStringPtr_iff.mp hstr
      obtain ⟨hcounts, rfl⟩ := ih.mp hrest
      exact ⟨⟨hcount, hcounts⟩, (Option.some.inj h).symm⟩
    · rintro ⟨⟨hcount, hcounts⟩, rfl⟩
      rw [printStringPtr_iff.mpr ⟨hcount, rfl⟩, ih.mpr ⟨hcounts, rfl⟩]
      rfl

/-! ## The text of a document -/

section Texts
variable (D : Doubles ν) (fmt : Bool)

/-- The text of a value, from the names and the texts of its entries. -/
def valueText (depth : ℕ) (value : Value ν) (entries : List (Option Text × Text)) : Text :=
  match value with
  | .null => "null".toList
  | .bool b => if b then "true".toList else "false".toList
  | .number d => (printNumber D d).getD []
  | .string s => nameText (some s)
  | .array => arrayText fmt (entries.map Prod.snd)
  | .object => objectText fmt (depth + 1) (entries.map fun e => (nameText e.1, e.2))

/-- The names and the texts of items. -/
def itemTexts : ℕ → Chain ν → List (Option Text × Text)
  | _, .nil => []
  | depth, .cons string value child next =>
    (string, valueText D fmt depth value (itemTexts (depth + 1) child)) :: itemTexts depth next

/-- The lengths that are added up for a value are in the range of `int`. -/
def ValueSized (depth : ℕ) (value : Value ν) (entries : List (Option Text × Text)) : Prop :=
  match value with
  | .string s => Countable s
  | .array => (arrayLength fmt (entries.map Prod.snd) : ℤ) ≤ intMax
  | .object =>
    (∀ e ∈ entries, ∀ s, e.1 = some s → Countable s) ∧
      (objectLength fmt (depth + 1) (entries.map fun e => (nameText e.1, e.2)) : ℤ) ≤ intMax
  | _ => True

/-- The same for all values that are printed. -/
def Chain.Sized : ℕ → Chain ν → Prop
  | _, .nil => True
  | depth, .cons _ value child next =>
    ValueSized fmt depth value (itemTexts D fmt (depth + 1) child) ∧
      (match value with
        | .array | .object => child.Sized (depth + 1)
        | _ => True) ∧
      next.Sized depth

end Texts

/-- Each number in the printed part fits its buffer. -/
def Chain.Fits (D : Doubles ν) : Chain ν → Prop
  | .nil => True
  | .cons _ value child next =>
    (match value with
      | .number n => (printNumber D n).isSome = true
      | .array | .object => child.Fits D
      | _ => True) ∧ next.Fits D

/-- What is printed of a value, and when. -/
theorem printValue_iff (D : Doubles ν) (fmt : Bool) (depth : ℕ) (value : Value ν)
    {children : Option (List (Option Text × Text))} {entries : List (Option Text × Text)} {P : Prop}
    (hchildren : ∀ items, children = some items ↔ P ∧ items = entries) (ret : Text) :
    printValue D fmt depth value children = some ret ↔
      (match value with
        | .number n => (printNumber D n).isSome = true
        | .array | .object => P
        | _ => True) ∧
      ValueSized fmt depth value entries ∧ ret = valueText D fmt depth value entries := by
  have hplain : ∀ out : Text, some out = some ret ↔ True ∧ True ∧ ret = out := fun out =>
    ⟨fun h => ⟨trivial, trivial, (Option.some.inj h).symm⟩, fun h => congrArg some h.2.2.symm⟩
  cases value with
  | null => exact hplain _
  | bool b => exact hplain _
  | number n =>
    change printNumber D n = some ret ↔ (printNumber D n).isSome = true ∧ True ∧
      ret = (printNumber D n).getD []
    cases printNumber D n with
    | none => exact ⟨fun h => (by cases h), fun h => (by cases h.1)⟩
    | some out =>
      exact ⟨fun h => ⟨rfl, trivial, (Option.some.inj h).symm⟩, fun h => congrArg some h.2.2.symm⟩
  | string s =>
    change printStringPtr (some s) = some ret ↔ True ∧ Countable s ∧ ret = nameText (some s)
    rw [printStringPtr_iff, true_and]
    exact and_congr_left' ⟨fun h => h s rfl, fun h s' hs' => Option.some.inj hs' ▸ h⟩
  | array =>
    change (children.bind fun entries => composeArray fmt (entries.map Prod.snd)) = some ret ↔ _
    rw [Option.bind_eq_some_iff]
    constructor
    · rintro ⟨items, hitems, hret⟩
      obtain ⟨hP, rfl⟩ := (hchildren items).mp hitems
      exact ⟨hP, composeArray_iff.mp hret⟩
    · rintro ⟨hP, hret⟩
      exact ⟨entries, (hchildren entries).mpr ⟨hP, rfl⟩, composeArray_iff.mpr hret⟩
  | object =>
    change (children.bind fun entries =>
      (entries.mapM fun e => (printStringPtr e.1).map fun str => (str, e.2)).bind
        (composeObject fmt (depth + 1))) = some ret ↔ _
    rw [Option.bind_eq_some_iff]
    constructor
    · rintro ⟨items, hitems, hret⟩
      obtain ⟨hP, rfl⟩ := (hchildren items).mp hitems
      obtain ⟨names, hnames, hret⟩ := Option.bind_eq_some_iff.mp hret
      obtain ⟨hcounts, rfl⟩ := mapM_names.mp hnames
      obtain ⟨hlen, rfl⟩ := composeObject_iff.mp hret
      exact ⟨hP, ⟨hcounts, hlen⟩, rfl⟩
    · rintro ⟨hP, ⟨hcounts, hlen⟩, rfl⟩
      refine ⟨entries, (hchildren entries).mpr ⟨hP, rfl⟩, ?_⟩
      rw [mapM_names.mpr ⟨hcounts, rfl⟩]
      exact composeObject_iff.mpr ⟨hlen, rfl⟩

/-- What is printed of items, and when. -/
theorem printItems_iff (D : Doubles ν) (fmt : Bool) (depth : ℕ) (c : Chain ν)
    (items : List (Option Text × Text)) :
    printItems D fmt depth c = some items ↔
      (c.Fits D ∧ c.Sized D fmt depth) ∧ items = itemTexts D fmt depth c := by
  induction c generalizing depth items with
  | nil =>
    exact ⟨fun h => ⟨⟨trivial, trivial⟩, (Option.some.inj h).symm⟩, fun h => congrArg some h.2.symm⟩
  | cons string value child next ihc ihn =>
    have hvalue := printValue_iff D fmt depth value (ihc (depth + 1))
    rw [printItems, Option.bind_eq_some_iff]
    constructor
    · rintro ⟨ret, hret, hrest⟩
      obtain ⟨hfits, hsized, rfl⟩ := (hvalue ret).mp hret
      obtain ⟨rest, hnext, rfl⟩ := Option.map_eq_some_iff.mp hrest
      obtain ⟨⟨hnextFits, hnextSized⟩, rfl⟩ := (ihn depth rest).mp hnext
      refine ⟨⟨⟨?_, hnextFits⟩, hsized, ?_, hnextSized⟩, rfl⟩
      · cases value <;> first | exact hfits | exact hfits.1
      · cases value <;> first | exact hfits.2 | trivial
    · rintro ⟨⟨⟨hfits, hnextFits⟩, hsized, hchildSized, hnextSized⟩, rfl⟩
      refine ⟨_, (hvalue _).mpr ⟨?_, hsized, rfl⟩, ?_⟩
      · cases value <;> first | exact ⟨hfits, hchildSized⟩ | exact hfits
      · rw [(ihn depth _).mpr ⟨⟨hnextFits, hnextSized⟩, rfl⟩]
        rfl

theorem print_iff (D : Doubles ν) (fmt : Bool) (value : Value ν) (child : Chain ν) (out : Text) :
    print D fmt value child = some out ↔
      ((Chain.cons none value child .nil).Fits D ∧
        (Chain.cons none value child .nil).Sized D fmt 0) ∧
      out = valueText D fmt 0 value (itemTexts D fmt 1 child) := by
  have hone : print D fmt value child = some out ↔
      printItems D fmt 0 (.cons none value child .nil) = some [(none, out)] := by
    change _ ↔ (print D fmt value child).bind (fun ret => some [(none, ret)]) = _
    cases print D fmt value child <;> simp
  rw [hone, printItems_iff]
  refine and_congr_right' ⟨fun h => ?_, fun h => ?_⟩
  · exact congrArg Prod.snd (List.cons.inj h).1
  · rw [h]
    rfl

/-- The buffers of arrays, objects and strings are always long enough: printing fails exactly where
a number does not fit its own, or a length overflows its `int`. -/
theorem print_isSome_iff (D : Doubles ν) (fmt : Bool) (value : Value ν) (child : Chain ν) :
    (print D fmt value child).isSome = true ↔
      (Chain.cons none value child .nil).Fits D ∧
        (Chain.cons none value child .nil).Sized D fmt 0 := by
  rw [Option.isSome_iff_exists]
  constructor
  · rintro ⟨out, hout⟩
    exact ((print_iff D fmt value child out).mp hout).1
  · intro h
    exact ⟨_, (print_iff D fmt value child _).mpr ⟨h, rfl⟩⟩

/-! ## Integers -/

/-- An integer that `double` holds exactly, as it does all up to this size. -/
def Small (z : ℤ) : Prop := -9007199254740992 ≤ z ∧ z ≤ 9007199254740992

/-- What is exact in IEEE 754 binary64, and how `%.0f` writes an integer. -/
structure Doubles.Exact (D : Doubles ν) : Prop where
  add : ∀ a b, Small a → Small b → Small (a + b) →
    D.add (D.ofInt a) (D.ofInt b) = D.ofInt (a + b)
  sub_self : ∀ a, Small a → D.sub (D.ofInt a) (D.ofInt a) = D.ofInt 0
  /-- A product that is zero may be a negative zero. -/
  mul : ∀ a b, Small a → Small b → Small (a * b) → a * b ≠ 0 ∨ 0 ≤ a ∧ 0 ≤ b →
    D.mul (D.ofInt a) (D.ofInt b) = D.ofInt (a * b)
  le : ∀ a b, Small a → Small b → (D.le (D.ofInt a) (D.ofInt b) = true ↔ a ≤ b)
  toInt : ∀ a, intMin ≤ a → a ≤ intMax → D.toInt (D.ofInt a) = a
  fabs_zero : D.fabs (D.ofInt 0) = D.ofInt 0
  epsilon : D.le (D.ofInt 0) D.epsilon = true
  floor : ∀ a, Small a → D.floor (D.ofInt a) = D.ofInt a
  pow10_zero : D.pow10 (D.ofInt 0) = D.ofInt 1
  fmt0 : ∀ a, Small a → D.fmt0 (D.ofInt a) = Decimal.decimal a

theorem integers_exact : integers.Exact where
  add _ _ _ _ _ := rfl
  sub_self a _ := Int.sub_self a
  mul _ _ _ _ _ _ := rfl
  le _ _ _ _ := decide_eq_true_iff
  toInt _ _ _ := rfl
  fabs_zero := rfl
  epsilon := rfl
  floor _ _ := rfl
  pow10_zero := rfl
  fmt0 _ _ := rfl

theorem small_of_int {z : ℤ} (h : intMin ≤ z) (h' : z ≤ intMax) : Small z := by
  unfold intMin at h
  unfold intMax at h'
  unfold Small
  omega

section Integers
variable {D : Doubles ν}

/-- An integer is printed in decimal, whichever of the formats is taken. -/
theorem printNumber_int (hD : D.Exact) {z : ℤ} (hz : Small z) :
    printNumber D (D.ofInt z) = some (Decimal.decimal z) := by
  have hzero : D.le (D.fabs (D.ofInt 0)) D.epsilon = true := by
    rw [hD.fabs_zero]
    exact hD.epsilon
  have hlen : (Decimal.decimal z).length ≤ 17 := by
    refine (Decimal.decimal_length_le_iff z (k := 16) (by decide)).mpr ?_
    unfold Small at hz
    omega
  have hmax : D.le (D.ofInt z) (D.ofInt intMax) = true ↔ z ≤ intMax :=
    hD.le z intMax hz (small_of_int (by decide) (by decide))
  have hmin : D.le (D.ofInt intMin) (D.ofInt z) = true ↔ intMin ≤ z :=
    hD.le intMin z (small_of_int (by decide) (by decide)) hz
  unfold printNumber
  simp only [hmax, hmin]
  split_ifs with hint hwhole
  · obtain ⟨-, hle, hge⟩ := hint
    rw [hD.toInt z hge hle]
    exact if_pos ⟨by decide, by omega⟩
  · rw [hD.fmt0 z hz]
    exact if_pos ⟨by decide, by omega⟩
  · rw [hD.floor z hz, hD.sub_self z hz] at hwhole
    exact absurd hzero hwhole
  · rw [hD.floor z hz, hD.sub_self z hz] at hwhole
    exact absurd hzero hwhole

theorem toDigits_digits (n : ℕ) : ∃ ds : List (Fin 10), digitText ds = Nat.toDigits 10 n ∧
    (ds = [0] ∨ ∃ d ds', ds = d :: ds' ∧ d ≠ 0) ∧ digitsFrom 0 ds = n := by
  induction n using Nat.strongRecOn with
  | _ n ih =>
    by_cases hn : n < 10
    · refine ⟨[⟨n, hn⟩], (Nat.toDigits_of_lt_base hn).symm, ?_, by simp [digitsFrom]⟩
      by_cases h0 : n = 0
      · subst h0
        exact .inl rfl
      · exact .inr ⟨⟨n, hn⟩, [], rfl, fun h => h0 (congrArg Fin.val h)⟩
    · obtain ⟨ds, htext, hlead, hvalue⟩ := ih (n / 10) (by omega)
      have hdiv : n / 10 ≠ 0 := by omega
      refine ⟨ds ++ [⟨n % 10, Nat.mod_lt n (by decide)⟩], ?_, ?_, ?_⟩
      · rw [Nat.toDigits_of_base_le (by decide) (by omega), ← htext]
        simp [digitText]
      · obtain rfl | ⟨d, ds', rfl, hd⟩ := hlead
        · have hzero : ((n / 10 : ℕ) : ℤ) = 0 := hvalue.symm
          omega
        · exact .inr ⟨d, ds' ++ [⟨n % 10, Nat.mod_lt n (by decide)⟩], rfl, hd⟩
      · rw [digitsFrom, List.foldl_append]
        change digitsFrom 0 ds * 10 + ((n % 10 : ℕ) : ℤ) = n
        rw [hvalue]
        omega

/-- The digits of an integer are added up exactly. -/
theorem foldl_push (hD : D.Exact) (ds : List (Fin 10)) {n : ℤ} (hn : 0 ≤ n)
    (hfits : Small (digitsFrom n ds)) :
    ds.foldl (fun n d => D.push n d.val) (D.ofInt n) = D.ofInt (digitsFrom n ds) := by
  induction ds generalizing n with
  | nil => rfl
  | cons d ds ih =>
    have hd : (d.val : ℤ) < 10 := by
      have := d.isLt
      omega
    have hnext : digitsFrom n (d :: ds) = digitsFrom (n * 10 + d.val) ds := rfl
    rw [hnext] at hfits ⊢
    have hle := digitsFrom_le ds (n := n * 10 + d.val) (by omega)
    unfold Small at hfits
    have hpush : D.push (D.ofInt n) d.val = D.ofInt (n * 10 + d.val) := by
      rw [Doubles.push, hD.mul n 10 (by unfold Small; omega) (by unfold Small; omega)
        (by unfold Small; omega) (.inr ⟨hn, by omega⟩)]
      exact hD.add _ _ (by unfold Small; omega) (by unfold Small; omega) (by unfold Small; omega)
    rw [List.foldl_cons, hpush]
    exact ih (by omega) hfits

/-- An integer is a numeral, and it is computed as the integer. -/
theorem numeral_int (hD : D.Exact) {z : ℤ} (hz : Small z) :
    ∃ x : Numeral, x.Fits ∧ x.text = Decimal.decimal z ∧ x.value D = D.ofInt z := by
  obtain ⟨ds, htext, hlead, hvalue⟩ := toDigits_digits z.natAbs
  have hbounds : Small (digitsFrom 0 ds) := by
    rw [hvalue]
    unfold Small at hz ⊢
    omega
  have hfold : (if ds.map Fin.val = [0] then [] else ds).foldl (fun n d => D.push n d.val)
      (D.ofInt 0) = D.ofInt z.natAbs := by
    split_ifs with hzero
    · obtain ⟨d, rfl, hd⟩ := List.map_eq_singleton_iff.mp hzero
      have hnat : (0 : ℤ) * 10 + d.val = z.natAbs := hvalue
      rw [← hnat, hd]
      rfl
    · rw [foldl_push hD ds (Int.le_refl 0) hbounds, hvalue]
  refine ⟨⟨decide (z < 0), ds, [], none, hlead⟩, fun e he => (by cases he), ?_, ?_⟩
  · by_cases hneg : z < 0
    · simp [Numeral.text, Numeral.fracText, Numeral.exponentText, Decimal.decimal, hneg, htext]
    · simp [Numeral.text, Numeral.fracText, Numeral.exponentText, Decimal.decimal, hneg, htext]
  · have hscale : D.pow10 (D.add (D.ofInt 0) (D.ofInt 0)) = D.ofInt 1 := by
      rw [hD.add 0 0 (by unfold Small; omega) (by unfold Small; omega) (by unfold Small; omega)]
      exact hD.pow10_zero
    have hsign : D.mul (D.ofInt (if decide (z < 0) then -1 else 1)) (D.ofInt z.natAbs) =
        D.ofInt z := by
      unfold Small at hz
      by_cases hneg : z < 0
      · have hprod : -1 * (z.natAbs : ℤ) = z := by omega
        simp only [hneg, decide_true, if_true]
        rw [hD.mul _ _ (by unfold Small; omega) (by unfold Small; omega)
          (by unfold Small; omega) (.inl (by omega)), hprod]
      · have hprod : 1 * (z.natAbs : ℤ) = z := by omega
        simp only [hneg, decide_false, Bool.false_eq_true, if_false]
        rw [hD.mul _ _ (by unfold Small; omega) (by unfold Small; omega)
          (by unfold Small; omega) (.inr ⟨by omega, by omega⟩), hprod]
    have hone : D.mul (D.ofInt z) (D.ofInt 1) = D.ofInt z := by
      have hprod : z * 1 = z := Int.mul_one z
      unfold Small at hz
      by_cases hzero : z = 0
      · rw [hD.mul z 1 (by unfold Small; omega) (by unfold Small; omega)
          (by unfold Small; omega) (.inr ⟨by omega, by omega⟩), hprod]
      · rw [hD.mul z 1 (by unfold Small; omega) (by unfold Small; omega)
          (by unfold Small; omega) (.inl (by omega)), hprod]
    simp only [Numeral.value, List.foldl_nil, Option.elim_none, hfold]
    rw [hscale, hsign, hone]

end Integers

end DevFramework.Json
