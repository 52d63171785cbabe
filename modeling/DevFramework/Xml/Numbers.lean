import DevFramework.Foundations.Buffers
import DevFramework.Foundations.Decimal
import DevFramework.Xml.Dom

/-! # 64-bit numbers in a document (`xml_t`, utility/parser/src/xml.cpp)

TinyXML is linked as a library: its calls are a parameter, and `Documented` is what tinyxml.h says
of them. A setter writes the number into a local array and hands that to TinyXML; a write past the
array has no result. Pointers are not null.
-/
namespace DevFramework.Xml
open Buffers Decimal
set_option autoImplicit false
set_option maxHeartbeats 250000

/-- What the accessors call on a node. `linkText` is `LinkEndChild(new TiXmlText(v))`. -/
structure TinyXml (σ : Type*) where
  type : σ → NodeType
  noChildren : σ → Bool
  getText : σ → Option Text
  linkText : σ → Text → σ
  attributeOf : σ → Text → Option Text
  setAttribute : σ → Text → Text → σ

/-- A text is linked behind the last child, `GetText` is the text of a first child that is one, and
an attribute has the value that it was set to. -/
structure TinyXml.Documented {σ : Type*} (tx : TinyXml σ) : Prop where
  type_linkText : ∀ e v, tx.type (tx.linkText e v) = tx.type e
  type_setAttribute : ∀ e a v, tx.type (tx.setAttribute e a v) = tx.type e
  getText_first : ∀ e v, tx.noChildren e = true → tx.getText (tx.linkText e v) = some v
  getText_behind : ∀ e v, tx.noChildren e = false → tx.getText (tx.linkText e v) = tx.getText e
  attributeOf_setAttribute : ∀ e a v, tx.attributeOf (tx.setAttribute e a v) a = some v

def nul : Char := Char.ofNat 0

/-- The quotation mark. -/
def quote : Char := Char.ofNat 34

/-- `_i64toa(v, buf, 10)`: the text and its NUL, written without a look at the array's length. -/
def i64toa (v : Int64) (buf : List Char) : Option (List Char) :=
  write buf 0 (decimal v.toInt ++ [nul])

/-- A number that has no 64 bits is cut off at the last that has. -/
def saturate (z : ℤ) : Int64 :=
  if z < -2 ^ 63 then Int64.minValue else if 2 ^ 63 ≤ z then Int64.maxValue else Int64.ofInt z

/-- `_atoi64`, and `atoll` where the number has 64 bits. -/
def atoi64 (str : Text) : Int64 := saturate (number str)

namespace Accessors
variable {σ : Type*} (tx : TinyXml σ)

/-- The outer `none` is the copy of -1 bytes that a text of a single quotation mark comes to. -/
def getString (node : σ) : Option (Option Text) :=
  if tx.type node ≠ .element then some none
  else
    match tx.getText node with
    | none => some none
    | some psrc =>
      let len := psrc.length
      if len = 0 then some none
      else if psrc.head? = some quote ∧ psrc.getLast? = some quote then
        if len = 1 then none else some (some ((psrc.drop 1).take (len - 2)))
      else some (some psrc)

def getInt64 (node : σ) (defval : Int64) : Option Int64 :=
  (getString tx node).map fun str =>
    match str with
    | some str => atoi64 str
    | none => defval

def getAttribute (node : σ) (attrN : Text) : Option Text :=
  if tx.type node ≠ .element then none
  else
    match tx.attributeOf node attrN with
    | none => none
    | some attr => if attr.length = 0 then none else some attr

def getAttributeInt64 (node : σ) (attrN : Text) (defval : Int64) : Int64 :=
  match getAttribute tx node attrN with
  | some str => atoi64 str
  | none => defval

def setString (node : σ) (v : Text) : σ :=
  if tx.type node ≠ .element then node else tx.linkText node v

def setAttribute (node : σ) (attrN v : Text) : σ :=
  if tx.type node ≠ .element then node else tx.setAttribute node attrN v

/-- The string in an array. -/
def bufText (buf : List Char) : Text := buf.takeWhile (· ≠ nul)

/-- `char buf[15] = {}`. -/
def setInt64 (node : σ) (v : Int64) : Option σ :=
  (i64toa v (List.replicate 15 nul)).map fun buf => setString tx node (bufText buf)

/-- `char buf[25] = {}`. -/
def setAttributeInt64 (node : σ) (attrN : Text) (v : Int64) : Option σ :=
  (i64toa v (List.replicate 25 nul)).map fun buf => setAttribute tx node attrN (bufText buf)

end Accessors

open Accessors

/-! ## The text of a number -/

theorem i64toa_text (v : Int64) {n : ℕ} (h : (decimal v.toInt).length + 1 ≤ n) :
    ∃ buf, i64toa v (List.replicate n nul) = some buf ∧ bufText buf = decimal v.toInt := by
  have hlen : (decimal v.toInt ++ [nul]).length ≤ (List.replicate n nul).length := by
    rw [List.length_append, List.length_singleton, List.length_replicate]
    exact h
  refine ⟨_, write_start _ _ hlen, ?_⟩
  have hchars : ∀ c ∈ decimal v.toInt, decide (c ≠ nul) = true := by
    intro c hc
    refine decide_eq_true fun hnul => ?_
    rw [hnul] at hc
    obtain hminus | hdigit := decimal_chars _ hc
    · cases hminus
    · cases hdigit
  rw [bufText, List.append_assoc, List.takeWhile_append_of_pos hchars, List.singleton_append,
    List.takeWhile_cons_of_neg (by simp), List.append_nil]

theorem i64toa_overruns (v : Int64) {n : ℕ} (h : n < (decimal v.toInt).length + 1) :
    i64toa v (List.replicate n nul) = none := by
  apply write_eq_none
  rw [List.length_append, List.length_singleton, List.length_replicate]
  omega

theorem atoi64_decimal (v : Int64) : atoi64 (decimal v.toInt) = v := by
  have hlow := v.le_toInt
  have hhigh := v.toInt_lt
  rw [atoi64, number_decimal, saturate, if_neg (by omega), if_neg (by omega), Int64.ofInt_toInt]

theorem decimal_ne_nil (v : ℤ) : (decimal v).length ≠ 0 := Nat.ne_of_gt (decimal_pos v)

/-- A sign, at most 19 digits and the NUL. -/
theorem decimal_length_le (v : Int64) : (decimal v.toInt).length + 1 ≤ 21 := by
  have hlow := v.le_toInt
  have hhigh := v.toInt_lt
  have hlen : (decimal v.toInt).length ≤ 19 + 1 := by
    rw [decimal_length_le_iff _ (by omega)]
    omega
  omega

section Node
variable {σ : Type*} {tx : TinyXml σ} {node : σ} {v : Int64}

theorem getString_decimal (htype : tx.type node = .element)
    (htext : tx.getText node = some (decimal v.toInt)) :
    getString tx node = some (some (decimal v.toInt)) := by
  have hquote : (decimal v.toInt).head? ≠ some quote := by
    intro hhead
    obtain hminus | hdigit := decimal_chars _ (List.mem_of_mem_head? hhead)
    · cases hminus
    · cases hdigit
  unfold getString
  rw [if_neg (not_not_intro htype), htext]
  simp only [decimal_ne_nil, if_false, hquote, false_and]

theorem setInt64_eq (htype : tx.type node = .element)
    (hfits : (decimal v.toInt).length + 1 ≤ 15) :
    setInt64 tx node v = some (tx.linkText node (decimal v.toInt)) := by
  obtain ⟨buf, hbuf, htext⟩ := i64toa_text v hfits
  rw [setInt64, hbuf, Option.map_some, htext, setString, if_neg (not_not_intro htype)]

/-- A number set on an element without children is read back. -/
theorem getInt64_setInt64 (htx : tx.Documented) (htype : tx.type node = .element)
    (hempty : tx.noChildren node = true) (hfits : (decimal v.toInt).length + 1 ≤ 15)
    (defval : Int64) : (setInt64 tx node v).bind (getInt64 tx · defval) = some v := by
  have hget := getString_decimal ((htx.type_linkText node _).trans htype)
    (htx.getText_first node (decimal v.toInt) hempty)
  rw [setInt64_eq htype hfits, Option.bind_some, getInt64, hget]
  exact congrArg some (atoi64_decimal v)

/-- Behind another child it is not. -/
theorem getInt64_behind (htx : tx.Documented) (htype : tx.type node = .element)
    (hchild : tx.noChildren node = false) (htext : getString tx node = some none)
    (hfits : (decimal v.toInt).length + 1 ≤ 15) (defval : Int64) :
    (setInt64 tx node v).bind (getInt64 tx · defval) = some defval := by
  have hget : getString tx (tx.linkText node (decimal v.toInt)) = some none := by
    rw [← htext, getString, getString, htx.type_linkText, htx.getText_behind node _ hchild]
  rw [setInt64_eq htype hfits, Option.bind_some, getInt64, hget, Option.map_some]

/-- A number set as an attribute of an element is read back. -/
theorem getAttributeInt64_set (htx : tx.Documented) (htype : tx.type node = .element)
    (attrN : Text) (defval : Int64) :
    (setAttributeInt64 tx node attrN v).map (getAttributeInt64 tx · attrN defval) = some v := by
  have hfits : (decimal v.toInt).length + 1 ≤ 25 := Nat.le_trans (decimal_length_le v) (by omega)
  obtain ⟨buf, hbuf, htext⟩ := i64toa_text v hfits
  have hset : setAttributeInt64 tx node attrN v =
      some (tx.setAttribute node attrN (decimal v.toInt)) := by
    rw [setAttributeInt64, hbuf, Option.map_some, htext, Accessors.setAttribute,
      if_neg (not_not_intro htype)]
  have hget : getAttribute tx (tx.setAttribute node attrN (decimal v.toInt)) attrN =
      some (decimal v.toInt) := by
    rw [getAttribute, htx.type_setAttribute, if_neg (not_not_intro htype),
      htx.attributeOf_setAttribute]
    exact if_neg (decimal_ne_nil _)
  rw [hset, Option.map_some, getAttributeInt64, hget]
  exact congrArg some (atoi64_decimal v)

end Node

/-! ## Both setters -/

/-- What was set as text and what was set as an attribute is read back, and the text of the number
fits the array of either setter. -/
structure NumberKept {σ : Type*} (tx : TinyXml σ) (node : σ) (attrN : Text) (v : Int64) : Prop where
  readBack : ∀ defval, (setInt64 tx node v).bind (getInt64 tx · defval) = some v
  attributeBack : ∀ defval,
    (setAttributeInt64 tx node attrN v).map (getAttributeInt64 tx · attrN defval) = some v
  textFits : (decimal v.toInt).length + 1 ≤ 15
  attributeFits : (decimal v.toInt).length + 1 ≤ 25

/-- Every 64-bit number on every element without text, with or without other children. -/
theorem number_kept_iff {σ : Type*} {tx : TinyXml σ} (htx : tx.Documented) {node : σ}
    (htype : tx.type node = .element) (htext : getString tx node = some none) (attrN : Text)
    (v : Int64) :
    NumberKept tx node attrN v ↔
      (-10 ^ 13 < v.toInt ∧ v.toInt < 10 ^ 14) ∧ tx.noChildren node = true := by
  have hlen : (decimal v.toInt).length + 1 ≤ 15 ↔ -10 ^ 13 < v.toInt ∧ v.toInt < 10 ^ 14 :=
    Nat.succ_le_succ_iff.trans (decimal_length_le_iff v.toInt (k := 13) (by omega))
  rw [← hlen]
  constructor
  · intro h
    refine ⟨h.textFits, ?_⟩
    cases hchild : tx.noChildren node with
    | true => rfl
    | false =>
      -- what is read back is the default, whatever that is
      have hdefault : ∀ defval, v = defval := fun defval => Option.some.inj
        ((h.readBack defval).symm.trans
          (getInt64_behind htx htype hchild htext h.textFits defval))
      exact absurd ((hdefault 0).symm.trans (hdefault 1)) (by decide)
  · rintro ⟨hfits, hempty⟩
    exact ⟨fun defval => getInt64_setInt64 htx htype hempty hfits defval,
      fun defval => getAttributeInt64_set htx htype attrN defval, hfits,
      Nat.le_trans (decimal_length_le v) (by omega)⟩

/-! ## An element -/

/-- An element with its children, of which a text has a string, and its attributes. -/
structure Element where
  children : List (Option Text)
  attributes : List (Text × Text)
  deriving DecidableEq, Repr

def elementXml : TinyXml Element where
  type _ := .element
  noChildren e := e.children.isEmpty
  getText e := e.children.head?.join
  linkText e v := { e with children := e.children ++ [some v] }
  attributeOf e a := e.attributes.lookup a
  setAttribute e a v := { e with attributes := (a, v) :: e.attributes }

theorem elementXml_documented : elementXml.Documented where
  type_linkText _ _ := rfl
  type_setAttribute _ _ _ := rfl
  getText_first e v he := by
    have hnil : e.children = [] := List.isEmpty_iff.mp he
    simp [elementXml, hnil]
  getText_behind e v he := by
    have hne : e.children ≠ [] := fun hnil => by
      simp [elementXml, hnil] at he
    obtain ⟨c, cs, hcons⟩ := List.exists_cons_of_ne_nil hne
    simp [elementXml, hcons]
  attributeOf_setAttribute e a v := by simp [elementXml]

/-- Fourteen digits are kept. -/
theorem number_kept_fourteen : NumberKept elementXml ⟨[], []⟩ ['a'] 99999999999999 :=
  (number_kept_iff elementXml_documented rfl rfl ['a'] 99999999999999).mpr ⟨by decide, rfl⟩

/-- Fifteen digits and a NUL are written over the end of an array of fifteen. -/
theorem number_overruns : setInt64 elementXml ⟨[], []⟩ 100000000000000 = none ∧
    ¬ NumberKept elementXml ⟨[], []⟩ ['a'] 100000000000000 := by
  have hlong : ¬ (decimal (100000000000000 : Int64).toInt).length + 1 ≤ 15 := by decide
  refine ⟨?_, fun h => hlong h.textFits⟩
  rw [setInt64, i64toa_overruns _ (Nat.lt_of_not_le hlong), Option.map_none]

end DevFramework.Xml
