import DevFramework.Json.CJSon

/-! # Sound documents

Every link of an item leads to an item of the document, and `next` to one made later. So the walks
over the children of an item end, and an added item becomes the last child. The builder keeps this,
and all its handles are null or items of the document.
-/
namespace DevFramework.Json
set_option autoImplicit false
set_option maxHeartbeats 250000

variable {ν : Type}

/-- The links of the item at `a` stay below `m`, and `next` goes on. -/
structure Item.Below (i : Item ν) (a m : ℕ) : Prop where
  next : ∀ n, i.next = some n → a < n ∧ n < m
  prev : ∀ n, i.prev = some n → n < m
  child : ∀ n, i.child = some n → n < m

theorem Item.Below.mono {i : Item ν} {a m m' : ℕ} (hi : i.Below a m) (hm : m ≤ m') :
    i.Below a m' where
  next n hn := ⟨(hi.next n hn).1, Nat.lt_of_lt_of_le (hi.next n hn).2 hm⟩
  prev n hn := Nat.lt_of_lt_of_le (hi.prev n hn) hm
  child n hn := Nat.lt_of_lt_of_le (hi.child n hn) hm

namespace Heap
variable {h H H' : Heap ν} {c : Option ℕ} {l : List ℕ} {p m last item : ℕ}

def Sound (h : Heap ν) : Prop := ∀ a < h.fresh, (h.mem a).Below a h.fresh

theorem modify_mem (h : Heap ν) (p a : ℕ) (f : Item ν → Item ν) :
    (h.modify p f).mem a = if a = p then f (h.mem p) else h.mem a := by
  simp [modify, Function.update_apply]

@[simp] theorem suffixObject_fresh (h : Heap ν) (prev item : ℕ) :
    (h.suffixObject prev item).fresh = h.fresh := rfl

theorem suffixObject_mem (h : Heap ν) (prev item a : ℕ) :
    (h.suffixObject prev item).mem a =
      { h.mem a with
        next := if a = prev then some item else (h.mem a).next
        prev := if a = item then some prev else (h.mem a).prev } := by
  simp only [suffixObject, modify_mem]
  split <;> split <;> simp_all

theorem below_child {a n : ℕ} (hb : (h.mem a).Below a m) (hn : n < m) :
    ((h.modify p fun i => { i with child := some n }).mem a).Below a m := by
  rw [modify_mem]
  split
  · rename_i heq
    subst heq
    exact ⟨hb.next, hb.prev, fun k hk => Option.some.inj hk ▸ hn⟩
  · exact hb

theorem below_suffix {a : ℕ} (hb : (h.mem a).Below a m) (hlt : last < item) (hm : item < m) :
    ((h.suffixObject last item).mem a).Below a m := by
  refine ⟨fun k hk => ?_, fun k hk => ?_, fun k hk => ?_⟩
  · simp only [suffixObject_mem] at hk
    split at hk
    · obtain rfl := Option.some.inj hk
      exact ⟨by omega, hm⟩
    · exact hb.next k hk
  · simp only [suffixObject_mem] at hk
    split at hk
    · obtain rfl := Option.some.inj hk
      exact Nat.lt_trans hlt hm
    · exact hb.prev k hk
  · simp only [suffixObject_mem] at hk
    exact hb.child k hk

/-! ## Walks along `next` -/

/-- From `c` along `next` lie the items `l`. -/
def Linked (h : Heap ν) : Option ℕ → List ℕ → Prop
  | c, [] => c = none
  | c, a :: l => c = some a ∧ Linked h (h.mem a).next l

theorem linked_chain {n : ℕ} (hl : h.Linked c l) (hn : l.length ≤ n) : h.chain n c = l := by
  induction l generalizing c n with
  | nil =>
    obtain rfl : c = none := hl
    cases n <;> rfl
  | cons a l ih =>
    obtain ⟨rfl, hl⟩ := hl
    obtain ⟨n, rfl⟩ : ∃ k, n = k + 1 := ⟨n - 1, by simp at hn; omega⟩
    rw [chain, ih hl (by simpa using hn)]

theorem lastOf_linked {n : ℕ} {a : ℕ} (hl : h.Linked (some a) l) (hn : l.length ≤ n) :
    h.lastOf n a = l.getLast? := by
  induction l generalizing a n with
  | nil => cases hl
  | cons b l ih =>
    obtain ⟨hab, hl⟩ := hl
    obtain rfl := Option.some.inj hab
    obtain ⟨n, rfl⟩ : ∃ k, n = k + 1 := ⟨n - 1, by simp at hn; omega⟩
    cases l with
    | nil =>
      have hnext : (h.mem a).next = none := hl
      simp [lastOf, hnext]
    | cons b l =>
      have hnext : (h.mem a).next = some b := hl.1
      rw [lastOf, hnext, List.getLast?_cons_cons]
      exact ih (hnext ▸ hl) (by simpa using hn)

theorem arrayItem_mem {n : ℕ} (hl : h.Linked c l) {a : ℕ} (ha : h.arrayItem n c = some a) :
    a ∈ l := by
  induction l generalizing c n with
  | nil =>
    obtain rfl : c = none := hl
    cases n <;> cases ha
  | cons b l ih =>
    obtain ⟨rfl, hl⟩ := hl
    cases n with
    | zero =>
      obtain rfl := Option.some.inj ha
      exact List.mem_cons_self
    | succ n => exact List.mem_cons_of_mem _ (ih hl ha)

/-- A search by name ends, at a child or at null. -/
theorem objectItem_mem {n : ℕ} (name : Text) (hl : h.Linked c l) (hn : l.length ≤ n) :
    ∃ r, h.objectItem name n c = some r ∧ ∀ a, r = some a → a ∈ l := by
  induction l generalizing c n with
  | nil =>
    obtain rfl : c = none := hl
    exact ⟨none, by cases n <;> rfl, nofun⟩
  | cons b l ih =>
    obtain ⟨rfl, hl⟩ := hl
    obtain ⟨n, rfl⟩ : ∃ k, n = k + 1 := ⟨n - 1, by simp at hn; omega⟩
    obtain ⟨r, hr, hmem⟩ := ih hl (n := n) (by simpa using hn)
    rw [objectItem]
    split
    · exact ⟨some b, rfl, fun a ha => Option.some.inj ha ▸ List.mem_cons_self⟩
    · exact ⟨r, hr, fun a ha => List.mem_cons_of_mem _ (hmem a ha)⟩

/-- The walk from an item meets later and later ones, so it ends. -/
theorem linked_below (hs : ∀ a < m, (h.mem a).Below a m) (hp : p < m) :
    ∃ l, h.Linked (some p) l ∧ (∀ a ∈ l, p ≤ a ∧ a < m) ∧ l.Pairwise (· < ·) ∧
      l.length + p ≤ m := by
  induction hd : m - p using Nat.strongRecOn generalizing p with
  | _ d ih =>
    cases hnext : (h.mem p).next with
    | none =>
      refine ⟨[p], ⟨rfl, hnext⟩, ?_, by simp, by simp; omega⟩
      intro a ha
      obtain rfl := List.mem_singleton.mp ha
      omega
    | some n =>
      obtain ⟨hpn, hnm⟩ := (hs p hp).next n hnext
      obtain ⟨l, hl, hmem, hpair, hlen⟩ := ih (m - n) (by omega) hnm rfl
      refine ⟨p :: l, ⟨rfl, hnext ▸ hl⟩, ?_, ?_, by simp; omega⟩
      · intro a ha
        rcases List.mem_cons.mp ha with rfl | ha
        · omega
        · have := hmem a ha
          omega
      · refine List.pairwise_cons.mpr ⟨fun a ha => ?_, hpair⟩
        have := hmem a ha
        omega

/-- The children of an item. -/
theorem linked_children (hs : ∀ a < m, (h.mem a).Below a m) (hp : p < m) :
    ∃ l, h.Linked (h.mem p).child l ∧ (∀ a ∈ l, a < m) ∧ l.Pairwise (· < ·) ∧ l.length ≤ m := by
  cases hchild : (h.mem p).child with
  | none => exact ⟨[], rfl, nofun, .nil, Nat.zero_le m⟩
  | some c =>
    obtain ⟨l, hl, hmem, hpair, hlen⟩ := linked_below hs ((hs p hp).child c hchild)
    exact ⟨l, hl, fun a ha => (hmem a ha).2, hpair, by omega⟩

theorem linked_congr (hl : h.Linked c l) (hnext : ∀ a ∈ l, (H.mem a).next = (h.mem a).next) :
    H.Linked c l := by
  induction l generalizing c with
  | nil => exact hl
  | cons a l ih =>
    obtain ⟨rfl, hl⟩ := hl
    refine ⟨rfl, ?_⟩
    rw [hnext a List.mem_cons_self]
    exact ih hl fun b hb => hnext b (List.mem_cons_of_mem _ hb)

/-- An item put behind the last one. -/
theorem linked_suffix (hl : h.Linked c l) (hpair : l.Pairwise (· < ·))
    (hlast : l.getLast? = some last) (hitem : item ∉ l) (hnext : (h.mem item).next = none) :
    (h.suffixObject last item).Linked c (l ++ [item]) := by
  induction l generalizing c with
  | nil => cases hlast
  | cons a l ih =>
    obtain ⟨rfl, hl⟩ := hl
    refine ⟨rfl, ?_⟩
    simp only [suffixObject_mem]
    cases l with
    | nil =>
      obtain rfl : a = last := Option.some.inj hlast
      have hne : item ≠ a := by simpa using hitem
      rw [if_pos rfl]
      exact ⟨rfl, by simpa [suffixObject_mem, hne, Linked] using hnext⟩
    | cons b l =>
      rw [List.getLast?_cons_cons] at hlast
      obtain ⟨hlt, hpair⟩ := List.pairwise_cons.mp hpair
      have hne : a ≠ last := by
        have := hlt last (List.mem_of_getLast? hlast)
        omega
      rw [if_neg hne]
      exact ih hl hpair hlast fun hin => hitem (List.mem_cons_of_mem _ hin)

/-! ## Making and adding items -/

/-- An item was made, alone or with its children; nothing made before has changed. -/
structure Makes (h : Heap ν) (r : ℕ × Heap ν) : Prop where
  item : r.1 = h.fresh
  grows : h.fresh < r.2.fresh
  keeps : ∀ a < h.fresh, r.2.mem a = h.mem a
  below : ∀ a, h.fresh ≤ a → a < r.2.fresh → (r.2.mem a).Below a r.2.fresh
  next : (r.2.mem h.fresh).next = none

theorem makes_newItem (h : Heap ν) {i : Item ν} (hnext : i.next = none) (hprev : i.prev = none)
    (hchild : i.child = none) : Makes h (h.newItem i) where
  item := rfl
  grows := Nat.lt_succ_self _
  keeps a ha := by simp [newItem, show a ≠ h.fresh by omega]
  below a ha ha' := by
    have ha : a = h.fresh := by simp only [newItem] at ha'; omega
    have hmem : (h.newItem i).2.mem a = i := by simp [newItem, ha]
    rw [hmem]
    exact ⟨by simp [hnext], by simp [hprev], by simp [hchild]⟩
  next := by simpa [newItem] using hnext

theorem Makes.sound {r : ℕ × Heap ν} (hm : Makes h r) (hs : h.Sound) : r.2.Sound := by
  intro a ha
  by_cases hold : a < h.fresh
  · rw [hm.keeps a hold]
    exact (hs a hold).mono (Nat.le_of_lt hm.grows)
  · exact hm.below a (by omega) ha

/-- One more item in an array that is being filled. -/
theorem Makes.link {p : Option ℕ} {n : ℕ} (hm : Makes h (h.fresh, H)) (hn : Makes H (n, H'))
    (hp : ∀ q, p = some q → h.fresh < q ∧ q < H.fresh) :
    Makes h (h.fresh, H'.linkItem h.fresh p n) := by
  have hgrows : h.fresh < H.fresh := hm.grows
  have hgrows' : H.fresh < H'.fresh := hn.grows
  obtain rfl : n = H.fresh := hn.item
  have hbelow : ∀ a, h.fresh ≤ a → a < H'.fresh → (H'.mem a).Below a H'.fresh := by
    intro a ha ha'
    by_cases hold : a < H.fresh
    · have hmem : H'.mem a = H.mem a := hn.keeps a hold
      rw [hmem]
      exact (hm.below a ha hold).mono (Nat.le_of_lt hgrows')
    · exact hn.below a (by omega) ha'
  have hkeeps : ∀ a < h.fresh, H'.mem a = h.mem a := fun a ha =>
    (hn.keeps a (by omega)).trans (hm.keeps a ha)
  have hnext : (H'.mem h.fresh).next = none := by
    have hmem : H'.mem h.fresh = H.mem h.fresh := hn.keeps _ hgrows
    rw [hmem]
    exact hm.next
  cases p with
  | none =>
    refine ⟨rfl, by simpa [linkItem] using by omega, fun a ha => ?_, fun a ha ha' => ?_, ?_⟩
    · rw [linkItem, modify_mem, if_neg (by omega), hkeeps a ha]
    · exact below_child (hbelow a ha ha') hgrows'
    · rw [linkItem, modify_mem, if_pos rfl]
      exact hnext
  | some q =>
    obtain ⟨hq, hq'⟩ := hp q rfl
    refine ⟨rfl, by simpa [linkItem] using by omega, fun a ha => ?_, fun a ha ha' => ?_, ?_⟩
    · have hne : a ≠ q := by omega
      have hne' : a ≠ H.fresh := by omega
      simp [linkItem, suffixObject, modify_mem, hne, hne', hkeeps a ha]
    · exact below_suffix (hbelow a ha ha') hq' hgrows'
    · simp only [linkItem, suffixObject_mem]
      rw [if_neg (by omega)]
      exact hnext

theorem makes_fillArray {α : Type} {create : Heap ν → α → ℕ × Heap ν}
    (hcreate : ∀ H v, Makes H (create H v)) (vs : List α) {p : Option ℕ}
    (hm : Makes h (h.fresh, H)) (hp : ∀ q, p = some q → h.fresh < q ∧ q < H.fresh) :
    Makes h (h.fresh, fillArray create h.fresh p vs H) := by
  induction vs generalizing p H with
  | nil => exact hm
  | cons v vs ih =>
    have hn := hcreate H v
    have hgrows : h.fresh < H.fresh := hm.grows
    have hfresh : ∀ r : ℕ × Heap ν, (r.2.linkItem h.fresh p r.1).fresh = r.2.fresh := by
      intro r
      cases p <;> rfl
    refine ih (hm.link hn hp) fun q hq => ?_
    obtain rfl := Option.some.inj hq
    rw [hfresh, hn.item]
    exact ⟨hgrows, hn.grows⟩

/-- A new item becomes the last child of an older one. -/
theorem addItemToArray_made (hs : h.Sound) (hm : Makes h (item, H)) (hp : p < h.fresh) :
    ∃ H', H.addItemToArray p item = some H' ∧ H'.Sound ∧ H'.fresh = H.fresh ∧
      H'.children p = h.children p ++ [item] ∧
      ∀ a, (H'.mem a).string = (H.mem a).string := by
  obtain ⟨l, hl, hmem, hpair, hlen⟩ := linked_children hs hp
  have hsound : H.Sound := hm.sound hs
  have hgrows : h.fresh < H.fresh := hm.grows
  obtain rfl : item = h.fresh := hm.item
  have hkeeps : H.mem p = h.mem p := hm.keeps p hp
  have hnext : (H.mem h.fresh).next = none := hm.next
  have hlH : H.Linked (h.mem p).child l := linked_congr hl fun a ha => by
    have hold : H.mem a = h.mem a := hm.keeps a (hmem a ha)
    rw [hold]
  have hold : h.children p = l := linked_chain hl hlen
  rw [hold]
  cases l with
  | nil =>
    have hchild : (h.mem p).child = none := hl
    have hadd : H.addItemToArray p h.fresh =
        some (H.modify p fun i => { i with child := some h.fresh }) := by
      simp [addItemToArray, hkeeps, hchild]
    have hne : h.fresh ≠ p := by omega
    refine ⟨_, hadd, fun a ha => below_child (hsound a ha) hgrows, rfl, ?_, fun a => ?_⟩
    · refine linked_chain ?_ (by simp; omega)
      rw [modify_mem_self]
      exact ⟨rfl, by rw [modify_mem_ne _ hne]; exact hnext⟩
    · rw [modify_mem]
      split
      · rename_i heq
        rw [heq]
      · rfl
  | cons c l =>
    have hchild : (h.mem p).child = some c := hl.1
    obtain ⟨last, hlast⟩ : ∃ last, (c :: l).getLast? = some last :=
      ⟨_, List.getLast?_eq_some_getLast (by simp)⟩
    have hlt : last < h.fresh := hmem last (List.mem_of_getLast? hlast)
    have hadd : H.addItemToArray p h.fresh = some (H.suffixObject last h.fresh) := by
      have hfind := lastOf_linked (n := H.fresh) (hchild ▸ hlH) (by omega)
      simp [addItemToArray, hkeeps, hchild, hfind, hlast]
    refine ⟨_, hadd, fun a ha => below_suffix (hsound a ha) hlt hgrows, rfl, ?_,
      fun a => by rw [suffixObject_mem]⟩
    refine linked_chain ?_ (by simp at hlen ⊢; omega)
    simp only [suffixObject_mem, hkeeps]
    refine linked_suffix hlH hpair hlast (fun hin => ?_) hnext
    have := hmem _ hin
    omega

/-- `add_item_to_object` of a new item. -/
theorem addItemToObject_made (hs : h.Sound) (hm : Makes h (item, H)) (hp : p < h.fresh)
    (name : Text) :
    ∃ H', H.addItemToObject (some p) name (some item) = some H' ∧ H'.Sound ∧
      H'.fresh = H.fresh ∧ H'.children p = h.children p ++ [item] ∧
      (H'.mem item).string = some name := by
  have hgrows : h.fresh < H.fresh := hm.grows
  obtain rfl : item = h.fresh := hm.item
  have hnamed : Makes h (h.fresh, H.modify h.fresh fun i => { i with string := some name }) := by
    refine ⟨rfl, hgrows, fun a ha => ?_, fun a ha ha' => ?_, ?_⟩
    · rw [modify_mem_ne _ (by omega)]
      exact hm.keeps a ha
    · have hbelow := hm.below a ha ha'
      rw [modify_mem]
      split
      · rename_i heq
        subst heq
        exact ⟨hbelow.next, hbelow.prev, hbelow.child⟩
      · exact hbelow
    · rw [modify_mem_self]
      exact hm.next
  obtain ⟨H', hadd, hsound, hfresh, hchildren, hstring⟩ := addItemToArray_made hs hnamed hp
  refine ⟨H', hadd, hsound, hfresh, hchildren, ?_⟩
  rw [hstring, modify_mem_self]

theorem makes_numberArray (h : Heap ν) (numbers : List ν) :
    Makes h (h.createNumberArray numbers) :=
  makes_fillArray (fun H _ => makes_newItem H rfl rfl rfl) numbers (makes_newItem h rfl rfl rfl)
    nofun

theorem makes_stringArray (h : Heap ν) (strings : List Text) :
    Makes h (h.createStringArray strings) :=
  makes_fillArray (fun H _ => makes_newItem H rfl rfl rfl) strings (makes_newItem h rfl rfl rfl)
    nofun

/-- Null or an item of the document. -/
def Holds (h : Heap ν) (ih : Option ℕ) : Prop := ∀ p, ih = some p → p < h.fresh

theorem Holds.mono {ih : Option ℕ} (hh : h.Holds ih) (hfresh : h.fresh ≤ H.fresh) : H.Holds ih :=
  fun p hp => Nat.lt_of_lt_of_le (hh p hp) hfresh

end Heap

/-! ## The cursor -/

structure CJSon.Within (x : CJSon) (h : Heap ν) : Prop where
  root : h.Holds x.root
  ih : h.Holds x.ih
  stack : ∀ ih ∈ x.stack, h.Holds ih

namespace CJSon
variable {h H : Heap ν} {x : CJSon}

theorem Within.mono (hx : x.Within h) (hfresh : h.fresh ≤ H.fresh) : x.Within H where
  root := hx.root.mono hfresh
  ih := hx.ih.mono hfresh
  stack ih hih := (hx.stack ih hih).mono hfresh

/-- A child found from the current item, with the current item saved. -/
theorem Within.push (hx : x.Within h) {a : Option ℕ} (ha : h.Holds a) :
    CJSon.Within { x with stack := x.ih :: x.stack, ih := a } h where
  root := hx.root
  ih := ha
  stack := by
    intro ih' hin
    rcases List.mem_cons.mp hin with rfl | hin
    · exact hx.ih
    · exact hx.stack ih' hin

/-- Every navigation call returns, and leads to an item of the document or to null. -/
theorem go_within (hs : h.Sound) (hx : x.Within h) (call : Nav) :
    ∃ x', x.go h call = some x' ∧ x'.Within h := by
  cases call with
  | getNextItem =>
    refine ⟨_, rfl, hx.root, fun p hp => ?_, hx.stack⟩
    obtain ⟨q, hq, hnext⟩ := Option.bind_eq_some_iff.mp hp
    exact ((hs q (hx.ih q hq)).next p hnext).2
  | getPrevItem =>
    refine ⟨_, rfl, hx.root, fun p hp => ?_, hx.stack⟩
    obtain ⟨q, hq, hprev⟩ := Option.bind_eq_some_iff.mp hp
    exact (hs q (hx.ih q hq)).prev p hprev
  | getSubItem =>
    refine ⟨_, rfl, ?_⟩
    cases hih : x.ih with
    | none =>
      have heq : x.getSubItem h = { x with ih := none } := by
        simp [getSubItem, Heap.getSubItem, hih]
      rw [heq]
      exact ⟨hx.root, nofun, hx.stack⟩
    | some q =>
      have hsub : h.Holds (h.getSubItem x.ih) := fun p hp => by
        obtain ⟨q, hq, hchild⟩ := Option.bind_eq_some_iff.mp hp
        exact (hs q (hx.ih q hq)).child p hchild
      have heq : x.getSubItem h = { x with stack := x.ih :: x.stack, ih := h.getSubItem x.ih } := by
        simp [getSubItem, hih]
      rw [heq]
      exact hx.push hsub
  | getItemFromName name =>
    cases hih : x.ih with
    | none =>
      refine ⟨_, by simp only [go, getItemFromName, Heap.getItemFromName, hih]; rfl, ?_⟩
      exact hih ▸ hx.push (a := none) nofun
    | some q =>
      cases name with
      | none =>
        refine ⟨_, by simp only [go, getItemFromName, Heap.getItemFromName, hih]; rfl, ?_⟩
        exact hih ▸ hx.push (a := none) nofun
      | some name =>
        obtain ⟨l, hl, hmem, -, hlen⟩ := Heap.linked_children hs (hx.ih q hih)
        obtain ⟨r, hr, hin⟩ := Heap.objectItem_mem name hl hlen
        refine ⟨_, by simp only [go, getItemFromName, Heap.getItemFromName, hih, hr]; rfl, ?_⟩
        exact hih ▸ hx.push fun p hp => hmem p (hin p hp)
  | getArrayItemFromPos pos =>
    refine ⟨_, rfl, hx.push fun p hp => ?_⟩
    unfold Heap.getArrayItemFromPos at hp
    split at hp
    · cases hp
    · rename_i q hq
      obtain ⟨l, hl, hmem, -⟩ := Heap.linked_children hs (hx.ih q hq)
      split at hp
      · cases hp
      · exact hmem p (Heap.arrayItem_mem hl hp)
  | toUpperLevel =>
    refine ⟨_, rfl, ?_⟩
    unfold toUpperLevel
    split
    · exact hx
    · rename_i ih stack hstack
      exact ⟨hx.root, hx.stack ih (by simp [hstack]),
        fun ih' hin => hx.stack ih' (by simp [hstack, hin])⟩
  | getRoot => exact ⟨_, rfl, hx.root, hx.root, nofun⟩

end CJSon

/-! ## The builder -/

/-- What `cJSON_Parse` makes: an item, and below it items linked in the order they are made. -/
def Parses (parse : Text → ℕ → Option (List (Item ν))) : Prop :=
  ∀ str start items, parse str start = some items →
    items ≠ [] ∧ ∀ (i : ℕ) (item : Item ν), items[i]? = some item →
      item.Below (start + i) (start + items.length)

/-- What a `set_` call makes, and under which name. -/
def Call.sets (h : Heap ν) : Call ν → Option (Text × ℕ × Heap ν)
  | .setDouble name v => some (name, h.createNumber v)
  | .setBool name v => some (name, h.createBool v)
  | .setString name (some v) => some (name, h.createString v)
  | .setNumberGroup name group => some (name, h.createNumberArray group)
  | .setStringGroup name group => some (name, h.createStringArray group)
  | _ => none

namespace Builder
variable {parse : Text → ℕ → Option (List (Item ν))} {b b' : Builder ν}

structure Sound (b : Builder ν) : Prop where
  heap : b.heap.Sound
  obj : b.obj.Within b.heap

theorem init_sound : (init : Builder ν).Sound where
  heap := fun a ha => absurd ha (Nat.not_lt_zero a)
  obj := ⟨nofun, nofun, nofun⟩

theorem step_sets (parse : Text → ℕ → Option (List (Item ν))) {call : Call ν} {name : Text}
    {r : ℕ × Heap ν} (hcall : call.sets b.heap = some (name, r)) :
    b.step parse call = b.setItem name r ∧ b.heap.Makes r := by
  cases call with
  | setDouble => cases hcall; exact ⟨rfl, Heap.makes_newItem _ rfl rfl rfl⟩
  | setBool => cases hcall; exact ⟨rfl, Heap.makes_newItem _ rfl rfl rfl⟩
  | setString name v =>
    cases v with
    | none => cases hcall
    | some v => cases hcall; exact ⟨rfl, Heap.makes_newItem _ rfl rfl rfl⟩
  | setNumberGroup => cases hcall; exact ⟨rfl, Heap.makes_numberArray _ _⟩
  | setStringGroup => cases hcall; exact ⟨rfl, Heap.makes_stringArray _ _⟩
  | _ => cases hcall

/-- A value that is set becomes the last child of the current item. -/
theorem setItem_made (name : Text) {r : ℕ × Heap ν} {p : ℕ} (hb : b.Sound) (hm : b.heap.Makes r)
    (hp : b.obj.ih = some p) :
    ∃ b', b.setItem name r = some b' ∧ b'.Sound ∧ b'.obj = b.obj ∧
      b'.heap.children p = b.heap.children p ++ [b.heap.fresh] ∧
      (b'.heap.mem b.heap.fresh).string = some name := by
  obtain ⟨item, H⟩ := r
  obtain ⟨H', hadd, hs, hfresh, hchildren, hname⟩ :=
    Heap.addItemToObject_made hb.heap hm (hb.obj.ih p hp) name
  have hgrows : b.heap.fresh < H.fresh := hm.grows
  obtain rfl : item = b.heap.fresh := hm.item
  refine ⟨{ b with heap := H' }, ?_, ⟨hs, hb.obj.mono ?_⟩, rfl, hchildren, hname⟩
  · rw [setItem, hp, hadd]
    rfl
  · change b.heap.fresh ≤ H'.fresh
    omega

theorem decodeFromStream_sound (hparse : Parses parse) (hb : b.Sound) (str : Option Text) :
    (b.decodeFromStream parse str).Sound := by
  unfold decodeFromStream
  split
  · exact ⟨hb.heap, nofun, nofun, hb.obj.stack⟩
  · rename_i items hitems
    obtain ⟨text, -, hitems⟩ := Option.bind_eq_some_iff.mp hitems
    obtain ⟨hne, hbelow⟩ := hparse text _ items hitems
    have hpos : 0 < items.length := List.length_pos_iff.mpr hne
    have hroot : ∀ p, some b.heap.fresh = some p → p < b.heap.fresh + items.length := by
      intro p hp
      obtain rfl := Option.some.inj hp
      omega
    refine ⟨fun a ha => ?_, hroot, hroot, fun ih hih p hp => ?_⟩
    · change a < b.heap.fresh + items.length at ha
      change (ite _ _ _ : Item ν).Below a (b.heap.fresh + items.length)
      split
      · rename_i hstart
        obtain ⟨i, rfl⟩ := Nat.exists_eq_add_of_le hstart
        have hi : i < items.length := by omega
        rw [Nat.add_sub_cancel_left, List.getElem?_eq_getElem hi]
        exact hbelow i _ (List.getElem?_eq_getElem hi)
      · exact (hb.heap a (by omega)).mono (by omega)
    · exact Nat.lt_of_lt_of_le (hb.obj.stack ih hih p hp) (Nat.le_add_right _ _)

/-- An item made where there was no current one. -/
theorem newItem_sound (hb : b.Sound) {r : ℕ × Heap ν} (hm : b.heap.Makes r) :
    Builder.Sound { heap := r.2, obj := { b.obj with root := some r.1, ih := some r.1 } } := by
  have hgrows := hm.grows
  have hitem : r.2.Holds (some r.1) := by
    intro p hp
    obtain rfl := Option.some.inj hp
    rw [hm.item]
    exact hgrows
  exact ⟨hm.sound hb.heap, hitem, hitem,
    fun ih hih => (hb.obj.stack ih hih).mono (Nat.le_of_lt hgrows)⟩

/-- A new item becomes the last child of the current one. -/
theorem add_made (hb : b.Sound) {r : ℕ × Heap ν} (hm : b.heap.Makes r) {name : Text} {H : Heap ν}
    (hadd : r.2.addItemToObject b.obj.ih name (some r.1) = some H) :
    H.Sound ∧ b.heap.fresh < H.fresh ∧ H.Holds (some r.1) := by
  cases hih : b.obj.ih with
  | none =>
    rw [hih] at hadd
    cases hadd
  | some p =>
    obtain ⟨H', hadd', hs, hfresh, -⟩ :=
      Heap.addItemToObject_made hb.heap hm (hb.obj.ih p hih) name
    rw [hih] at hadd
    obtain rfl : H' = H := Option.some.inj (hadd'.symm.trans hadd)
    have hgrows := hm.grows
    refine ⟨hs, by omega, fun q hq => ?_⟩
    obtain rfl := Option.some.inj hq
    rw [hm.item]
    omega

theorem step_sound (hparse : Parses parse) (hb : b.Sound) {call : Call ν}
    (hstep : b.step parse call = some b') : b'.Sound := by
  have hset : ∀ {name : Text} {r : ℕ × Heap ν}, call.sets b.heap = some (name, r) → b'.Sound := by
    intro name r hcall
    obtain ⟨heq, hm⟩ := step_sets parse hcall
    obtain ⟨H, hadd, rfl⟩ := Option.map_eq_some_iff.mp (heq.symm.trans hstep)
    obtain ⟨hs, hgrows, -⟩ := add_made hb hm hadd
    exact ⟨hs, hb.obj.mono (Nat.le_of_lt hgrows)⟩
  cases call with
  | nav call =>
    obtain ⟨x, hgo, rfl⟩ := Option.map_eq_some_iff.mp hstep
    obtain ⟨x', hgo', hx⟩ := CJSon.go_within hb.heap hb.obj call
    obtain rfl : x' = x := Option.some.inj (hgo'.symm.trans hgo)
    exact ⟨hb.heap, hx⟩
  | decodeFromStream str =>
    obtain rfl := Option.some.inj hstep
    exact decodeFromStream_sound hparse hb str
  | newRoot =>
    obtain rfl := Option.some.inj hstep
    unfold newRoot
    split
    · exact hb
    · exact newItem_sound hb (Heap.makes_newItem _ rfl rfl rfl)
  | newObject name =>
    obtain ⟨H, hadd, rfl⟩ := Option.map_eq_some_iff.mp hstep
    obtain ⟨hs, hgrows, hitem⟩ := add_made hb (Heap.makes_newItem _ rfl rfl rfl) hadd
    exact ⟨hs, (hb.obj.mono (Nat.le_of_lt hgrows)).push hitem⟩
  | newArray name =>
    obtain ⟨H, hadd, rfl⟩ := Option.map_eq_some_iff.mp hstep
    obtain ⟨hs, hgrows, hitem⟩ := add_made hb (Heap.makes_newItem _ rfl rfl rfl) hadd
    have hobj := hb.obj.mono (Nat.le_of_lt hgrows)
    exact ⟨hs, hobj.root, hitem, hobj.stack⟩
  | attachObject =>
    change b.attachObject = some b' at hstep
    unfold attachObject at hstep
    split at hstep
    · obtain rfl := Option.some.inj hstep
      exact newItem_sound hb (Heap.makes_newItem _ rfl rfl rfl)
    · rename_i p hp
      split at hstep
      · obtain ⟨H, hadd, rfl⟩ := Option.map_eq_some_iff.mp hstep
        have hm : b.heap.Makes b.heap.createObject := Heap.makes_newItem _ rfl rfl rfl
        obtain ⟨H', hadd', hs, hfresh, -⟩ :=
          Heap.addItemToArray_made hb.heap hm (hb.obj.ih p hp)
        obtain rfl : H' = H := Option.some.inj (hadd'.symm.trans hadd)
        have hgrows : b.heap.fresh < H'.fresh := hfresh ▸ hm.grows
        have hitem : H'.Holds (some b.heap.fresh) := fun q hq => Option.some.inj hq ▸ hgrows
        rw [← hp]
        exact ⟨hs, (hb.obj.mono (Nat.le_of_lt hgrows)).push hitem⟩
      · obtain rfl := Option.some.inj hstep
        exact hb
  | setString name v =>
    cases v with
    | none =>
      obtain rfl : b = b' := Option.some.inj hstep
      exact hb
    | some v => exact hset rfl
  | setDouble => exact hset rfl
  | setBool => exact hset rfl
  | setNumberGroup => exact hset rfl
  | setStringGroup => exact hset rfl

end Builder

end DevFramework.Json
