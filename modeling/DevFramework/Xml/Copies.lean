import DevFramework.Xml.Cursor

/-! # Copies of a `CXml` (utility/parser/src/xml.h)

`operator=` shares the document and takes the current node over. Of the cursor it assigns `fa_s_`
twice, the second time from the `fa_r_` of the object that is assigned to, and `fa_r_` never: the
copy goes on with both cells equal to what its own `fa_r_` was.
-/
namespace DevFramework.Xml
open DevFramework.Transition
set_option autoImplicit false
set_option maxHeartbeats 250000

/-! ## Navigation -/

/-- A `TiXmlDocument`: its nodes, the links that `Dom` has not, and what TinyXML answers for a
name. -/
structure Document where
  dom : Dom
  doc : Ptr
  last : Ptr → Option Ptr
  prev : Ptr → Option Ptr
  rootElement : Option Ptr
  firstChildNamed : Ptr → Text → Option Ptr
  lastChildNamed : Ptr → Text → Option Ptr
  prevNamed : Ptr → Text → Option Ptr
  nextNamed : Ptr → Text → Option Ptr

namespace Document
variable (d : Document)

/-- All but elements have no relatives for `xml_t`. -/
def onElement (node : Ptr) (r : Option Ptr) : Option Ptr :=
  if (d.dom node).type = .element then r else none

def getRoot : Option Ptr := d.rootElement

def getParent (node : Ptr) : Option Ptr := d.onElement node (d.dom node).parent

/-- A relative of an element: the nearest with the name, or the nearest if there is none to look
for. -/
def relative (named : Ptr → Text → Option Ptr) (any : Ptr → Option Ptr) (node : Ptr) :
    Option Text → Option Ptr
  | some nodeN => d.onElement node (named node nodeN)
  | none => d.onElement node (any node)

def firstChild : Ptr → Option Text → Option Ptr :=
  d.relative d.firstChildNamed fun node => (d.dom node).firstChild

def lastChild : Ptr → Option Text → Option Ptr := d.relative d.lastChildNamed d.last

def prevSibling : Ptr → Option Text → Option Ptr := d.relative d.prevNamed d.prev

def nextSibling : Ptr → Option Text → Option Ptr :=
  d.relative d.nextNamed fun node => (d.dom node).next

/-- The tree of a document with a root element: only elements have children, and TinyXML hands out
nodes of the tree. -/
structure Whole (F : Forest) : Prop where
  rooted : Rooted d.dom d.doc F
  document : (d.dom d.doc).type = .document
  top : (d.dom d.doc).parent = none
  alone : (d.dom d.doc).next = none
  inner : ∀ p ∈ F.nodes, (d.dom p).firstChild ≠ none → (d.dom p).type = .element
  root : ∃ r ∈ F.nodes, d.rootElement = some r ∧ (d.dom r).type = .element ∧
    (d.dom r).parent = some d.doc
  inside : ∀ p ∈ F.nodes, ∀ nodeN, ∀ o ∈ [d.last p, d.prev p, d.firstChildNamed p nodeN,
    d.lastChildNamed p nodeN, d.prevNamed p nodeN, d.nextNamed p nodeN],
    ∀ x, o = some x → x ∈ F.nodes

end Document

/-- `find_all` and the navigation calls of `CXml`. -/
inductive Method where
  | findAll (nodeN : Text)
  | firstChild (nodeN : Option Text)
  | lastChild (nodeN : Option Text)
  | prevSibling (nodeN : Option Text)
  | nextSibling (nodeN : Option Text)
  | getParent
  | getRoot
  deriving DecidableEq, Repr

namespace CXml

/-- `if(tmp) { cur_node_ = tmp; return true; } return false;` -/
def goTo (x : CXml) : Option Ptr → Bool × CXml
  | some tmp => (true, { x with curNode := some tmp })
  | none => (false, x)

/-- What a call returns, and the object after it; `get_parent` and `get_root` return the object. -/
def call (d : Document) (fuel : ℕ) (x : CXml) : Method → Except Fault (Bool × CXml)
  | .findAll nodeN => x.findAll d.dom fuel nodeN
  | .firstChild nodeN => .ok (x.goTo (x.curNode.bind fun node => d.firstChild node nodeN))
  | .lastChild nodeN => .ok (x.goTo (x.curNode.bind fun node => d.lastChild node nodeN))
  | .prevSibling nodeN => .ok (x.goTo (x.curNode.bind fun node => d.prevSibling node nodeN))
  | .nextSibling nodeN => .ok (x.goTo (x.curNode.bind fun node => d.nextSibling node nodeN))
  | .getParent => .ok (true, { x with curNode := x.curNode.bind d.getParent })
  | .getRoot => .ok (true, { x with curNode := d.getRoot })

/-- `operator =`; both objects are over the document of `x` afterwards. -/
def assign (y x : CXml) : CXml :=
  let y := { y with curNode := x.curNode, cells := { y.cells with nodeS := x.cells.nodeS } }
  { y with cells := { y.cells with nodeS := y.cells.recovR } }

/-- The copy constructor; `junk` is what the members hold, which nothing initialises. -/
def copy (junk x : CXml) : CXml := junk.assign x

/-- After `decode`. -/
def decoded (d : Document) : CXml := { curNode := d.getRoot, cells := ⟨none, none⟩ }

def step (d : Document) (fuel : ℕ) (x : CXml) (m : Method) : Option CXml :=
  match x.call d fuel m with
  | .ok (_, x) => some x
  | .error _ => none

end CXml

/-- What the calls return, and the node that is current after each; the fault if there is one. -/
def answers (d : Document) (fuel : ℕ) : CXml → List Method →
    Except Fault (List (Bool × Option Ptr))
  | _, [] => .ok []
  | x, m :: calls =>
    match x.call d fuel m with
    | .error e => .error e
    | .ok (b, x) => (answers d fuel x calls).map ((b, x.curNode) :: ·)

/-- No sequence of calls tells the objects apart. -/
def Agree (d : Document) (fuel : ℕ) (x y : CXml) : Prop :=
  ∀ calls, answers d fuel x calls = answers d fuel y calls

theorem map_injective {α β ε : Type} {g : α → β} (hg : Function.Injective g) {r r' : Except ε α}
    (h : r.map g = r'.map g) : r = r' := by
  cases r with
  | error e =>
    cases r' with
    | error e' => exact congrArg _ (Except.error.inj h)
    | ok a' => cases h
  | ok a =>
    cases r' with
    | error e' => cases h
    | ok a' => exact congrArg _ (hg (Except.ok.inj h))

section Agree
variable {d : Document} {fuel : ℕ} {x x' y y' : CXml}

theorem Agree.symm (h : Agree d fuel x y) : Agree d fuel y x := fun calls => (h calls).symm

theorem Agree.next (h : Agree d fuel x y) {m : Method} {b b' : Bool}
    (hx : x.call d fuel m = .ok (b, x')) (hy : y.call d fuel m = .ok (b', y')) :
    b = b' ∧ x'.curNode = y'.curNode ∧ Agree d fuel x' y' := by
  have hone := h [m]
  simp only [answers, hx, hy, Except.map, Except.ok.injEq, List.cons.injEq, Prod.mk.injEq,
    and_true] at hone
  refine ⟨hone.1, hone.2, fun calls => ?_⟩
  have hcalls := h (m :: calls)
  simp only [answers, hx, hy, hone.1, hone.2] at hcalls
  exact map_injective List.cons_injective hcalls

theorem answers_findAll (p : Ptr) (cells : Cells) (nodeN : Text) :
    answers d fuel ⟨some p, cells⟩ [.findAll nodeN] =
      ((findAll d.dom fuel p nodeN cells).map Prod.fst).map fun o =>
        [(o.isSome, some (o.getD p))] := by
  simp only [answers, CXml.call, CXml.findAll]
  cases findAll d.dom fuel p nodeN cells with
  | error e => rfl
  | ok r =>
    obtain ⟨_ | q, cells'⟩ := r
    · rfl
    · rfl

theorem Agree.found {p : Ptr} {cx cy : Cells} (h : Agree d fuel ⟨some p, cx⟩ ⟨some p, cy⟩)
    (nodeN : Text) :
    (findAll d.dom fuel p nodeN cx).map Prod.fst = (findAll d.dom fuel p nodeN cy).map Prod.fst := by
  have hone := h [.findAll nodeN]
  rw [answers_findAll, answers_findAll] at hone
  refine map_injective (fun o o' ho => ?_) hone
  cases o with
  | none =>
    cases o' with
    | none => rfl
    | some q' => simp at ho
  | some q =>
    cases o' with
    | none => simp at ho
    | some q' => simpa using ho

/-- Both can be sent to the root, and from an element to its first child or its parent. -/
theorem Agree.atRoot (h : Agree d fuel x y) {r : Ptr} (hr : d.rootElement = some r) :
    Agree d fuel ⟨some r, x.cells⟩ ⟨some r, y.cells⟩ := by
  have hnext := (h.next (m := .getRoot) rfl rfl).2.2
  simpa only [Document.getRoot, hr] using hnext

theorem Agree.down {p c : Ptr} {cx cy : Cells} (h : Agree d fuel ⟨some p, cx⟩ ⟨some p, cy⟩)
    (htype : (d.dom p).type = .element) (hc : (d.dom p).firstChild = some c) :
    Agree d fuel ⟨some c, cx⟩ ⟨some c, cy⟩ := by
  have hcall : ∀ cells, CXml.call d fuel ⟨some p, cells⟩ (.firstChild none) =
      .ok (true, ⟨some c, cells⟩) := by
    intro cells
    simp [CXml.call, Document.firstChild, Document.relative, Document.onElement, htype, hc,
      CXml.goTo]
  exact (h.next (hcall cx) (hcall cy)).2.2

theorem Agree.up {p q : Ptr} {cx cy : Cells} (h : Agree d fuel ⟨some p, cx⟩ ⟨some p, cy⟩)
    (htype : (d.dom p).type = .element) (hq : (d.dom p).parent = some q) :
    Agree d fuel ⟨some q, cx⟩ ⟨some q, cy⟩ := by
  have hcall : ∀ cells, CXml.call d fuel ⟨some p, cells⟩ .getParent =
      .ok (true, ⟨some q, cells⟩) := by
    intro cells
    simp [CXml.call, Document.getParent, Document.onElement, htype, hq]
  exact (h.next (hcall cx) (hcall cy)).2.2

/-- Both can be sent down to a node that no search descends into. -/
theorem Agree.deepest {f : Forest} {q : Ptr} {cx cy : Cells} (hlinked : f.Linked d.dom q)
    (hinner : ∀ p ∈ f.nodes, (d.dom p).firstChild ≠ none → (d.dom p).type = .element)
    (h : ∀ p, f.first = some p → Agree d fuel ⟨some p, cx⟩ ⟨some p, cy⟩) (hf : f ≠ .nil) :
    ∃ e, shallow d.dom e = true ∧ Agree d fuel ⟨some e, cx⟩ ⟨some e, cy⟩ := by
  induction f generalizing q with
  | nil => exact absurd rfl hf
  | cons p kids rest hkids _ =>
    obtain ⟨-, hchild, -, hlkids, -⟩ := hlinked
    have hp := h p rfl
    by_cases hshallow : shallow d.dom p = true
    · exact ⟨p, hshallow, hp⟩
    · have hsome : (d.dom p).firstChild ≠ none := by
        intro hnone
        simp [shallow, hnone] at hshallow
      apply hkids hlkids
      · intro c hc
        exact hinner c (by simp [Forest.nodes, hc])
      · intro c hc
        exact hp.down (hinner p List.mem_cons_self hsome) (hchild.trans hc)
      · rintro rfl
        exact hsome hchild

end Agree

/-! ## What the cells make a search do -/

section Cells
variable {d : Document} {F : Forest} {fuel : ℕ}

/-- A search that the cells send on returns the node there at once, if its name is looked for. -/
theorem found_recov (dom : Dom) (n : ℕ) (node s g : Ptr) :
    (findAll dom (n + 1) node (dom g).value ⟨some s, some g⟩).map Prod.fst = .ok (some g) := by
  by_cases hshallow : shallow dom g
  · simp [findAll, findLoop, hshallow, Except.map]
  · simp [findAll, findLoop, hshallow, Except.map]

/-- A search that is started at such a node returns none. -/
theorem found_shallow {dom : Dom} {e : Ptr} (he : shallow dom e = true) (n : ℕ) (nodeN : Text)
    (recov : Option Ptr) (p : Ptr) :
    (findAll dom n e nodeN ⟨none, recov⟩).map Prod.fst ≠ .ok (some p) := by
  cases hchild : (dom e).firstChild with
  | none => simp [findAll, hchild, Except.map]
  | some c =>
    have htype : (dom c).type = .text := by simpa [shallow, hchild] using he
    simp [findAll, hchild, htype, Except.map]

/-- A search under way cannot go on from the document. -/
theorem findAll_document (hd : d.Whole F) (n : ℕ) (nodeN : Text) (s : Ptr) :
    findAll d.dom (n + 1) d.doc nodeN ⟨some s, none⟩ = .error .nullDeref := by
  simp only [findAll, findLoop, hd.alone, hd.top]

theorem findLoop_out (hd : d.Whole F) {i : Ptr} (hi : (d.dom i).parent = some d.doc)
    (nodeN : Text) (s : Ptr) (m : ℕ) :
    findLoop d.dom nodeN m i none ⟨some s, none⟩ = .ok (none, ⟨none, none⟩) ∨
      ∃ e, findLoop d.dom nodeN m i none ⟨some s, none⟩ = .error e := by
  cases m with
  | zero => exact .inr ⟨_, rfl⟩
  | succ m =>
    simp only [findLoop, hi, hd.alone]
    split_ifs
    · exact .inl rfl
    · right
      cases m with
      | zero => exact ⟨_, rfl⟩
      | succ m => simp only [findLoop, hd.top, Except.error.injEq, exists_eq']

/-- In any state of the cells the loop stays in the document or faults. -/
theorem findLoop_stays (hd : d.Whole F) {f : Forest} {ctx : List Forest} {iter : Ptr}
    (h : Walks d.dom d.doc iter f ctx) (nodeN : Text) (s : Ptr) (n : ℕ) :
    Lands (toCome f ctx) s (findLoop d.dom nodeN n iter f.first ⟨some s, none⟩) ∨
      ∃ e, findLoop d.dom nodeN n iter f.first ⟨some s, none⟩ = .error e := by
  obtain hlands | ⟨-, hspin⟩ | ⟨m, i, hi, -, hout⟩ := findLoop_ends nodeN s n h
  · exact .inl hlands
  · exact .inr ⟨_, hspin⟩
  · rw [hout]
    obtain hnone | herror := findLoop_out hd hi nodeN s m
    · exact .inl (.inl hnone)
    · exact .inr herror

/-- A node of the document, and what comes behind it: there go the searches that the cells send to
it, and behind it those that go on from it. -/
theorem findAll_from (hd : d.Whole F) {c : Ptr} (hc : c ∈ F.nodes) :
    ∃ before behind, F.nodes = before ++ c :: behind ∧ ∀ nodeN s n,
      (∀ node, Lands (c :: behind) s (findAll d.dom n node nodeN ⟨some s, some c⟩) ∨
        ∃ e, findAll d.dom n node nodeN ⟨some s, some c⟩ = .error e) ∧
      (Lands behind s (findAll d.dom n c nodeN ⟨some s, none⟩) ∨
        ∃ e, findAll d.dom n c nodeN ⟨some s, none⟩ = .error e) := by
  obtain ⟨q, kids, rest, ctx, before, hlinked, hup, heq, -⟩ := exists_place hd.rooted.linked hc
  rw [toCome_cons] at heq
  refine ⟨before, kids.nodes ++ toCome rest ctx, heq, fun nodeN s n => ⟨fun node => ?_, ?_⟩⟩
  · have hwalks : Walks d.dom d.doc c (.cons c kids rest) ctx := ⟨q, hlinked, nofun, hup⟩
    rw [← toCome_cons]
    exact findLoop_stays hd hwalks nodeN s n
  · have hwalks : Walks d.dom d.doc c rest ctx :=
      ⟨q, hlinked.2.2.2.2, fun _ => hlinked.1, hup⟩
    simp only [findAll, hlinked.2.2.1]
    obtain hlands | herror := findLoop_stays hd hwalks nodeN s n
    · exact .inl (hlands.mono (List.subset_append_right _ _))
    · exact .inr herror

/-- Links lead to nodes of the tree, or up to where it hangs. -/
theorem parent_mem {dom : Dom} {f : Forest} {q p : Ptr} (hlinked : f.Linked dom q)
    (hp : p ∈ f.nodes) : ∃ up, (dom p).parent = some up ∧ (up = q ∨ up ∈ f.nodes) := by
  induction f generalizing q with
  | nil => cases hp
  | cons a kids rest hkids hrest =>
    obtain ⟨hparent, -, -, hlkids, hlrest⟩ := hlinked
    simp only [Forest.nodes, List.mem_cons, List.mem_append] at hp ⊢
    obtain rfl | hin | hin := hp
    · exact ⟨q, hparent, .inl rfl⟩
    · obtain ⟨up, hup, hmem⟩ := hkids hlkids hin
      exact ⟨up, hup, .inr (hmem.imp_right .inl)⟩
    · obtain ⟨up, hup, rfl | hmem⟩ := hrest hlrest hin
      · exact ⟨up, hup, .inl rfl⟩
      · exact ⟨up, hup, .inr (.inr (.inr hmem))⟩

theorem links_mem {dom : Dom} {f : Forest} {q p x : Ptr} (hlinked : f.Linked dom q)
    (hp : p ∈ f.nodes) (hx : (dom p).firstChild = some x ∨ (dom p).next = some x) :
    x ∈ f.nodes := by
  obtain ⟨_, kids, rest, ctx, before, hcons, -, heq, -⟩ := exists_place hlinked hp
  rw [hcons.2.1, hcons.2.2.1] at hx
  rw [heq, toCome_cons, toCome]
  simp only [List.mem_append, List.mem_cons]
  obtain hx | hx := hx
  · exact .inr (.inr (.inl (first_mem hx)))
  · exact .inr (.inr (.inr (.inl (first_mem hx))))

end Cells

/-! ## Objects over a document -/

/-- The object points into the document, and is in a search if a cell says where to go on. -/
structure CXml.Within (d : Document) (F : Forest) (x : CXml) : Prop where
  cur : ∀ p, x.curNode = some p → p = d.doc ∨ p ∈ F.nodes
  idle : x.cells.nodeS = none → x.cells.recovR = none
  recov : ∀ p, x.cells.recovR = some p → p ∈ F.nodes

section Within
variable {d : Document} {F : Forest} {fuel : ℕ} {x x' : CXml}

theorem CXml.Within.decoded (hd : d.Whole F) : (CXml.decoded d).Within d F := by
  obtain ⟨r, hr, hroot, -⟩ := hd.root
  refine ⟨fun p hp => .inr ?_, fun _ => rfl, nofun⟩
  rw [CXml.decoded, Document.getRoot, hroot] at hp
  exact Option.some.inj hp ▸ hr

theorem CXml.Within.replace (hx : x.Within d F) {o : Option Ptr}
    (ho : ∀ p, o = some p → p = d.doc ∨ p ∈ F.nodes) :
    CXml.Within d F { x with curNode := o } := ⟨ho, hx.idle, hx.recov⟩

theorem CXml.Within.goTo (hx : x.Within d F) {o : Option Ptr}
    (ho : ∀ p, o = some p → p = d.doc ∨ p ∈ F.nodes) : (x.goTo o).2.Within d F := by
  cases o with
  | none => exact hx
  | some p => exact hx.replace ho

/-- The document has no relatives, the links of a node lead to nodes. -/
theorem onElement_mem (hd : d.Whole F) (hx : x.Within d F) {g : Ptr → Option Ptr}
    (hg : ∀ node ∈ F.nodes, ∀ p, g node = some p → p = d.doc ∨ p ∈ F.nodes) (p : Ptr)
    (hp : (x.curNode.bind fun node => d.onElement node (g node)) = some p) :
    p = d.doc ∨ p ∈ F.nodes := by
  obtain ⟨node, hnode, hp⟩ := Option.bind_eq_some_iff.mp hp
  rw [Document.onElement] at hp
  split_ifs at hp with htype
  obtain rfl | hin := hx.cur node hnode
  · rw [hd.document] at htype
    cases htype
  · exact hg node hin p hp

theorem CXml.Within.relative (hd : d.Whole F) (hx : x.Within d F)
    {named : Ptr → Text → Option Ptr} {any : Ptr → Option Ptr}
    (hnamed : ∀ node ∈ F.nodes, ∀ v p, named node v = some p → p ∈ F.nodes)
    (hany : ∀ node ∈ F.nodes, ∀ p, any node = some p → p ∈ F.nodes) (nodeN : Option Text) :
    (x.goTo (x.curNode.bind fun node => d.relative named any node nodeN)).2.Within d F := by
  apply hx.goTo
  cases nodeN with
  | none => exact onElement_mem hd hx fun node hin p hp => .inr (hany node hin p hp)
  | some v => exact onElement_mem hd hx fun node hin p hp => .inr (hnamed node hin v p hp)

theorem findAll_within (hd : d.Whole F) (hfuel : 2 * F.size < fuel) (hx : x.Within d F)
    {node : Ptr} (hnode : node = d.doc ∨ node ∈ F.nodes) (nodeN : Text) :
    (∃ e, findAll d.dom fuel node nodeN x.cells = .error e) ∨
    findAll d.dom fuel node nodeN x.cells = .ok (none, ⟨some node, none⟩) ∨
    ∃ s, Lands F.nodes s (findAll d.dom fuel node nodeN x.cells) := by
  obtain ⟨curNode, nodeS, recovR⟩ := x
  obtain ⟨n, rfl⟩ : ∃ n, fuel = n + 1 := ⟨fuel - 1, by omega⟩
  cases nodeS with
  | none =>
    obtain rfl : recovR = none := hx.idle rfl
    have htree : ∃ K : Forest, Rooted d.dom node K ∧ K.nodes ⊆ F.nodes ∧ K.size ≤ F.size := by
      obtain rfl | hin := hnode
      · exact ⟨F, hd.rooted, List.Subset.refl _, Nat.le_refl _⟩
      · exact ⟨F.under node, hd.rooted.under hin, nodes_under_subset node F, size_under_le node F⟩
    obtain ⟨K, hK, hsub, hsize⟩ := htree
    cases hshallow : shallow d.dom node with
    | false =>
      right; right
      exact ⟨node, (findAll_started hK (by omega) hshallow nodeN).mono hsub⟩
    | true =>
      cases hchild : (d.dom node).firstChild with
      | none => exact .inl ⟨.nullDeref, by simp only [findAll, hchild]⟩
      | some c =>
        have htype : (d.dom c).type = .text := by simpa [shallow, hchild] using hshallow
        right; left
        simp only [findAll, hchild, if_pos htype]
  | some s =>
    cases recovR with
    | none =>
      obtain rfl | hin := hnode
      · exact .inl ⟨_, findAll_document hd n nodeN s⟩
      · obtain ⟨before, behind, heq, hfrom⟩ := findAll_from hd hin
        obtain hlands | herror := (hfrom nodeN s (n + 1)).2
        · right; right
          exact ⟨s, hlands.mono fun p hp => by simp [heq, hp]⟩
        · exact .inl herror
    | some c =>
      obtain ⟨before, behind, heq, hfrom⟩ := findAll_from hd (hx.recov c rfl)
      obtain hlands | herror := (hfrom nodeN s (n + 1)).1 node
      · right; right
        exact ⟨s, hlands.mono fun p hp => heq ▸ List.mem_append_right before hp⟩
      · exact .inl herror

theorem CXml.Within.findAll (hd : d.Whole F) (hfuel : 2 * F.size < fuel) (hx : x.Within d F)
    {nodeN : Text} {b : Bool} (h : x.findAll d.dom fuel nodeN = .ok (b, x')) : x'.Within d F := by
  obtain ⟨curNode, cells⟩ := x
  cases curNode with
  | none =>
    simp only [CXml.findAll, Except.ok.injEq, Prod.mk.injEq] at h
    exact h.2 ▸ hx
  | some node =>
    simp only [CXml.findAll] at h
    obtain ⟨e, hr⟩ | hr | ⟨s, hr | ⟨p, recov, hr, hp, hrecov⟩⟩ :=
      findAll_within hd hfuel hx (hx.cur node rfl) nodeN
    · simp [hr] at h
    · simp only [hr, Except.ok.injEq, Prod.mk.injEq] at h
      exact h.2 ▸ ⟨hx.cur, (fun hs => by cases hs), fun _ hr => by cases hr⟩
    · simp only [hr, Except.ok.injEq, Prod.mk.injEq] at h
      exact h.2 ▸ ⟨hx.cur, fun _ => rfl, fun _ hr => by cases hr⟩
    · simp only [hr, Except.ok.injEq, Prod.mk.injEq] at h
      refine h.2 ▸ ⟨fun p' hp' => .inr ?_, (fun hs => by cases hs), hrecov⟩
      obtain rfl : p = p' := Option.some.inj hp'
      exact hp

theorem CXml.Within.call (hd : d.Whole F) (hfuel : 2 * F.size < fuel) (hx : x.Within d F)
    {m : Method} {b : Bool} (h : x.call d fuel m = .ok (b, x')) : x'.Within d F := by
  cases m with
  | findAll nodeN => exact hx.findAll hd hfuel h
  | firstChild nodeN =>
    obtain rfl := congrArg Prod.snd (Except.ok.inj h)
    apply hx.relative hd
    · exact fun node hin v => hd.inside node hin v (d.firstChildNamed node v) (by simp)
    · exact fun node hin p hp => links_mem hd.rooted.linked hin (.inl hp)
  | lastChild nodeN =>
    obtain rfl := congrArg Prod.snd (Except.ok.inj h)
    apply hx.relative hd
    · exact fun node hin v => hd.inside node hin v (d.lastChildNamed node v) (by simp)
    · exact fun node hin => hd.inside node hin [] (d.last node) (by simp)
  | prevSibling nodeN =>
    obtain rfl := congrArg Prod.snd (Except.ok.inj h)
    apply hx.relative hd
    · exact fun node hin v => hd.inside node hin v (d.prevNamed node v) (by simp)
    · exact fun node hin => hd.inside node hin [] (d.prev node) (by simp)
  | nextSibling nodeN =>
    obtain rfl := congrArg Prod.snd (Except.ok.inj h)
    apply hx.relative hd
    · exact fun node hin v => hd.inside node hin v (d.nextNamed node v) (by simp)
    · exact fun node hin p hp => links_mem hd.rooted.linked hin (.inr hp)
  | getParent =>
    obtain rfl := congrArg Prod.snd (Except.ok.inj h)
    apply hx.replace
    refine onElement_mem hd hx fun node hin p hp => ?_
    obtain ⟨up, hup, hmem⟩ := parent_mem hd.rooted.linked hin
    obtain rfl : up = p := Option.some.inj (hup.symm.trans hp)
    exact hmem
  | getRoot =>
    obtain rfl := congrArg Prod.snd (Except.ok.inj h)
    exact hx.replace (CXml.Within.decoded hd).cur

theorem CXml.Within.reached (hd : d.Whole F) (hfuel : 2 * F.size < fuel)
    {x₀ : CXml} (h0 : x₀.Within d F) (h : Reachable (CXml.step d fuel) x₀ x) : x.Within d F := by
  refine h.invariant h0 fun u m v hu _ hstep => ?_
  cases hcall : u.call d fuel m with
  | error e => simp [CXml.step, hcall] at hstep
  | ok r =>
    obtain ⟨b, v'⟩ := r
    simp only [CXml.step, hcall, Option.some.injEq] at hstep
    exact hstep ▸ hu.call hd hfuel hcall

end Within

/-! ## Which copies agree -/

section Copies
variable {d : Document} {F : Forest} {fuel : ℕ} {x y : CXml}

/-- Two nodes of a list, neither of which comes before the other, are one. -/
theorem eq_of_behind {before behind before' behind' : List Ptr} {c g : Ptr}
    (hnodup : (before ++ c :: behind).Nodup)
    (heq : before ++ c :: behind = before' ++ g :: behind') (hg : g ∈ c :: behind)
    (hc : c ∈ g :: behind') : c = g := by
  obtain ⟨-, hnodupC, -⟩ := List.nodup_append.mp hnodup
  have hnodup' := hnodup
  rw [heq] at hnodup'
  obtain ⟨-, hnodupG, -⟩ := List.nodup_append.mp hnodup'
  obtain ⟨l, -, hl⟩ | ⟨l, -, hl⟩ := List.append_eq_append_iff.mp heq
  · cases l with
    | nil => exact (List.cons.inj hl).1
    | cons a l =>
      obtain ⟨rfl, hbehind⟩ := List.cons.inj hl
      refine absurd ?_ (List.nodup_cons.mp hnodupC).1
      rw [hbehind]
      exact List.mem_append_right l hc
  · cases l with
    | nil => exact (List.cons.inj hl).1.symm
    | cons a l =>
      obtain ⟨rfl, hbehind⟩ := List.cons.inj hl
      refine absurd ?_ (List.nodup_cons.mp hnodupG).1
      rw [hbehind]
      exact List.mem_append_right l hg

theorem Agree.found_root (hd : d.Whole F) (h : Agree d fuel x y) : ∃ r, ∀ nodeN,
    (findAll d.dom fuel r nodeN x.cells).map Prod.fst =
      (findAll d.dom fuel r nodeN y.cells).map Prod.fst := by
  obtain ⟨r, -, hroot, -⟩ := hd.root
  exact ⟨r, fun nodeN => (h.atRoot hroot).found nodeN⟩

theorem Agree.found_document (hd : d.Whole F) (h : Agree d fuel x y) (nodeN : Text) :
    (findAll d.dom fuel d.doc nodeN x.cells).map Prod.fst =
      (findAll d.dom fuel d.doc nodeN y.cells).map Prod.fst := by
  obtain ⟨r, -, hroot, htype, hparent⟩ := hd.root
  exact ((h.atRoot hroot).up htype hparent).found nodeN

theorem Agree.found_deepest (hd : d.Whole F) (h : Agree d fuel x y) :
    ∃ e, shallow d.dom e = true ∧ ∀ nodeN, (findAll d.dom fuel e nodeN x.cells).map Prod.fst =
      (findAll d.dom fuel e nodeN y.cells).map Prod.fst := by
  obtain ⟨r, hr, hroot, -⟩ := hd.root
  obtain ⟨q, kids, rest, ctx, before, hlinked, -, heq, -⟩ := exists_place hd.rooted.linked hr
  have hinner : ∀ p ∈ (Forest.cons r kids rest).nodes, (d.dom p).firstChild ≠ none →
      (d.dom p).type = .element := by
    intro p hp
    apply hd.inner
    rw [heq]
    exact List.mem_append_right _ (List.mem_append_left _ hp)
  have hatRoot : ∀ p, (Forest.cons r kids rest).first = some p →
      Agree d fuel ⟨some p, x.cells⟩ ⟨some p, y.cells⟩ := by
    intro p hp
    obtain rfl : r = p := Option.some.inj hp
    exact h.atRoot hroot
  obtain ⟨e, he, hagree⟩ := Agree.deepest hlinked hinner hatRoot nofun
  exact ⟨e, he, fun nodeN => hagree.found nodeN⟩

/-- A search that the cells send on does not look like one that is started. -/
theorem not_agree_recov (hd : d.Whole F) {s g : Ptr} {recov : Option Ptr} (hfuel : 0 < fuel)
    (hx : x.cells = ⟨some s, some g⟩) (hy : y.cells = ⟨none, recov⟩) : ¬ Agree d fuel x y := by
  intro h
  obtain ⟨n, rfl⟩ : ∃ n, fuel = n + 1 := ⟨fuel - 1, by omega⟩
  obtain ⟨e, he, hfound⟩ := h.found_deepest hd
  have hg := hfound (d.dom g).value
  rw [hx, hy, found_recov] at hg
  exact found_shallow he _ _ _ _ hg.symm

/-- A search that goes on from the current node faults at the document, where others do not. -/
theorem not_agree_document (hd : d.Whole F) {s : Ptr} (hfuel : 0 < fuel)
    (hx : x.cells = ⟨some s, none⟩)
    (hy : ∃ nodeN r, findAll d.dom fuel d.doc nodeN y.cells = .ok r) : ¬ Agree d fuel x y := by
  intro h
  obtain ⟨n, rfl⟩ : ∃ n, fuel = n + 1 := ⟨fuel - 1, by omega⟩
  obtain ⟨nodeN, r, hr⟩ := hy
  have hfault := h.found_document hd nodeN
  rw [hx, findAll_document hd, hr] at hfault
  cases hfault

theorem findAll_document_started (hd : d.Whole F) (hfuel : 2 * F.size < fuel) (nodeN : Text) :
    ∃ r, findAll d.dom fuel d.doc nodeN ⟨none, none⟩ = .ok r := by
  cases hshallow : shallow d.dom d.doc with
  | false =>
    obtain hr | ⟨p, recov, hr, -⟩ := findAll_started hd.rooted hfuel hshallow nodeN
    · exact ⟨_, hr⟩
    · exact ⟨_, hr⟩
  | true =>
    obtain ⟨r, hr, -⟩ := hd.root
    cases F with
    | nil => cases hr
    | cons c kids rest =>
      have hchild : (d.dom d.doc).firstChild = some c := hd.rooted.child
      have htype : (d.dom c).type = .text := by simpa [shallow, hchild] using hshallow
      exact ⟨(none, ⟨some d.doc, none⟩), by simp only [findAll, hchild, if_pos htype]⟩

theorem mem_of_found {S : List Ptr} {s p : Ptr} {r : Except Fault (Option Ptr × Cells)}
    (hstays : Lands S s r ∨ ∃ e, r = .error e) (hp : r.map Prod.fst = .ok (some p)) : p ∈ S := by
  obtain (rfl | ⟨p', recov, rfl, hp', -⟩) | ⟨e, rfl⟩ := hstays
  · cases hp
  · cases hp
    exact hp'
  · cases hp

/-- Two searches that the cells send on go on at the same node: each returns the node where the
other goes on, so neither node comes before the other. -/
theorem Agree.recov_eq (hd : d.Whole F) (h : Agree d fuel x y) {s t c g : Ptr} (hfuel : 0 < fuel)
    (hx : x.cells = ⟨some s, some c⟩) (hy : y.cells = ⟨some t, some g⟩) (hc : c ∈ F.nodes) :
    c = g := by
  obtain ⟨n, rfl⟩ : ∃ n, fuel = n + 1 := ⟨fuel - 1, by omega⟩
  obtain ⟨r, hfound⟩ := h.found_root hd
  rw [hx, hy] at hfound
  obtain ⟨before, behind, heq, hfrom⟩ := findAll_from hd hc
  have hg : g ∈ c :: behind := by
    refine mem_of_found ((hfrom (d.dom g).value s (n + 1)).1 r) ?_
    rw [hfound, found_recov]
  have hgF : g ∈ F.nodes := heq ▸ List.mem_append_right before hg
  obtain ⟨before', behind', heq', hfrom'⟩ := findAll_from hd hgF
  have hcg : c ∈ g :: behind' := by
    refine mem_of_found ((hfrom' (d.dom c).value t (n + 1)).1 r) ?_
    rw [← hfound, found_recov]
  have hnodup := hd.rooted.nodup
  rw [heq] at hnodup
  exact eq_of_behind hnodup (heq.symm.trans heq') hg hcg

theorem assign_cells (y x : CXml) :
    (y.assign x).cells = ⟨y.cells.recovR, y.cells.recovR⟩ := rfl

theorem assign_eq (y x : CXml) (h : x.cells = ⟨y.cells.recovR, y.cells.recovR⟩) :
    y.assign x = x := by
  obtain ⟨curNode, cells⟩ := x
  obtain rfl : cells = ⟨y.cells.recovR, y.cells.recovR⟩ := h
  rfl

/-- A copy that agrees goes on where its original does, and is not in a search alone or out of one
alone. -/
theorem Agree.assigned (hd : d.Whole F) (hfuel : 2 * F.size < fuel) (hx : x.Within d F)
    (h : Agree d fuel (y.assign x) x) :
    x.cells.recovR = y.cells.recovR ∧ (y.cells.recovR = none → x.cells.nodeS = none) := by
  have hpos : 0 < fuel := by omega
  have hy := assign_cells y x
  obtain ⟨curNode, nodeS, recovR⟩ := x
  cases hg : y.cells.recovR with
  | none =>
    rw [hg] at hy
    cases nodeS with
    | none => exact ⟨hx.idle rfl, fun _ => rfl⟩
    | some s =>
      exfalso
      cases recovR with
      | none =>
        refine not_agree_document hd hpos rfl ⟨[], ?_⟩ h.symm
        rw [hy]
        exact findAll_document_started hd hfuel []
      | some c => exact not_agree_recov hd hpos rfl hy h.symm
  | some g =>
    rw [hg] at hy
    refine ⟨?_, nofun⟩
    cases nodeS with
    | none => exact absurd h (not_agree_recov hd hpos hy rfl)
    | some s =>
      cases recovR with
      | none =>
        refine absurd h.symm (not_agree_document hd hpos rfl ⟨(d.dom g).value, ?_⟩)
        obtain ⟨n, rfl⟩ : ∃ n, fuel = n + 1 := ⟨fuel - 1, by omega⟩
        rw [hy]
        have hr := found_recov d.dom n d.doc g g
        cases hfound : findAll d.dom (n + 1) d.doc (d.dom g).value ⟨some g, some g⟩ with
        | error e => simp [hfound, Except.map] at hr
        | ok r => exact ⟨r, rfl⟩
      | some c =>
        have hcg := h.symm.recov_eq hd hpos rfl hy (hx.recov c rfl)
        exact congrArg some hcg

end Copies

/-- **Copies.** Whatever `x` has done since it was decoded, or pointed into the document in any way:
a copy with its cells agrees with it, and unless the object assigned to stands at the same node of a
search only such a copy does. No member that the constructor leaves uninitialised makes sure of
that. -/
theorem assign_agrees_iff (d : Document) (F : Forest) (fuel : ℕ) (hd : d.Whole F)
    (hfuel : 2 * F.size < fuel) (x₀ x : CXml) (h0 : x₀ = CXml.decoded d ∨ x₀.Within d F)
    (hx : Reachable (CXml.step d fuel) x₀ x) :
    (∀ y : CXml, x.cells = ⟨y.cells.recovR, y.cells.recovR⟩ → Agree d fuel (y.assign x) x) ∧
    (∀ y : CXml, (y.cells.recovR = x.cells.recovR → y.cells.recovR = none) →
      (Agree d fuel (y.assign x) x ↔
        x.cells.nodeS = none ∧ x.cells.recovR = none ∧ y.cells.recovR = none)) ∧
    ∃ junk : CXml, ¬ Agree d fuel (CXml.copy junk x) x := by
  have hstart : x₀.Within d F := by
    obtain rfl | hwithin := h0
    · exact CXml.Within.decoded hd
    · exact hwithin
  have hwithin := CXml.Within.reached hd hfuel hstart hx
  have hsame : ∀ y : CXml, x.cells = ⟨y.cells.recovR, y.cells.recovR⟩ →
      Agree d fuel (y.assign x) x := by
    intro y hcells calls
    rw [assign_eq y x hcells]
  refine ⟨hsame, fun y hapart => ⟨fun h => ?_, fun hnull => hsame y ?_⟩, ?_⟩
  · obtain ⟨hrecov, hidle⟩ := h.assigned hd hfuel hwithin
    have hnone := hapart hrecov.symm
    exact ⟨hidle hnone, hrecov.trans hnone, hnone⟩
  · obtain ⟨hnodeS, hrecovR, hnone⟩ := hnull
    rw [hnone]
    exact congrArg₂ Cells.mk hnodeS hrecovR
  · obtain ⟨r, -, hroot, -⟩ := hd.root
    cases hrecov : x.cells.recovR with
    | none =>
      refine ⟨⟨none, none, some r⟩, fun h => ?_⟩
      have heq := (h.assigned hd hfuel hwithin).1
      simp [hrecov] at heq
    | some c =>
      refine ⟨⟨none, none, none⟩, fun h => ?_⟩
      have heq := (h.assigned hd hfuel hwithin).1
      simp [hrecov] at heq

/-- The siblings in front of a node of the page, the nearest first, those behind it and its
children. -/
def pageFamily : Ptr → List Ptr × List Ptr × List Ptr
  | 0 => ([], [], [1])
  | 1 => ([], [], [2, 4, 5])
  | 2 => ([], [4, 5], [3])
  | 4 => ([2], [5], [])
  | 5 => ([4, 2], [], [6])
  | _ => ([], [], [])

/-- The page as a document: TinyXML goes through the relatives of a node. -/
def pageDocument : Document where
  dom := page
  doc := 0
  last p := (pageFamily p).2.2.getLast?
  prev p := (pageFamily p).1.head?
  rootElement := some 1
  firstChildNamed p nodeN := (pageFamily p).2.2.find? fun x => (page x).value = nodeN
  lastChildNamed p nodeN := (pageFamily p).2.2.reverse.find? fun x => (page x).value = nodeN
  prevNamed p nodeN := (pageFamily p).1.find? fun x => (page x).value = nodeN
  nextNamed p nodeN := (pageFamily p).2.1.find? fun x => (page x).value = nodeN

theorem whole_page : pageDocument.Whole pageTree where
  rooted := rooted_page
  document := rfl
  top := rfl
  alone := rfl
  inner := by decide
  root := ⟨1, by decide, rfl, rfl, rfl⟩
  inside := by
    have hfamily : ∀ p ∈ pageTree.nodes,
        ∀ x ∈ (pageFamily p).1 ++ ((pageFamily p).2.1 ++ (pageFamily p).2.2),
          x ∈ pageTree.nodes := by decide
    intro p hp nodeN o ho x hx
    apply hfamily p hp
    simp only [pageDocument, List.mem_cons, List.not_mem_nil, or_false] at ho
    simp only [List.mem_append]
    obtain rfl | rfl | rfl | rfl | rfl | rfl := ho
    · exact .inr (.inr (List.mem_of_getLast? hx))
    · exact .inl (List.mem_of_head? hx)
    · exact .inr (.inr (List.mem_of_find?_eq_some hx))
    · exact .inr (.inr (List.mem_reverse.mp (List.mem_of_find?_eq_some hx)))
    · exact .inl (List.mem_of_find?_eq_some hx)
    · exact .inr (.inl (List.mem_of_find?_eq_some hx))

/-- A new object made a copy before the search for `e` agrees, one made after it does not. -/
theorem assign_agrees_page :
    Agree pageDocument 13 (CXml.assign ⟨none, none, none⟩ ⟨some 1, none, none⟩)
      ⟨some 1, none, none⟩ ∧
    ¬ Agree pageDocument 13 (CXml.assign ⟨none, none, none⟩ ⟨some 4, some 1, none⟩)
      ⟨some 4, some 1, none⟩ := by
  have hfound : Reachable (CXml.step pageDocument 13) (CXml.decoded pageDocument)
      ⟨some 4, some 1, none⟩ := Reach.refl.tail (a := .findAll ['e']) trivial rfl
  have hbefore := assign_agrees_iff pageDocument pageTree 13 whole_page (by decide)
    (CXml.decoded pageDocument) _ (.inl rfl) Reach.refl
  have hafter := assign_agrees_iff pageDocument pageTree 13 whole_page (by decide) _ _ (.inl rfl)
    hfound
  refine ⟨(hbefore.2.1 ⟨none, none, none⟩ fun _ => rfl).mpr ⟨rfl, rfl, rfl⟩, fun h => ?_⟩
  cases ((hafter.2.1 ⟨none, none, none⟩ fun _ => rfl).mp h).1

/-- `x` has found `e` and goes on to `b`; its copy starts a search at `e` and follows a null child.
The copy of an object that is in no search, made in place of one that has found `a`, goes on below
`a`. -/
theorem copies_apart :
    CXml.step pageDocument 13 (CXml.decoded pageDocument) (.findAll ['e']) =
      some ⟨some 4, some 1, none⟩ ∧
    answers pageDocument 13 ⟨some 4, some 1, none⟩ [.findAll ['b']] = .ok [(true, some 6)] ∧
    answers pageDocument 13 (CXml.assign ⟨none, none, none⟩ ⟨some 4, some 1, none⟩)
      [.findAll ['b']] = .error .nullDeref ∧
    CXml.step pageDocument 13 (CXml.decoded pageDocument) (.findAll ['a']) =
      some ⟨some 5, some 1, some 6⟩ ∧
    answers pageDocument 13 (CXml.decoded pageDocument) [.findAll ['t']] = .ok [(true, some 2)] ∧
    answers pageDocument 13 (CXml.assign ⟨some 5, some 1, some 6⟩ (CXml.decoded pageDocument))
      [.findAll ['t']] = .error .nullDeref :=
  ⟨rfl, rfl, rfl, rfl, rfl, rfl⟩

end DevFramework.Xml
