import DevFramework.Xml.Dom
import Mathlib.Algebra.Order.Ring.Nat

/-! # What `find_all` enumerates

`find_all` keeps no stack: where it stands is a node and one cell, and the way up is read from the
parent pointers. `Stands` recovers the stack, as the siblings still to come on every level up to the
start element; a turn of the loop visits the next node or climbs one level.
-/
namespace DevFramework.Xml
set_option autoImplicit false
set_option maxHeartbeats 250000

/-! ## Where the loop stands -/

/-- From `q` up to the start element: the siblings still to come behind `q`, behind its parent, and
so on. -/
def Under (dom : Dom) (start : Ptr) : Ptr → List Forest → Prop
  | q, [] => q = start
  | q, rest :: ctx => q ≠ start ∧ (dom q).next = rest.first ∧
      ∃ up, (dom q).parent = some up ∧ rest.Linked dom up ∧ rest.Plain dom ∧
        start ∉ rest.nodes ∧ Under dom start up ctx

/-- The loop is to go through `f`, then up through `ctx`; if `f` is used up it climbs from `iter`. -/
def Stands (dom : Dom) (start iter : Ptr) (f : Forest) (ctx : List Forest) : Prop :=
  ∃ q, f.Linked dom q ∧ f.Plain dom ∧ start ∉ f.nodes ∧
    (f = .nil → (dom iter).parent = some q) ∧ Under dom start q ctx

/-- Where the call after the one that returned `node` starts its loop. -/
def Resumes (dom : Dom) (start node : Ptr) : Option Ptr → Forest → List Forest → Prop
  | some r, f, ctx => f.first = some r ∧ Stands dom start r f ctx
  | none, f, ctx => (dom node).next = f.first ∧ Stands dom start node f ctx

/-- The elements still to come. -/
def ahead (dom : Dom) (f : Forest) (ctx : List Forest) : List Ptr :=
  f.elements dom ++ ctx.flatMap fun rest => rest.elements dom

/-- The turns still to come, at most. -/
def turns (f : Forest) (ctx : List Forest) : ℕ :=
  2 * f.size + (ctx.map fun rest => 2 * rest.size + 1).sum

section Turns
variable (p : Ptr) (kids rest : Forest) (ctx : List Forest)

theorem turns_rest_lt : turns rest ctx < turns (.cons p kids rest) ctx := by
  simp only [turns, Forest.size]
  omega

theorem turns_kids_lt : turns kids (rest :: ctx) < turns (.cons p kids rest) ctx := by
  simp only [turns, Forest.size, List.map_cons, List.sum_cons]
  omega

theorem turns_up_lt : turns rest ctx < turns .nil (rest :: ctx) := by
  simp only [turns, Forest.size, List.map_cons, List.sum_cons]
  omega

end Turns

section Elements
variable {dom : Dom} {p : Ptr} {kids rest : Forest}

theorem elements_cons (hp : (dom p).type = .element) :
    (Forest.cons p kids rest).elements dom = p :: (kids.elements dom ++ rest.elements dom) := by
  simp [Forest.elements, Forest.nodes, hp]

theorem elements_text (h : kids.IsText dom) : kids.elements dom = [] := by
  rcases kids with _ | ⟨c, _ | _, _ | _⟩
  · cases h
  · have hc : (dom c).type = .text := h
    simp [Forest.elements, Forest.nodes, hc]
  · cases h
  · cases h
  · cases h

/-- A node is not descended into if there is no element below it. -/
theorem shallow_or (hchild : (dom p).firstChild = kids.first)
    (hkids : kids.Plain dom ∨ kids.IsText dom) :
    (shallow dom p = true ∧ kids.elements dom = []) ∨
    (shallow dom p = false ∧ kids.Plain dom ∧ ∃ c, kids.first = some c) := by
  unfold shallow
  rw [hchild]
  rcases hkids with hplain | htext
  · cases kids with
    | nil => exact .inl ⟨rfl, rfl⟩
    | cons c kids' rest' =>
      have hc : (dom c).type = .element := hplain.1
      exact .inr ⟨by simp [Forest.first, hc], hplain, c, rfl⟩
  · refine .inl ⟨?_, elements_text htext⟩
    rcases kids with _ | ⟨c, _ | _, _ | _⟩
    · cases htext
    · have hc : (dom c).type = .text := htext
      simp [Forest.first, hc]
    · cases htext
    · cases htext
    · cases htext

end Elements

/-! ## One call -/

section Loop
variable {dom : Dom} {start : Ptr} {nodeN : Text}

/-- The elements still to come that are looked for. -/
def hits (dom : Dom) (nodeN : Text) (f : Forest) (ctx : List Forest) : List Ptr :=
  (ahead dom f ctx).filter fun p => (dom p).value = nodeN

/-- What a call of `find_all` makes of the position `f`, `ctx`: it returns the first hit and stands
behind it, or there is none and the cells are reset. -/
def Serves (dom : Dom) (start : Ptr) (nodeN : Text) (f : Forest) (ctx : List Forest)
    (r : Except Fault (Option Ptr × Cells)) : Prop :=
  (hits dom nodeN f ctx = [] ∧ r = .ok (none, ⟨none, none⟩)) ∨
  ∃ p recov f' ctx', hits dom nodeN f ctx = p :: hits dom nodeN f' ctx' ∧
    r = .ok (some p, ⟨some start, recov⟩) ∧ Resumes dom start p recov f' ctx' ∧
    turns f' ctx' ≤ turns f ctx

/-- A turn that returns nothing leaves the hits as they are. -/
theorem Serves.after {f f' : Forest} {ctx ctx' : List Forest}
    {r : Except Fault (Option Ptr × Cells)} (h : Serves dom start nodeN f' ctx' r)
    (hhits : hits dom nodeN f ctx = hits dom nodeN f' ctx') (hturns : turns f' ctx' ≤ turns f ctx) :
    Serves dom start nodeN f ctx r := by
  rcases h with ⟨hnone, hr⟩ | ⟨p, recov, f'', ctx'', hsome, hr, hres, hle⟩
  · exact .inl ⟨hhits.trans hnone, hr⟩
  · exact .inr ⟨p, recov, f'', ctx'', hhits.trans hsome, hr, hres, Nat.le_trans hle hturns⟩

/-- The induction is on the fuel, of which every turn takes one and `turns` bounds what is needed.
-/
theorem findLoop_serves (nodeN : Text) (n : ℕ) {f : Forest} {ctx : List Forest} {iter : Ptr}
    (h : Stands dom start iter f ctx) (hfuel : turns f ctx < n) :
    Serves dom start nodeN f ctx (findLoop dom nodeN n iter f.first ⟨some start, none⟩) := by
  induction n generalizing f ctx iter with
  | zero => omega
  | succ n ih =>
    obtain ⟨q, hlinked, hplain, hstart, hup, hunder⟩ := h
    cases f with
    | nil =>
      have hparent := hup rfl
      cases ctx with
      | nil =>
        obtain rfl : q = start := hunder
        refine .inl ⟨rfl, ?_⟩
        simp only [Forest.first, findLoop, hparent, if_true]
      | cons rest ctx =>
        -- one level up
        obtain ⟨hne, hnext, up, hparent', hrest⟩ := hunder
        have hstands : Stands dom start q rest ctx :=
          ⟨up, hrest.1, hrest.2.1, hrest.2.2.1, fun _ => hparent', hrest.2.2.2⟩
        have hturns := turns_up_lt rest ctx
        have hloop : findLoop dom nodeN (n + 1) iter Forest.nil.first ⟨some start, none⟩ =
            findLoop dom nodeN n q rest.first ⟨some start, none⟩ := by
          have hcell : ¬ some start = some q := fun heq => hne (Option.some.inj heq).symm
          simp only [Forest.first, findLoop, hparent, if_neg hcell, hnext]
        rw [hloop]
        exact (ih hstands (by omega)).after rfl (Nat.le_of_lt hturns)
    | cons p kids rest =>
      obtain ⟨hparent, hchild, hnext, hlkids, hlrest⟩ := hlinked
      obtain ⟨htype, hkids, hprest⟩ := hplain
      have hps : p ≠ start := fun heq => hstart (by simp [Forest.nodes, heq])
      have hskids : start ∉ kids.nodes := fun hmem => hstart (by simp [Forest.nodes, hmem])
      have hsrest : start ∉ rest.nodes := fun hmem => hstart (by simp [Forest.nodes, hmem])
      have hbehind : Stands dom start p rest ctx :=
        ⟨q, hlrest, hprest, hsrest, fun _ => hparent, hunder⟩
      have hle := turns_rest_lt p kids rest ctx
      have hle' := turns_kids_lt p kids rest ctx
      rcases shallow_or hchild hkids with ⟨hshallow, hnone⟩ | ⟨hdeep, hpkids, c, hc⟩
      · have hahead : ahead dom (.cons p kids rest) ctx = p :: ahead dom rest ctx := by
          simp [ahead, elements_cons htype, hnone]
        by_cases hvalue : nodeN = (dom p).value
        · refine .inr ⟨p, none, rest, ctx, ?_, ?_, ⟨hnext, hbehind⟩, Nat.le_of_lt hle⟩
          · simp [hits, hahead, hvalue]
          · simp only [Forest.first, findLoop, hshallow, if_true, if_pos hvalue]
        · have hloop : findLoop dom nodeN (n + 1) iter (Forest.cons p kids rest).first
              ⟨some start, none⟩ = findLoop dom nodeN n p rest.first ⟨some start, none⟩ := by
            simp only [Forest.first, findLoop, hshallow, if_true, if_neg hvalue, hnext]
          rw [hloop]
          refine (ih hbehind (by omega)).after ?_ (Nat.le_of_lt hle)
          simp [hits, hahead, Ne.symm hvalue]
      · -- down to the children; the siblings behind `p` are still to come
        have hbelow (iter' : Ptr) : Stands dom start iter' kids (rest :: ctx) := by
          refine ⟨p, hlkids, hpkids, hskids, fun hnil => ?_, hps, hnext, q, hparent, hlrest, hprest,
            hsrest, hunder⟩
          rw [hnil] at hc
          cases hc
        have hahead : ahead dom (.cons p kids rest) ctx = p :: ahead dom kids (rest :: ctx) := by
          simp [ahead, elements_cons htype]
        by_cases hvalue : nodeN = (dom p).value
        · refine .inr ⟨p, some c, kids, rest :: ctx, ?_, ?_, ⟨hc, hbelow c⟩, Nat.le_of_lt hle'⟩
          · simp [hits, hahead, hvalue]
          · simp only [Forest.first, findLoop, hdeep, Bool.false_eq_true, if_false, if_pos hvalue]
            rw [hchild, hc]
        · have hloop : findLoop dom nodeN (n + 1) iter (Forest.cons p kids rest).first
              ⟨some start, none⟩ = findLoop dom nodeN n p kids.first ⟨some start, none⟩ := by
            simp only [Forest.first, findLoop, hdeep, Bool.false_eq_true, if_false, if_neg hvalue]
            rw [hchild]
            rfl
          rw [hloop]
          refine (ih (hbelow p) (by omega)).after ?_ (Nat.le_of_lt hle')
          simp [hits, hahead, Ne.symm hvalue]

theorem findAll_resumed {node : Ptr} {recov : Option Ptr} {f : Forest} {ctx : List Forest}
    (h : Resumes dom start node recov f ctx) (nodeN : Text) (fuel : ℕ) :
    ∃ iter, Stands dom start iter f ctx ∧ findAll dom fuel node nodeN ⟨some start, recov⟩ =
      findLoop dom nodeN fuel iter f.first ⟨some start, none⟩ := by
  cases recov with
  | some r =>
    obtain ⟨hfirst, hstands⟩ := h
    exact ⟨r, hstands, by rw [hfirst]; rfl⟩
  | none =>
    obtain ⟨hnext, hstands⟩ := h
    exact ⟨node, hstands, by rw [← hnext]; rfl⟩

/-! ## All calls -/

theorem findEach_serves {calls : ℕ} {node : Ptr} {cells : Cells} {f : Forest} {ctx : List Forest}
    {fuel : ℕ} (h : Serves dom start nodeN f ctx (findAll dom fuel node nodeN cells))
    (hfuel : turns f ctx < fuel) (hcalls : (hits dom nodeN f ctx).length < calls) :
    findEach dom fuel nodeN calls node cells =
      .ok (hits dom nodeN f ctx, ⟨none, none⟩) := by
  induction calls generalizing node cells f ctx with
  | zero => omega
  | succ calls ih =>
    rcases h with ⟨hnone, hr⟩ | ⟨p, recov, f', ctx', hsome, hr, hres, hle⟩
    · simp only [findEach, hr, hnone]
    · obtain ⟨iter, hstands, hcall⟩ := findAll_resumed hres nodeN fuel
      have hserves := findLoop_serves nodeN fuel hstands (by omega)
      rw [← hcall] at hserves
      rw [hsome, List.length_cons] at hcalls
      have hrest := ih hserves (by omega) (by omega)
      simp only [findEach, hr, hrest, hsome, Except.map]

/-- The object goes where the calls go, and stays at the node found last. -/
theorem cxml_findEach (fuel calls : ℕ) (node : Ptr) (cells : Cells) :
    CXml.findEach dom fuel nodeN calls { curNode := some node, cells } =
      (findEach dom fuel nodeN calls node cells).map fun (ps, cells) =>
        (ps, { curNode := some (ps.getLastD node), cells }) := by
  induction calls generalizing node cells with
  | zero => rfl
  | succ calls ih =>
    simp only [CXml.findEach, CXml.findAll, findEach]
    rcases findAll dom fuel node nodeN cells with e | ⟨_ | p, cells'⟩
    · rfl
    · rfl
    · simp only [ih]
      cases findEach dom fuel nodeN calls p cells' with
      | error e => rfl
      | ok r =>
        obtain ⟨ps, cells''⟩ := r
        cases ps <;> rfl

end Loop

/-- **Enumeration.** Every call returns; the calls return the descendants with the name, each once
and in document order, then 0, and leave the cells as they were before the first. So a loop over
`CXml::find_all` visits these nodes and ends ready for another. -/
theorem findEach_named (dom : Dom) (start : Ptr) (f : Forest) (nodeN : Text)
    (hroot : Rooted dom start f) (hshape : f.Plain dom ∨ f.IsText dom)
    (hchild : f ≠ .nil) (hfirst : ∀ c ∈ f.first, (dom c).type ≠ .text) (fuel calls : ℕ)
    (hfuel : 2 * f.size < fuel) (hcalls : (named dom nodeN f).length < calls) :
    findEach dom fuel nodeN calls start ⟨none, none⟩ = .ok (named dom nodeN f, ⟨none, none⟩) ∧
      (named dom nodeN f).Nodup ∧
      CXml.findEach dom fuel nodeN calls ⟨some start, none, none⟩ =
        .ok (named dom nodeN f, ⟨some ((named dom nodeN f).getLastD start), none, none⟩) := by
  obtain ⟨hnot, hnodup⟩ := List.nodup_cons.mp hroot.distinct
  suffices hmain : findEach dom fuel nodeN calls start ⟨none, none⟩ =
      .ok (named dom nodeN f, ⟨none, none⟩) by
    refine ⟨hmain, (hnodup.filter _).filter _, ?_⟩
    rw [cxml_findEach, hmain]
    rfl
  cases f with
  | nil => exact absurd rfl hchild
  | cons c kids rest =>
    have htype : (dom c).type ≠ .text := hfirst c rfl
    have hplain : (Forest.cons c kids rest).Plain dom := by
      refine hshape.resolve_right fun htext => htype ?_
      rcases kids with _ | _ <;> rcases rest with _ | _ <;> first | exact htext | cases htext
    have hstands : Stands dom start start (.cons c kids rest) [] :=
      ⟨start, hroot.linked, hplain, hnot, nofun, rfl⟩
    have hserves := findLoop_serves nodeN fuel hstands (by simpa [turns] using hfuel)
    have hcall : findAll dom fuel start nodeN ⟨none, none⟩ =
        findLoop dom nodeN fuel start (Forest.cons c kids rest).first ⟨some start, none⟩ := by
      simp only [findAll, hroot.child, Forest.first, if_neg htype]
    have hhits : hits dom nodeN (.cons c kids rest) [] = named dom nodeN (.cons c kids rest) := by
      simp [hits, ahead, named]
    rw [← hcall] at hserves
    rw [← hhits] at hcalls ⊢
    exact findEach_serves hserves (by simpa [turns] using hfuel) hcalls

/-- `<a><b><b/></b><c/></a>`: both `b` are found, the outer one first. -/
theorem findEach_nested :
    findEach (fun p => match p with
      | 0 => ⟨.element, ['a'], none, some 1, none⟩
      | 1 => ⟨.element, ['b'], some 0, some 2, some 3⟩
      | 2 => ⟨.element, ['b'], some 1, none, none⟩
      | _ => ⟨.element, ['c'], some 0, none, none⟩) 7 ['b'] 3 0 ⟨none, none⟩ =
      .ok ([1, 2], ⟨none, none⟩) := by
  refine (findEach_named _ 0 (.cons 1 (.cons 2 .nil .nil) (.cons 3 .nil .nil)) ['b'] ⟨rfl, ?_, ?_⟩
    (.inl ?_) (by simp) ?_ 7 3 (by decide) (by decide)).1
  · exact ⟨rfl, rfl, rfl, ⟨rfl, rfl, rfl, trivial, trivial⟩, rfl, rfl, rfl, trivial, trivial⟩
  · decide
  · exact ⟨rfl, .inl ⟨rfl, .inl trivial, trivial⟩, rfl, .inl trivial, trivial⟩
  · intro c hc
    obtain rfl := Option.some.inj hc
    decide

end DevFramework.Xml
