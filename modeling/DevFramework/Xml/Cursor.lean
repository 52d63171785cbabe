import DevFramework.Foundations.Transition
import DevFramework.Xml.FindAll

/-! # The cursor between calls of `find_all`

The cells remember a search from one call to the next. A call that climbs back to the start clears
them; a call that is started at an element it cannot descend into returns 0, or follows a null
child, after the start has been written. Below, any document is searched in any order: nothing is
assumed of the shape of its trees.
-/
namespace DevFramework.Xml
open DevFramework.Transition
set_option autoImplicit false
set_option maxHeartbeats 250000

/-! ## The tree below a node -/

/-- What is below `s`. -/
def Forest.under (s : Ptr) : Forest → Forest
  | nil => nil
  | cons p kids rest =>
    if p = s then kids else if s ∈ kids.nodes then kids.under s else rest.under s

section Under
variable {dom : Dom} {s q : Ptr}

theorem first_mem {f : Forest} {x : Ptr} (hx : f.first = some x) : x ∈ f.nodes := by
  cases f with
  | nil => cases hx
  | cons c kids rest =>
    obtain rfl : c = x := Option.some.inj hx
    exact List.mem_cons_self

theorem nodes_under_subset (s : Ptr) (f : Forest) : (f.under s).nodes ⊆ f.nodes := by
  induction f with
  | nil => exact List.Subset.refl _
  | cons p kids rest hkids hrest =>
    intro x hx
    simp only [Forest.under] at hx
    simp only [Forest.nodes, List.mem_cons, List.mem_append]
    split_ifs at hx
    · exact .inr (.inl hx)
    · exact .inr (.inl (hkids hx))
    · exact .inr (.inr (hrest hx))

theorem size_under_le (s : Ptr) (f : Forest) : (f.under s).size ≤ f.size := by
  induction f with
  | nil => exact Nat.le_refl _
  | cons p kids rest hkids hrest =>
    simp only [Forest.under, Forest.size]
    split_ifs <;> omega

/-- Every node of a tree is the root of a tree. -/
theorem rooted_under {f : Forest} (hlinked : f.Linked dom q) (hnodup : f.nodes.Nodup)
    (hs : s ∈ f.nodes) : Rooted dom s (f.under s) := by
  induction f generalizing q with
  | nil => cases hs
  | cons p kids rest hkids hrest =>
    obtain ⟨-, hchild, -, hlkids, hlrest⟩ := hlinked
    obtain ⟨hp, htail⟩ := List.nodup_cons.mp hnodup
    obtain ⟨hnkids, hnrest, -⟩ := List.nodup_append.mp htail
    simp only [Forest.under]
    split_ifs with hps hmem
    · subst hps
      exact ⟨hchild, hlkids, hnodup.sublist ((List.sublist_append_left _ _).cons_cons _)⟩
    · exact hkids hlkids hnkids hmem
    · have hs' : s ∈ rest.nodes := by
        simp only [Forest.nodes, List.mem_cons, List.mem_append] at hs
        obtain heq | hin | hin := hs
        · exact absurd heq.symm hps
        · exact absurd hin hmem
        · exact hin
      exact hrest hlrest hnrest hs'

theorem Rooted.nodup {f : Forest} (h : Rooted dom s f) : f.nodes.Nodup :=
  (List.nodup_cons.mp h.distinct).2

theorem Rooted.under {doc : Ptr} {F : Forest} (h : Rooted dom doc F) (hs : s ∈ F.nodes) :
    Rooted dom s (F.under s) := rooted_under h.linked h.nodup hs

end Under

/-! ## Where a call goes on -/

/-- From `q` up to `top`: the siblings still to come on every level. -/
def UpTo (dom : Dom) (top : Ptr) : Ptr → List Forest → Prop
  | q, [] => q = top
  | q, rest :: ctx => (dom q).next = rest.first ∧
      ∃ up, (dom q).parent = some up ∧ rest.Linked dom up ∧ UpTo dom top up ctx

/-- As `Stands`, in a tree of any shape and whatever the cells say. -/
def Walks (dom : Dom) (top iter : Ptr) (f : Forest) (ctx : List Forest) : Prop :=
  ∃ q, f.Linked dom q ∧ (f = .nil → (dom iter).parent = some q) ∧ UpTo dom top q ctx

/-- The nodes still to come, in document order. -/
def toCome (f : Forest) (ctx : List Forest) : List Ptr :=
  f.nodes ++ ctx.flatMap Forest.nodes

theorem toCome_nil (f : Forest) : toCome f [] = f.nodes := List.append_nil _

theorem toCome_cons (p : Ptr) (kids rest : Forest) (ctx : List Forest) :
    toCome (.cons p kids rest) ctx = p :: (kids.nodes ++ toCome rest ctx) := by
  rw [toCome, Forest.nodes, List.cons_append, List.append_assoc, toCome]

theorem toCome_kids (kids rest : Forest) (ctx : List Forest) :
    toCome kids (rest :: ctx) = kids.nodes ++ toCome rest ctx := by
  rw [toCome, List.flatMap_cons, toCome]

theorem toCome_rest_subset (p : Ptr) (kids rest : Forest) (ctx : List Forest) :
    toCome rest ctx ⊆ toCome (.cons p kids rest) ctx := by
  rw [toCome_cons]
  exact List.subset_cons_of_subset p (List.subset_append_right _ _)

/-- A call returns 0 and clears the cells, or a node of `S`; what it leaves to go on with is in `S`
too. -/
def Lands (S : List Ptr) (s : Ptr) (r : Except Fault (Option Ptr × Cells)) : Prop :=
  r = .ok (none, ⟨none, none⟩) ∨
  ∃ p recov, r = .ok (some p, ⟨some s, recov⟩) ∧ p ∈ S ∧ ∀ x, recov = some x → x ∈ S

theorem Lands.mono {S T : List Ptr} {s : Ptr} {r : Except Fault (Option Ptr × Cells)}
    (h : Lands S s r) (hsub : S ⊆ T) : Lands T s r := by
  obtain hnone | ⟨p, recov, hr, hp, hrecov⟩ := h
  · exact .inl hnone
  · exact .inr ⟨p, recov, hr, hsub hp, fun x hx => hsub (hrecov x hx)⟩

section Loop
variable {dom : Dom} {top : Ptr}

/-- Any node of a tree, with what comes behind it. -/
theorem exists_upTo {f : Forest} {q p : Ptr} {ctx : List Forest} (hlinked : f.Linked dom q)
    (hup : UpTo dom top q ctx) (hp : p ∈ f.nodes) :
    ∃ q' kids rest ctx' before, (Forest.cons p kids rest).Linked dom q' ∧ UpTo dom top q' ctx' ∧
      toCome f ctx = before ++ toCome (.cons p kids rest) ctx' ∧
      turns (.cons p kids rest) ctx' ≤ turns f ctx := by
  induction f generalizing q ctx with
  | nil => cases hp
  | cons a kids rest hkids hrest =>
    have hall := hlinked
    obtain ⟨hparent, -, hnext, hlkids, hlrest⟩ := hlinked
    simp only [Forest.nodes, List.mem_cons, List.mem_append] at hp
    obtain rfl | hin | hin := hp
    · exact ⟨q, kids, rest, ctx, [], hall, hup, rfl, Nat.le_refl _⟩
    · -- one level down; the siblings behind `a` are still to come
      have hdown : UpTo dom top a (rest :: ctx) := ⟨hnext, q, hparent, hlrest, hup⟩
      obtain ⟨q', kids', rest', ctx', before, hlinked', hup', heq, hle⟩ := hkids hlkids hdown hin
      have hlt := turns_kids_lt a kids rest ctx
      refine ⟨q', kids', rest', ctx', a :: before, hlinked', hup', ?_, by omega⟩
      rw [toCome_cons, ← toCome_kids, heq, List.cons_append]
    · obtain ⟨q', kids', rest', ctx', before, hlinked', hup', heq, hle⟩ := hrest hlrest hup hin
      have hlt := turns_rest_lt a kids rest ctx
      refine ⟨q', kids', rest', ctx', a :: (kids.nodes ++ before), hlinked', hup', ?_, by omega⟩
      rw [toCome_cons, heq, List.cons_append, List.append_assoc]

theorem exists_place {f : Forest} {q p : Ptr} (hlinked : f.Linked dom q) (hp : p ∈ f.nodes) :
    ∃ q' kids rest ctx before, (Forest.cons p kids rest).Linked dom q' ∧ UpTo dom q q' ctx ∧
      f.nodes = before ++ toCome (.cons p kids rest) ctx ∧
      turns (.cons p kids rest) ctx ≤ 2 * f.size := by
  have hstart : UpTo dom q q [] := rfl
  obtain ⟨q', kids, rest, ctx, before, hcons, hup, heq, hle⟩ := exists_upTo hlinked hstart hp
  rw [toCome_nil] at heq
  exact ⟨q', kids, rest, ctx, before, hcons, hup, heq, hle⟩

/-- What `n` units of fuel come to, of which the tree takes `k`: the loop lands in `S`, the fuel is
used up, or the loop comes out at `top` with what is left. -/
def Ends (dom : Dom) (nodeN : Text) (top s : Ptr) (S : List Ptr) (k n : ℕ)
    (r : Except Fault (Option Ptr × Cells)) : Prop :=
  Lands S s r ∨ (n ≤ k ∧ r = .error .spin) ∨
  ∃ m i, (dom i).parent = some top ∧ n ≤ m + k ∧ r = findLoop dom nodeN m i none ⟨some s, none⟩

/-- A turn that returns nothing. -/
theorem Ends.after {nodeN : Text} {s : Ptr} {S T : List Ptr} {j k n : ℕ}
    {r : Except Fault (Option Ptr × Cells)} (h : Ends dom nodeN top s S j n r) (hsub : S ⊆ T)
    (hlt : j < k) : Ends dom nodeN top s T k (n + 1) r := by
  obtain hlands | ⟨hle, hspin⟩ | ⟨m, i, hi, hle, hout⟩ := h
  · exact .inl (hlands.mono hsub)
  · exact .inr (.inl ⟨by omega, hspin⟩)
  · exact .inr (.inr ⟨m, i, hi, by omega, hout⟩)

/-- The induction is on the fuel; what is still to come shrinks with every turn. -/
theorem findLoop_ends (nodeN : Text) (s : Ptr) (n : ℕ) {f : Forest} {ctx : List Forest}
    {iter : Ptr} (h : Walks dom top iter f ctx) :
    Ends dom nodeN top s (toCome f ctx) (turns f ctx) n
      (findLoop dom nodeN n iter f.first ⟨some s, none⟩) := by
  induction n generalizing f ctx iter with
  | zero => exact .inr (.inl ⟨Nat.zero_le _, rfl⟩)
  | succ n ih =>
    obtain ⟨q, hlinked, hnil, hup⟩ := h
    cases f with
    | nil =>
      have hparent := hnil rfl
      cases ctx with
      | nil =>
        obtain rfl : q = top := hup
        exact .inr (.inr ⟨n + 1, iter, hparent, Nat.le_add_right _ _, rfl⟩)
      | cons rest ctx =>
        obtain ⟨hnext, up, hparent', hlrest, hup'⟩ := hup
        by_cases hcell : some s = some q
        · left; left
          simp only [Forest.first, findLoop, hparent, if_pos hcell]
        · have hrest := ih (show Walks dom top q rest ctx from ⟨up, hlrest, fun _ => hparent', hup'⟩)
          simp only [Forest.first, findLoop, hparent, if_neg hcell, hnext]
          apply hrest.after
          · rw [toCome_kids]
            exact List.Subset.refl _
          · exact turns_up_lt rest ctx
    | cons p kids rest =>
      obtain ⟨hparent, hchild, hnext, hlkids, hlrest⟩ := hlinked
      have hp : p ∈ toCome (.cons p kids rest) ctx := List.mem_cons_self
      simp only [Forest.first, findLoop]
      split_ifs with hshallow hvalue hvalue
      · exact .inl (.inr ⟨p, none, rfl, hp, fun _ hr => by cases hr⟩)
      · rw [hnext]
        apply (ih ⟨q, hlrest, fun _ => hparent, hup⟩).after
        · exact toCome_rest_subset p kids rest ctx
        · exact turns_rest_lt p kids rest ctx
      · rw [hchild]
        refine .inl (.inr ⟨p, kids.first, rfl, hp, fun x hx => List.mem_cons_of_mem _ ?_⟩)
        simp [first_mem hx]
      · -- down to the children; the siblings behind `p` are still to come
        have hdown : UpTo dom top p (rest :: ctx) := ⟨hnext, q, hparent, hlrest, hup⟩
        have hne : kids ≠ .nil := by
          rintro rfl
          simp [shallow, hchild, Forest.first] at hshallow
        rw [hchild]
        apply (ih ⟨p, hlkids, fun hkids => absurd hkids hne, hdown⟩).after
        · rw [toCome_cons, toCome_kids]
          exact List.subset_cons_self _ _
        · exact turns_kids_lt p kids rest ctx

/-- A search that comes out at its own start has landed. -/
theorem findLoop_lands (nodeN : Text) {n : ℕ} {f : Forest} {ctx : List Forest} {iter : Ptr}
    (h : Walks dom top iter f ctx) (hfuel : turns f ctx < n) :
    Lands (toCome f ctx) top (findLoop dom nodeN n iter f.first ⟨some top, none⟩) := by
  obtain hlands | ⟨hle, -⟩ | ⟨m, i, hi, hle, hout⟩ := findLoop_ends nodeN top n h
  · exact hlands
  · omega
  · obtain ⟨m, rfl⟩ : ∃ m', m = m' + 1 := ⟨m - 1, by omega⟩
    rw [hout]
    left
    simp only [findLoop, hi, if_true]

end Loop

/-! ## Runs of calls -/

structure Call where
  node : Ptr
  nodeN : Text
  deriving DecidableEq, Repr

/-- A call, which leaves the cells for the next. -/
def step (dom : Dom) (fuel : ℕ) (cells : Cells) (c : Call) : Option Cells :=
  match findAll dom fuel c.node c.nodeN cells with
  | .ok (_, cells) => some cells
  | .error _ => none

/-- A search is started at a node with a first child that is not a text, and goes on from a node
below its start, unless the cells say where. -/
def Sound (dom : Dom) (F : Forest) (cells : Cells) (c : Call) : Prop :=
  match cells.nodeS, cells.recovR with
  | none, _ => c.node ∈ F.nodes ∧ shallow dom c.node = false
  | some s, none => c.node ∈ (F.under s).nodes
  | some _, some _ => True

/-- The call returns, and if it returns 0 both cells are null. -/
def Resets (r : Except Fault (Option Ptr × Cells)) : Prop :=
  ∃ p cells, r = .ok (p, cells) ∧ (p = none → cells = ⟨none, none⟩)

/-- No search is under way, or the cells point into the tree below its start. -/
def Cells.Kept (F : Forest) (cells : Cells) : Prop :=
  match cells.nodeS with
  | none => cells.recovR = none
  | some s => s ∈ F.nodes ∧ ∀ x, cells.recovR = some x → x ∈ (F.under s).nodes

section Runs
variable {dom : Dom} {doc : Ptr} {F : Forest} {fuel : ℕ}

theorem Lands.resets {S : List Ptr} {start : Ptr} {r : Except Fault (Option Ptr × Cells)}
    (h : Lands S start r) : Resets r := by
  obtain hr | ⟨p, recov, hr, -, -⟩ := h
  · exact ⟨none, _, hr, fun _ => rfl⟩
  · exact ⟨some p, _, hr, nofun⟩

theorem findAll_started (hroot : Rooted dom doc F) (hfuel : 2 * F.size < fuel)
    (hdeep : shallow dom doc = false) (nodeN : Text) :
    Lands F.nodes doc (findAll dom fuel doc nodeN ⟨none, none⟩) := by
  cases F with
  | nil =>
    have hchild : (dom doc).firstChild = none := hroot.child
    rw [shallow, hchild] at hdeep
    cases hdeep
  | cons child kids rest =>
    have hchild : (dom doc).firstChild = some child := hroot.child
    have htype : (dom child).type ≠ .text := by
      rw [shallow, hchild] at hdeep
      simpa using hdeep
    have hwalks : Walks dom doc doc (.cons child kids rest) [] := ⟨doc, hroot.linked, nofun, rfl⟩
    have hloop := findLoop_lands nodeN hwalks (n := fuel) (by simpa [turns] using hfuel)
    rw [toCome_nil] at hloop
    simp only [findAll, hchild, if_neg htype]
    exact hloop

/-- A search that goes on, from a node below its start or where the cells say. -/
theorem findAll_goes_on (hroot : Rooted dom doc F) (hfuel : 2 * F.size < fuel) {node p : Ptr}
    {recov : Option Ptr} (hp : p ∈ F.nodes) (hat : recov = some p ∨ recov = none ∧ node = p)
    (nodeN : Text) : Lands F.nodes doc (findAll dom fuel node nodeN ⟨some doc, recov⟩) := by
  obtain ⟨q, kids, rest, ctx, before, hlinked, hup, heq, hle⟩ := exists_place hroot.linked hp
  have hsub : toCome (.cons p kids rest) ctx ⊆ F.nodes := by
    rw [heq]
    exact List.subset_append_right _ _
  obtain rfl | ⟨rfl, rfl⟩ := hat
  · have hwalks : Walks dom doc p (.cons p kids rest) ctx := ⟨q, hlinked, nofun, hup⟩
    exact (findLoop_lands nodeN hwalks (by omega)).mono hsub
  · have hwalks : Walks dom doc node rest ctx := ⟨q, hlinked.2.2.2.2, fun _ => hlinked.1, hup⟩
    have hturns := turns_rest_lt node kids rest ctx
    have hbehind := List.Subset.trans (toCome_rest_subset node kids rest ctx) hsub
    simp only [findAll, hlinked.2.2.1]
    exact (findLoop_lands nodeN hwalks (by omega)).mono hbehind

/-- What a call does where the cells are in order: it stays below a start. -/
theorem findAll_lands (hroot : Rooted dom doc F) (hfuel : 2 * F.size < fuel) {cells : Cells}
    {c : Call} (hkept : cells.Kept F) (hsound : Sound dom F cells c) :
    ∃ s ∈ F.nodes, Lands (F.under s).nodes s (findAll dom fuel c.node c.nodeN cells) := by
  obtain ⟨nodeS, recovR⟩ := cells
  cases nodeS with
  | none =>
    obtain rfl : recovR = none := hkept
    have hunder := hroot.under hsound.1
    have hsize := size_under_le c.node F
    exact ⟨c.node, hsound.1, findAll_started hunder (by omega) hsound.2 c.nodeN⟩
  | some s =>
    obtain ⟨hs, hrecov⟩ := hkept
    have hunder := hroot.under hs
    have hsize := size_under_le s F
    refine ⟨s, hs, ?_⟩
    cases recovR with
    | none => exact findAll_goes_on hunder (by omega) hsound (.inr ⟨rfl, rfl⟩) c.nodeN
    | some x => exact findAll_goes_on hunder (by omega) (hrecov x rfl) (.inl rfl) c.nodeN

theorem step_kept (hroot : Rooted dom doc F) (hfuel : 2 * F.size < fuel) {cells cells' : Cells}
    {c : Call} (hkept : cells.Kept F) (hsound : Sound dom F cells c)
    (h : step dom fuel cells c = some cells') : cells'.Kept F := by
  obtain ⟨s, hs, hr | ⟨p, recov, hr, -, hrecov⟩⟩ := findAll_lands hroot hfuel hkept hsound
  · rw [step, hr] at h
    obtain rfl := Option.some.inj h
    rfl
  · rw [step, hr] at h
    obtain rfl := Option.some.inj h
    exact ⟨hs, hrecov⟩

end Runs

/-- **The cursor.** In a run of sound calls, over one document and with any starts and names, a call
returns, clears both cells with 0, and otherwise returns a node that a next call can go on from. A
search that is started anywhere else does not. -/
theorem findAll_resets_iff (dom : Dom) (doc : Ptr) (F : Forest) (fuel : ℕ)
    (hroot : Rooted dom doc F) (hfuel : 2 * F.size < fuel) :
    (∀ cells, Reach (step dom fuel) (Sound dom F) ⟨none, none⟩ cells →
      ∀ c, Sound dom F cells c → Resets (findAll dom fuel c.node c.nodeN cells) ∧
        ∀ p cells', findAll dom fuel c.node c.nodeN cells = .ok (some p, cells') →
          ∀ nodeN, Sound dom F cells' ⟨p, nodeN⟩) ∧
    ∀ c : Call, c.node ∈ F.nodes →
      (Resets (findAll dom fuel c.node c.nodeN ⟨none, none⟩) ↔ shallow dom c.node = false) := by
  constructor
  · intro cells hreach c hsound
    have hkept : cells.Kept F :=
      hreach.invariant (P := Cells.Kept F) rfl fun _ _ _ hu hok h => step_kept hroot hfuel hu hok h
    obtain ⟨s, hs, hlands⟩ := findAll_lands hroot hfuel hkept hsound
    refine ⟨hlands.resets, fun p cells' hr nodeN => ?_⟩
    obtain hnone | ⟨p', recov, hsome, hp, -⟩ := hlands
    · rw [hnone] at hr
      cases hr
    · rw [hsome] at hr
      cases hr
      cases recov with
      | none => exact hp
      | some x => trivial
  · intro c hnode
    constructor
    · intro hresets
      obtain ⟨p, cells, hr, hclear⟩ := hresets
      unfold shallow
      cases hchild : (dom c.node).firstChild with
      | none =>
        rw [findAll, hchild] at hr
        cases hr
      | some child =>
        by_cases htype : (dom child).type = .text
        · simp only [findAll, hchild, if_pos htype] at hr
          cases hr
          cases hclear rfl
        · simpa using htype
    · intro hdeep
      have hkept : Cells.Kept F ⟨none, none⟩ := rfl
      obtain ⟨s, -, hlands⟩ := findAll_lands hroot hfuel hkept ⟨hnode, hdeep⟩
      exact hlands.resets

/-- `<r><t>x</t><e/><a><b/></a></r>`. -/
def page : Dom
  | 0 => ⟨.document, [], none, some 1, none⟩
  | 1 => ⟨.element, ['r'], some 0, some 2, none⟩
  | 2 => ⟨.element, ['t'], some 1, some 3, some 4⟩
  | 3 => ⟨.text, ['x'], some 2, none, none⟩
  | 4 => ⟨.element, ['e'], some 1, none, some 5⟩
  | 5 => ⟨.element, ['a'], some 1, some 6, none⟩
  | _ => ⟨.element, ['b'], some 5, none, none⟩

def pageTree : Forest :=
  .cons 1 (.cons 2 (.cons 3 .nil .nil) (.cons 4 .nil (.cons 5 (.cons 6 .nil .nil) .nil))) .nil

theorem rooted_page : Rooted page 0 pageTree :=
  ⟨rfl, by simp [pageTree, Forest.Linked, Forest.first, page], by decide⟩

/-- The search of the page for `b` finds it and ends ready for another; `e` is no start. -/
theorem findAll_resets_page :
    Resets (findAll page 13 6 ['b'] ⟨some 1, none⟩) ∧
      ¬ Resets (findAll page 13 4 ['b'] ⟨none, none⟩) := by
  have hiff := findAll_resets_iff page 0 pageTree 13 rooted_page (by decide)
  have hreach : Reach (step page 13) (Sound page pageTree) ⟨none, none⟩ ⟨some 1, none⟩ :=
    Reach.refl.tail (a := ⟨1, ['b']⟩) ⟨by decide, rfl⟩ rfl
  refine ⟨(hiff.1 _ hreach ⟨6, ['b']⟩ ?_).1, fun h => ?_⟩
  · show 6 ∈ (pageTree.under 1).nodes
    decide
  · cases (hiff.2 ⟨4, ['b']⟩ (by decide)).mp h

/-- Started at `e` the search follows a null child. Started at `t` it returns 0 and leaves the
cursor there; then the search for the `b` below `a` climbs past the root instead. -/
theorem text_start_leaves_cursor :
    Rooted page 0 pageTree ∧ (page 4).type = .element ∧ (page 2).type = .element ∧
      findAll page 13 4 ['b'] ⟨none, none⟩ = .error .nullDeref ∧
      findAll page 13 2 ['b'] ⟨none, none⟩ = .ok (none, ⟨some 2, none⟩) ∧
      findAll page 13 5 ['b'] ⟨some 2, none⟩ = .error .nullDeref ∧
      findAll page 13 5 ['b'] ⟨none, none⟩ = .ok (some 6, ⟨some 5, none⟩) :=
  ⟨rooted_page, rfl, rfl, rfl, rfl, rfl, rfl⟩

end DevFramework.Xml
