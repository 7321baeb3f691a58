import SafeMarkup.Proofs.Assembling
import SafeMarkup.Proofs.Numbering
import SafeMarkup.Proofs.Places
/-!
# The arena holds the tree

While a stream is read the arena is the row of what the fragment holds so far, with its open elements in it
(`OpenArena.Holds`): a new node stands behind all others, and closing an element moves nothing.  In the end it is the
row of the tree, and the tree is assembled from it (`TokenStream.build?_eq`).
-/
namespace SafeMarkup

/-! ## The arena of a fragment -/

namespace Fragment

open Node

/-- How many nodes some levels hold, they themselves included. -/
def extent : List OpenElement → Nat
  | [] => 0
  | e :: es => extent es + 1 + (descendantsAll e.children.reverse).length

/-- The places of some levels, the innermost first. -/
def heads : List OpenElement → List Nat
  | [] => []
  | _ :: es => extent es :: heads es

/-- Some levels in a row; the innermost has children at the places `later` behind those that it holds. -/
def row (later : List Nat) : List OpenElement → List Cell
  | [] => []
  | e :: es =>
    row [extent es] es ++ .element e.name e.attributes (later ++ (places (extent es + 1) e.children.reverse).reverse) ::
      rowAll (extent es + 1) e.children.reverse

theorem length_row (later : List Nat) (es : List OpenElement) : (row later es).length = extent es := by
  induction es generalizing later with
  | nil => rfl
  | cons e es ih =>
    rw [row, extent, List.length_append, ih, List.length_cons, length_rowAll]
    omega

/-- A further child of the innermost level stands behind all that is there. -/
theorem row_child (n : Node) (e : OpenElement) (es : List OpenElement) :
    row [] ({ e with children := n :: e.children } :: es) =
      row [extent (e :: es)] (e :: es) ++ n.row (extent (e :: es)) := by
  have hplace : extent es + 1 + (descendantsAll e.children.reverse).length = extent (e :: es) := rfl
  simp only [row, List.reverse_cons, places_append, rowAll_append, hplace, places, rowAll]
  simp

/-- **Closing an element moves nothing.** -/
theorem row_closeTop (es : List OpenElement) : row [] (closeTop es) = row [] es := by
  match es with
  | [] => rfl
  | [_] => rfl
  | e :: e' :: es =>
    have hadd : addChild (.element e.name e.attributes e.children.reverse) e'.children =
        .element e.name e.attributes e.children.reverse :: e'.children := rfl
    rw [closeTop, addTop, hadd, row_child]
    rfl

theorem heads_addTop (n : Node) (es : List OpenElement) : heads (addTop n es) = heads es := by cases es <;> rfl

theorem dropLast_heads_closeTop (es : List OpenElement) : (heads (closeTop es)).dropLast = (heads es).dropLast.tail := by
  match es with
  | [] => rfl
  | [_] => rfl
  | e :: e' :: es =>
    rw [closeTop, heads_addTop]
    rfl

theorem exists_levels (f : Fragment) : ∃ e es, f.levels = e :: es := by
  obtain ⟨path, cs⟩ := f
  cases path with
  | nil => exact ⟨_, _, rfl⟩
  | cons e path => exact ⟨_, _, rfl⟩

/-- Each level has its cell in the row. -/
theorem exists_cell (e : OpenElement) (outer : List OpenElement) : ∀ (later : List Nat) (above : List OpenElement),
    ∃ children, (row later (above ++ e :: outer)).toArray[extent outer]? = some (.element e.name e.attributes children)
  | later, [] => ⟨_, Cell.getElem?_middle (length_row _ outer).symm⟩
  | later, d :: above => by
    obtain ⟨children, h⟩ := exists_cell e outer [extent (above ++ e :: outer)] above
    refine ⟨children, ?_⟩
    rw [List.getElem?_toArray] at h ⊢
    rw [List.cons_append, row]
    exact (List.getElem?_append_left (List.getElem?_eq_some_iff.1 h).1).trans h

end Fragment

namespace Arena

open Fragment

theorem addChild?_row (e : OpenElement) (es : List OpenElement) (c : Cell) :
    addChild? ⟨(row [] (e :: es)).toArray⟩ (extent es) c =
      some (extent (e :: es), ⟨(row [extent (e :: es)] (e :: es) ++ [c]).toArray⟩) := by
  have hsize : (row [] (e :: es)).toArray.size = extent (e :: es) := length_row [] (e :: es)
  have hplace : extent es = (row [extent es] es).length := (length_row _ es).symm
  simp only [addChild?, push, hsize, List.push_toArray]
  simp only [row, List.append_assoc, List.cons_append, Cell.getElem?_middle hplace, Cell.setIfInBounds_middle hplace]
  rfl

/-- The last child of a level is the last node in its row, with what is below it. -/
theorem lastText?_row (name : Text) (as : List (Attribute Text)) (n : Node) (before : List Node)
    (es : List OpenElement) :
    lastText? ⟨(row [] (⟨name, as, n :: before⟩ :: es)).toArray⟩ (extent es) =
      some (match n with
        | .text s => some (extent (⟨name, as, before⟩ :: es), s)
        | _ => none) := by
  have hplace : extent es = (row [extent es] es).length := (length_row _ es).symm
  have hparent : (row [] (⟨name, as, n :: before⟩ :: es)).toArray[extent es]? = some (.element name as
      (extent (⟨name, as, before⟩ :: es) :: (Node.places (extent es + 1) before.reverse).reverse)) := by
    rw [row, Cell.getElem?_middle hplace]
    simp only [List.reverse_cons, Node.places_append, Node.places, List.nil_append, List.reverse_append,
      List.reverse_nil, List.singleton_append]
    rfl
  have hlast : (row [] (⟨name, as, n :: before⟩ :: es)).toArray[extent (⟨name, as, before⟩ :: es)]? =
      (n.row (extent (⟨name, as, before⟩ :: es)))[0]? := by
    have hchild := row_child n ⟨name, as, before⟩ es
    dsimp only at hchild
    rw [hchild, List.getElem?_toArray, List.getElem?_append_right (by rw [length_row]), length_row, Nat.sub_self]
  simp only [lastText?, hparent, Option.bind_eq_bind, Option.bind_some, Cell.children, hlast]
  cases n <;> rfl

theorem lastText?_row_nil (name : Text) (as : List (Attribute Text)) (es : List OpenElement) :
    lastText? ⟨(row [] (⟨name, as, []⟩ :: es)).toArray⟩ (extent es) = some none := by
  have hplace : extent es = (row [extent es] es).length := (length_row _ es).symm
  simp only [lastText?, row, Cell.getElem?_middle hplace]
  rfl

theorem addText?_row (e : OpenElement) (es : List OpenElement) (t : Text) :
    addText? ⟨(row [] (e :: es)).toArray⟩ (extent es) t = some ⟨(row [] (addTop (.text t) (e :: es))).toArray⟩ := by
  have hadd : (addChild? ⟨(row [] (e :: es)).toArray⟩ (extent es) (.text t)).map (·.2) =
      some ⟨(row [] ({ e with children := .text t :: e.children } :: es)).toArray⟩ := by
    rw [addChild?_row, row_child]
    rfl
  obtain ⟨name, as, children⟩ := e
  match children with
  | [] =>
    rw [addText?, lastText?_row_nil]
    exact hadd
  | .text s :: before =>
    have hplace := (length_row [extent (⟨name, as, before⟩ :: es)] (⟨name, as, before⟩ :: es)).symm
    have hold := row_child (.text s) ⟨name, as, before⟩ es
    have hnew := row_child (.text (s ++ t)) ⟨name, as, before⟩ es
    dsimp only [Node.row] at hold hnew
    rw [addText?, lastText?_row]
    simp only [Option.bind_eq_bind, Option.bind_some]
    rw [hold, Cell.setIfInBounds_middle hplace, ← hnew]
    rfl
  | .element _ _ _ :: before =>
    rw [addText?, lastText?_row]
    exact hadd
  | .comment _ :: before =>
    rw [addText?, lastText?_row]
    exact hadd

/-- **An end tag closes the innermost open element of its name** and all above it. -/
theorem afterEndTag?_heads {a : Arena} (name : Text) (r : OpenElement) : ∀ path : List OpenElement,
    (∀ above e outer, path = above ++ e :: outer →
      ∃ children, a.cells[extent (outer ++ [r])]? = some (.element e.name e.attributes children)) →
    a.afterEndTag? name (heads (path ++ [r])).dropLast =
      some ((path.findIdx? (Text.sameFolded ·.name name)).map fun k => (heads (path ++ [r])).dropLast.drop (k + 1))
  | [], _ => rfl
  | e :: path, h => by
    obtain ⟨children, hcell⟩ := h [] e path rfl
    have hpath := afterEndTag?_heads name r path fun above d outer he => h (e :: above) d outer (by rw [he]; rfl)
    have hdrop : (heads (e :: path ++ [r])).dropLast = extent (path ++ [r]) :: (heads (path ++ [r])).dropLast := by
      cases path <;> rfl
    rw [hdrop, afterEndTag?, hcell, List.findIdx?_cons]
    simp only [Option.bind_eq_bind, Option.bind_some]
    have hnamed : (Cell.element e.name e.attributes children).isNamed name = Text.sameFolded e.name name := rfl
    cases hname : Text.sameFolded e.name name with
    | true =>
      rw [hname] at hnamed
      rw [if_pos hnamed, if_pos rfl]
      rfl
    | false =>
      rw [hname] at hnamed
      rw [if_neg (by simp [hnamed]), if_neg (by decide), hpath, Option.map_map]
      rfl

end Arena

/-! ## Reading a stream into the arena -/

namespace OpenArena

open Fragment

variable {o : OpenArena} {f : Fragment}

/-- The arena holds what a fragment holds so far, and its open elements are the fragment's. -/
structure Holds (o : OpenArena) (f : Fragment) : Prop where
  cells : o.arena = ⟨(row [] f.levels).toArray⟩
  opened : o.opened = (heads f.levels).dropLast

theorem holds_empty : Holds empty Fragment.empty := ⟨rfl, rfl⟩

theorem Holds.closeOne (h : Holds o f) : Holds { o with opened := o.opened.tail } f.closeOne where
  cells := by rw [levels_closeOne, row_closeTop, h.cells]
  opened := by rw [levels_closeOne, dropLast_heads_closeTop, h.opened]

theorem Holds.repeat_closeOne (h : Holds o f) :
    ∀ k, Holds { o with opened := o.opened.drop k } (Nat.repeat Fragment.closeOne k f)
  | 0 => h
  | k + 1 => by
    rw [← List.tail_drop]
    exact (h.repeat_closeOne k).closeOne

/-- Where the next node goes. -/
theorem Holds.parent (h : Holds o f) {e : OpenElement} {es : List OpenElement} (hl : f.levels = e :: es) :
    o.opened.headD root = extent es := by
  rw [h.opened, hl]
  cases es <;> rfl

theorem Holds.exists_addChild (h : Holds o f) {n : Node} {c : Cell} (hn : ∀ i, n.row i = [c])
    (hadd : ∀ ns, addChild n ns = n :: ns) :
    ∃ place a, o.arena.addChild? (o.opened.headD root) c = some (place, a) ∧ Holds { o with arena := a } (f.add n) := by
  obtain ⟨e, es, hl⟩ := f.exists_levels
  have hcells := h.cells
  rw [hl] at hcells
  refine ⟨extent (e :: es), _, by rw [h.parent hl, hcells, Arena.addChild?_row], ?_, ?_⟩
  · rw [levels_add, hl, addTop, hadd, row_child, hn]
  · rw [levels_add, heads_addTop]
    exact h.opened

theorem Holds.exists_addText (h : Holds o f) (t : Text) :
    ∃ a, o.arena.addText? (o.opened.headD root) t = some a ∧ Holds { o with arena := a } (f.add (.text t)) := by
  obtain ⟨e, es, hl⟩ := f.exists_levels
  have hcells := h.cells
  rw [hl] at hcells
  refine ⟨_, by rw [h.parent hl, hcells, Arena.addText?_row], ?_, ?_⟩
  · rw [levels_add, hl]
  · rw [levels_add, heads_addTop]
    exact h.opened

theorem Holds.exists_afterEndTag (h : Holds o f) (name : Text) :
    ∃ closed, o.arena.afterEndTag? name o.opened = some closed ∧
      Holds { o with opened := closed.getD o.opened } (f.close name) := by
  have hcells : ∀ above e outer, f.path = above ++ e :: outer → ∃ children,
      o.arena.cells[extent (outer ++ [⟨Element.root, [], f.children⟩])]? =
        some (.element e.name e.attributes children) := fun above e outer he => by
    rw [h.cells, levels, he, List.append_assoc]
    exact exists_cell e _ [] above
  have hclosed := Arena.afterEndTag?_heads name _ f.path hcells
  rw [← levels, ← h.opened] at hclosed
  refine ⟨_, hclosed, ?_⟩
  rw [close, depth?]
  cases f.path.findIdx? (Text.sameFolded ·.name name) with
  | none => exact h
  | some k => exact h.repeat_closeOne (k + 1)

/-- **Each token is read alike** into the arena and into the fragment. -/
theorem Holds.exists_step (h : Holds o f) (t : Token Text) : ∃ o', o.step? t = some o' ∧ Holds o' (f.step t) := by
  cases t with
  | doctype t => exact ⟨o, rfl, h⟩
  | comment t =>
    have hrow : ∀ i, (Node.comment t).row i = [.comment t] := fun _ => rfl
    obtain ⟨place, a, ha, hold⟩ := h.exists_addChild hrow fun _ => rfl
    exact ⟨_, by rw [step?, ha]; rfl, hold⟩
  | text t =>
    rw [step?, Fragment.step]
    split
    · exact ⟨o, rfl, h⟩
    · obtain ⟨a, ha, hold⟩ := h.exists_addText t
      exact ⟨_, by rw [ha]; rfl, hold⟩
  | startTag name as selfClosing =>
    cases selfClosing with
    | true =>
      have hrow : ∀ i, (Node.element name as []).row i = [.element name as []] := fun _ => rfl
      obtain ⟨place, a, ha, hold⟩ := h.exists_addChild hrow fun _ => rfl
      exact ⟨_, by rw [step?, ha]; rfl, hold⟩
    | false =>
      obtain ⟨e, es, hl⟩ := f.exists_levels
      have hcells := h.cells
      have hopened := h.opened
      rw [hl] at hcells hopened
      have hlevels : (f.step (.startTag name as false)).levels = ⟨name, as, []⟩ :: e :: es := congrArg (_ :: ·) hl
      refine ⟨_, by rw [step?, h.parent hl, hcells, Arena.addChild?_row]; rfl, ?_, ?_⟩
      · rw [hlevels]
        rfl
      · rw [hlevels]
        exact congrArg (extent (e :: es) :: ·) hopened
  | endTag name =>
    obtain ⟨closed, hclosed, hold⟩ := h.exists_afterEndTag name
    exact ⟨_, by rw [step?, hclosed]; rfl, hold⟩

/-- **A whole sequence of tokens is read alike.** -/
theorem Holds.exists_foldlM : ∀ (ts : List (Token Text)) {o : OpenArena} {f : Fragment}, Holds o f →
    ∃ o', ts.foldlM step? o = some o' ∧ Holds o' (ts.foldl Fragment.step f)
  | [], o, f, h => ⟨o, rfl, h⟩
  | t :: ts, o, f, h => by
    obtain ⟨o₁, hstep, h₁⟩ := h.exists_step t
    obtain ⟨o', hrun, h'⟩ := exists_foldlM ts h₁
    exact ⟨o', by rw [List.foldlM_cons, hstep]; exact hrun, h'⟩

/-- When all open elements are closed the arena is the row of the tree. -/
theorem Holds.arena_eq (h : Holds o f) : o.arena = ⟨(f.toNode.row 0).toArray⟩ := by
  have hclosed := (h.repeat_closeOne f.path.length).cells
  rw [levels, path_repeat_closeOne_length] at hclosed
  exact hclosed

end OpenArena

namespace TokenStream

/-- Numbers are looked up token by token, or all of them before the first token is read. -/
theorem arena?_eq (s : TokenStream) :
    s.arena? = s.toTokens?.bind fun ts => ts.foldlM OpenArena.step? OpenArena.empty := by
  have hfold : ∀ (ts : List (Token Nat)) (o : OpenArena),
      ts.foldlM (fun o t => (token? s.table t).bind o.step?) o =
        (ts.mapM (token? s.table)).bind fun ts => ts.foldlM OpenArena.step? o := by
    intro ts
    induction ts with
    | nil => exact fun o => rfl
    | cons t ts ih =>
      intro o
      simp only [List.foldlM_cons, List.mapM_cons, ih, Option.bind_eq_bind, Option.bind_assoc, Option.pure_def,
        Option.bind_some]
      exact congrArg _ (funext fun t' => Option.bind_comm _ _)
  exact hfold s.tokens .empty

theorem exists_arena {s : TokenStream} {ts : List (Token Text)} (h : s.toTokens? = some ts) :
    ∃ o, s.arena? = some o ∧ o.arena = ⟨((Node.ofTokens ts).row 0).toArray⟩ := by
  obtain ⟨o, ho, hold⟩ := OpenArena.holds_empty.exists_foldlM ts
  exact ⟨o, by rw [arena?_eq, h]; exact ho, hold.arena_eq⟩

theorem build?_of_toTokens? {s : TokenStream} {ts : List (Token Text)} (h : s.toTokens? = some ts) :
    s.build? = some (Node.ofTokens ts) := by
  obtain ⟨⟨_, opened⟩, ho, rfl⟩ := exists_arena h
  rw [build?, ho]
  exact Arena.toNode?_row (Node.ofTokens ts)

/-- **The stream of a text builds the tree of the text.** -/
theorem build?_read (t : Text) : (read t).build? = some (Node.parse t) := build?_of_toTokens? (toTokens?_read t)

/-- **The arena is the tree.**  The tree that is assembled from the arena is the one that the tokens give when they are
read into a fragment; there is none only if a number is not in the table.  Otherwise the arena holds every node of the
tree once, in document order, and two steps a node assemble it: none of them fails, nothing is left pending, every cell
has been taken, and one node is built. -/
theorem build?_eq (s : TokenStream) : s.build? = s.toTokens?.map Node.ofTokens ∧
    ∀ ts, s.toTokens? = some ts → ∃ o, s.arena? = some o ∧
      o.arena.cells.toList.map Cell.alone = (Node.ofTokens ts).descendants.map Node.alone ∧
      Assembly.steps? (2 * o.arena.cells.size) ⟨o.arena.cells, [(OpenArena.root, false)], []⟩ =
        some ⟨o.arena.cells.map Cell.taken, [], [Node.ofTokens ts]⟩ := by
  refine ⟨?_, fun ts hts => ?_⟩
  · cases hts : s.toTokens? with
    | none =>
      rw [build?, arena?_eq, hts]
      rfl
    | some ts => exact build?_of_toTokens? hts
  · obtain ⟨⟨_, opened⟩, ho, rfl⟩ := exists_arena hts
    exact ⟨_, ho, Node.map_alone_row _ 0, Assembly.steps?_whole _⟩

theorem build?_eq_misnested :
    build? ⟨[.startTag 0 [] false, .startTag 1 [⟨1, none⟩] false, .text ['x'], .text ['y'], .endTag 0, .endTag 1,
        .text ['z']], ⟨[['D', 'i', 'v'], ['b']]⟩⟩ =
      some (.element Element.root [] [.element ['D', 'i', 'v'] [] [.element ['b'] [⟨['b'], none⟩] [.text ['x', 'y']]],
        .text ['z']]) :=
  (build?_eq _).1.trans rfl

end TokenStream
end SafeMarkup
