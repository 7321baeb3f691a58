import SafeMarkup.Proofs.ArenaBuild
import SafeMarkup.Proofs.Reading
/-!
# What void elements hold

A tree is built from tokens as they are given, and a start tag opens its element unless the tag says that it closes
itself.  In the stream of a text every start tag of a void element says so.  In any other stream a void element may be
open, and whatever is put into it is its child (`TokenStream.build?_void`).  What is written of a tree leaves the
children of void elements out, so that the nodes of a built tree are all written just when nothing was put into an open
void element.
-/
namespace SafeMarkup

/-! ## The parts of written markup -/

/-- A part of written markup: what is written of a node alone, below a raw-text element (`raw`) or elsewhere, or an end
tag. -/
inductive Part where
  | own (raw : Bool) (n : Node)
  | endTag (name : Text)

namespace Part

def write : Part → Text
  | own _ (.element name as _) => Node.writeStart name as
  | own raw n => n.write raw
  | endTag name => Node.writeEnd name

def node? : Part → Option Node
  | own _ n => some n
  | endTag _ => none

end Part

namespace Node

mutual

/-- The parts that are written of a node and of all below it. -/
def parts (raw : Bool) : Node → List Part
  | .element name as cs =>
    .own raw (.element name as cs) ::
      if Element.isVoid name then [] else partsAll (Element.isRawText name) cs ++ [.endTag name]
  | .text t => [.own raw (.text t)]
  | .comment t => [.own raw (.comment t)]

def partsAll (raw : Bool) : List Node → List Part
  | [] => []
  | n :: ns => parts raw n ++ partsAll raw ns

end

/-- The parts that are written of the children of an element. -/
def innerParts : Node → List Part
  | .element name _ cs => partsAll (Element.isRawText name) cs
  | _ => []

/-- A node that holds nothing if it is a void element. -/
def VoidEmpty : Node → Prop
  | .element name _ cs => Element.isVoid name = true → cs = []
  | _ => True

instance : DecidablePred VoidEmpty
  | .element name _ cs => inferInstanceAs (Decidable (Element.isVoid name = true → cs = []))
  | .text _ => isTrue trivial
  | .comment _ => isTrue trivial

theorem flatMap_write_partsAll_of {raw : Bool} : ∀ {ns : List Node},
    (∀ n ∈ ns, (n.parts raw).flatMap Part.write = n.write raw) →
    (partsAll raw ns).flatMap Part.write = writeAll raw ns
  | [], _ => rfl
  | n :: ns, h => by
    obtain ⟨hn, hns⟩ := List.forall_mem_cons.1 h
    rw [partsAll, List.flatMap_append, hn, flatMap_write_partsAll_of hns, writeAll]

/-- **The parts put together are what is written.** -/
theorem flatMap_write_parts (n : Node) : ∀ raw, (n.parts raw).flatMap Part.write = n.write raw := by
  induction n with
  | element name as cs ih =>
    intro raw
    have hcs := flatMap_write_partsAll_of fun c hc => ih c hc (Element.isRawText name)
    rw [parts, List.flatMap_cons, Part.write, write]
    split
    · exact List.append_nil _
    · rw [List.flatMap_append, hcs, List.append_assoc]
      exact congrArg (writeStart name as ++ ·) (congrArg _ (List.append_nil _))
  | text t => exact fun raw => List.append_nil _
  | comment t => exact fun raw => List.append_nil _

theorem flatMap_write_innerParts (n : Node) : n.innerParts.flatMap Part.write = n.inner := by
  cases n with
  | element name as cs => exact flatMap_write_partsAll_of fun c _ => flatMap_write_parts c _
  | text t => rfl
  | comment t => rfl

/-! ## The nodes that are written -/

theorem nodes_partsAll_sublist_of {raw : Bool} : ∀ {ns : List Node},
    (∀ n ∈ ns, ((n.parts raw).filterMap Part.node?).Sublist n.descendants) →
    ((partsAll raw ns).filterMap Part.node?).Sublist (descendantsAll ns)
  | [], _ => List.Sublist.refl _
  | n :: ns, h => by
    obtain ⟨hn, hns⟩ := List.forall_mem_cons.1 h
    rw [partsAll, List.filterMap_append, descendantsAll]
    exact hn.append (nodes_partsAll_sublist_of hns)

theorem nodes_parts_element (raw : Bool) (name : Text) (as : List (Attribute Text)) (cs : List Node) :
    (parts raw (.element name as cs)).filterMap Part.node? = .element name as cs ::
      if Element.isVoid name then [] else (partsAll (Element.isRawText name) cs).filterMap Part.node? := by
  have hown : Part.node? (.own raw (.element name as cs)) = some (.element name as cs) := rfl
  rw [parts, List.filterMap_cons_some hown]
  split
  · rfl
  · rw [List.filterMap_append]
    exact congrArg _ (List.append_nil _)

/-- **The nodes that are written stand in the tree in their order.** -/
theorem nodes_parts_sublist (n : Node) : ∀ raw, ((n.parts raw).filterMap Part.node?).Sublist n.descendants := by
  induction n with
  | element name as cs ih =>
    intro raw
    rw [nodes_parts_element, descendants]
    refine .cons_cons _ ?_
    split
    · exact List.nil_sublist _
    · exact nodes_partsAll_sublist_of fun c hc => ih c hc _
  | text t => exact fun raw => List.Sublist.refl _
  | comment t => exact fun raw => List.Sublist.refl _

theorem nodes_partsAll_sublist (raw : Bool) (ns : List Node) :
    ((partsAll raw ns).filterMap Part.node?).Sublist (descendantsAll ns) :=
  nodes_partsAll_sublist_of fun n _ => nodes_parts_sublist n raw

theorem nodes_partsAll_eq_iff_of {raw : Bool} : ∀ {ns : List Node},
    (∀ n ∈ ns, ((n.parts raw).filterMap Part.node? = n.descendants ↔ n.Each VoidEmpty)) →
    ((partsAll raw ns).filterMap Part.node? = descendantsAll ns ↔ ∀ n ∈ ns, n.Each VoidEmpty)
  | [], _ => by simp [partsAll, descendantsAll]
  | n :: ns, h => by
    obtain ⟨hn, hns⟩ := List.forall_mem_cons.1 h
    have hone := nodes_parts_sublist n raw
    have hall := nodes_partsAll_sublist raw ns
    rw [partsAll, List.filterMap_append, descendantsAll, List.forall_mem_cons, ← hn, ← nodes_partsAll_eq_iff_of hns]
    constructor
    · -- neither side of the seam is longer than its tree, so neither is shorter
      intro he
      have hlength := congrArg List.length he
      rw [List.length_append, List.length_append] at hlength
      have hl₁ := hone.length_le
      have hl₂ := hall.length_le
      exact ⟨hone.eq_of_length (by omega), hall.eq_of_length (by omega)⟩
    · rintro ⟨h₁, h₂⟩
      rw [h₁, h₂]

theorem descendantsAll_eq_nil_iff {ns : List Node} : descendantsAll ns = [] ↔ ns = [] := by
  cases ns with
  | nil => simp [descendantsAll]
  | cons n ns => cases n <;> simp [descendantsAll, descendants]

/-- **All nodes of a tree are written just when its void elements hold nothing.** -/
theorem nodes_parts_eq_iff (n : Node) :
    ∀ raw, (n.parts raw).filterMap Part.node? = n.descendants ↔ n.Each VoidEmpty := by
  induction n with
  | element name as cs ih =>
    intro raw
    rw [nodes_parts_element, descendants, List.cons_inj_right, each_element, VoidEmpty]
    by_cases hv : Element.isVoid name = true
    · rw [if_pos hv, eq_comm, descendantsAll_eq_nil_iff]
      exact ⟨fun hcs => ⟨fun _ => hcs, by simp [hcs]⟩, fun h => h.1 hv⟩
    · rw [if_neg hv, nodes_partsAll_eq_iff_of fun c hc => ih c hc _]
      exact ⟨fun h => ⟨fun hv' => absurd hv' hv, h⟩, fun h => h.2⟩
  | text t => simp [parts, descendants, VoidEmpty, Part.node?]
  | comment t => simp [parts, descendants, VoidEmpty, Part.node?]

theorem nodes_innerParts_sublist (n : Node) :
    (n.innerParts.filterMap Part.node?).Sublist (descendantsAll n.children) := by
  cases n with
  | element name as cs => exact nodes_partsAll_sublist _ cs
  | text t => exact List.Sublist.refl _
  | comment t => exact List.Sublist.refl _

end Node

/-! ## Putting nodes into void elements -/

/-- Whether a token puts a node into the innermost open element. -/
def Token.putsNode {ν : Type} : Token ν → Bool
  | .comment _ => true
  | .text t => !t.isEmpty
  | .startTag _ _ _ => true
  | _ => false

namespace Fragment

open Node

/-- Whether a token puts a node into an open void element. -/
def fillsVoid (f : Fragment) (tok : Token Text) : Bool :=
  tok.putsNode && f.path.head?.any (Element.isVoid ·.name)

/-- A level that holds only trees whose void elements hold nothing. -/
def Clean (e : OpenElement) : Prop := ∀ c ∈ e.children, c.Each Node.VoidEmpty

/-- Void elements hold nothing: no child of a level does, and a level of a void element has no child and no other level
inside. -/
def VoidEmpty : List OpenElement → Prop
  | [] => True
  | e :: es => (Element.isVoid e.name = true → e.children = []) ∧ Clean e ∧
    ∀ e' ∈ es, Element.isVoid e'.name = false ∧ Clean e'

theorem each_closed (e : OpenElement) : (element e.name e.attributes e.children.reverse).Each Node.VoidEmpty ↔
    (Element.isVoid e.name = true → e.children = []) ∧ Clean e := by
  simp only [each_element, Node.VoidEmpty, List.reverse_eq_nil_iff, List.mem_reverse, Clean]

theorem addChild_ne_nil (n : Node) (before : List Node) : addChild n before ≠ [] := by
  rcases addChild_cases n before with ⟨t, s, b, rfl, rfl, hadd⟩ | ⟨-, hadd⟩
  · simp [hadd]
  · simp [hadd]

theorem clean_addChild {n : Node} {e : OpenElement} :
    Clean { e with children := addChild n e.children } ↔ n.Each Node.VoidEmpty ∧ Clean e := by
  rw [Clean, Clean]
  rcases addChild_cases n e.children with ⟨t, s, b, rfl, he, hadd⟩ | ⟨-, hadd⟩
  · simp [he, addChild, Node.VoidEmpty]
  · rw [hadd, List.forall_mem_cons]

/-- **A node can be put into any element but a void one.** -/
theorem voidEmpty_addTop (n : Node) (e : OpenElement) (es : List OpenElement) : VoidEmpty (addTop n (e :: es)) ↔
    n.Each Node.VoidEmpty ∧ Element.isVoid e.name = false ∧ VoidEmpty (e :: es) := by
  rw [addTop, VoidEmpty, VoidEmpty, clean_addChild]
  have hvoid : (Element.isVoid e.name = true → addChild n e.children = []) ↔ Element.isVoid e.name = false := by
    simp [addChild_ne_nil]
  rw [hvoid]
  cases Element.isVoid e.name <;> simp [and_assoc]

theorem voidEmpty_closeTop (es : List OpenElement) : VoidEmpty (closeTop es) ↔ VoidEmpty es := by
  match es with
  | [] => rfl
  | [e] => rfl
  | e :: e' :: es =>
    rw [closeTop, voidEmpty_addTop, each_closed, VoidEmpty, VoidEmpty, List.forall_mem_cons]
    cases Element.isVoid e'.name <;> simp [and_assoc]

theorem voidEmpty_repeat_closeOne (f : Fragment) : ∀ k,
    VoidEmpty (Nat.repeat closeOne k f).levels ↔ VoidEmpty f.levels
  | 0 => Iff.rfl
  | k + 1 => by rw [Nat.repeat, levels_closeOne, voidEmpty_closeTop, voidEmpty_repeat_closeOne f k]

theorem voidEmpty_toNode (f : Fragment) : f.toNode.Each Node.VoidEmpty ↔ VoidEmpty f.levels := by
  have hclosed := each_closed ⟨Element.root, [], (Nat.repeat closeOne f.path.length f).children⟩
  rw [← voidEmpty_repeat_closeOne f f.path.length, levels, path_repeat_closeOne_length, List.nil_append, VoidEmpty]
  exact hclosed.trans (and_congr_right fun _ => (and_iff_left (by simp)).symm)

/-- The innermost level, which is an open element or the fragment's own. -/
theorem exists_innermost (f : Fragment) : ∃ e es, f.levels = e :: es ∧
    f.path.head?.any (Element.isVoid ·.name) = Element.isVoid e.name := by
  obtain ⟨path, cs⟩ := f
  cases path with
  | nil => exact ⟨_, [], rfl, (by decide : false = Element.isVoid Element.root)⟩
  | cons e path => exact ⟨e, _, rfl, rfl⟩

/-- **A step keeps void elements empty just when it puts nothing into one.** -/
theorem voidEmpty_step (f : Fragment) (tok : Token Text) :
    VoidEmpty (f.step tok).levels ↔ VoidEmpty f.levels ∧ f.fillsVoid tok = false := by
  obtain ⟨e, es, hl, he⟩ := exists_innermost f
  have hadd : ∀ n : Node, n.Each Node.VoidEmpty → (VoidEmpty (f.add n).levels ↔
      VoidEmpty f.levels ∧ Element.isVoid e.name = false) := fun n hn => by
    rw [levels_add, hl, voidEmpty_addTop, and_iff_right hn, and_comm]
  cases tok with
  | doctype t => simp [step, fillsVoid, Token.putsNode]
  | comment t =>
    rw [fillsVoid, he, step, hadd _ (by simp [Node.VoidEmpty])]
    simp [Token.putsNode]
  | text t =>
    rw [fillsVoid, he, step]
    cases ht : t.isEmpty with
    | true => simp [Token.putsNode, ht]
    | false =>
      rw [if_neg Bool.false_ne_true, hadd _ (by simp [Node.VoidEmpty])]
      simp [Token.putsNode, ht]
  | startTag name as selfClosing =>
    rw [fillsVoid, he, step]
    cases selfClosing with
    | true =>
      rw [if_pos rfl, hadd _ (by simp [each_element, Node.VoidEmpty])]
      simp [Token.putsNode]
    | false =>
      have hopen : ({ f with path := ⟨name, as, []⟩ :: f.path } : Fragment).levels = ⟨name, as, []⟩ :: f.levels := rfl
      rw [if_neg Bool.false_ne_true, hopen, hl, VoidEmpty, VoidEmpty, List.forall_mem_cons]
      cases hv : Element.isVoid e.name <;> simp [Token.putsNode, Clean]
  | endTag name =>
    rw [step, close, voidEmpty_repeat_closeOne]
    simp [fillsVoid, Token.putsNode]

/-- **Void elements hold nothing just when nothing is put into one while it is open.** -/
theorem voidEmpty_foldl_step : ∀ (ts : List (Token Text)) (f : Fragment),
    VoidEmpty (ts.foldl step f).levels ↔ VoidEmpty f.levels ∧
      ∀ before tok after, ts = before ++ tok :: after → (before.foldl step f).fillsVoid tok = false
  | [], f => by simp
  | t :: ts, f => by
    rw [List.foldl_cons, voidEmpty_foldl_step ts, voidEmpty_step, and_assoc]
    refine and_congr_right fun _ => ⟨fun ⟨ht, hts⟩ before tok after hs => ?_, fun h => ⟨h [] t ts rfl, ?_⟩⟩
    · cases before with
      | nil =>
        obtain ⟨rfl, rfl⟩ := List.cons.inj hs
        exact ht
      | cons b before =>
        obtain ⟨rfl, htail⟩ := List.cons.inj hs
        exact hts before tok after htail
    · exact fun before tok after hs => h (t :: before) tok after (congrArg (t :: ·) hs)

end Fragment

namespace Node

theorem nodes_innerParts_eq_iff {n : Node} (h : n.VoidEmpty) :
    n.innerParts.filterMap Part.node? = descendantsAll n.children ↔ n.Each VoidEmpty := by
  cases n with
  | element name as cs =>
    rw [each_element, and_iff_right h]
    exact nodes_partsAll_eq_iff_of fun c _ => nodes_parts_eq_iff c _
  | text t => simp [innerParts, children, descendantsAll, VoidEmpty]
  | comment t => simp [innerParts, children, descendantsAll, VoidEmpty]

theorem voidEmpty_ofTokens (ts : List (Token Text)) : (ofTokens ts).VoidEmpty := fun h =>
  absurd h (by decide)

theorem each_voidEmpty_ofTokens (ts : List (Token Text)) : (ofTokens ts).Each VoidEmpty ↔
    ∀ before tok after, ts = before ++ tok :: after →
      (before.foldl Fragment.step Fragment.empty).fillsVoid tok = false := by
  have hempty : Fragment.VoidEmpty Fragment.empty.levels := by
    simp [Fragment.levels, Fragment.empty, Fragment.VoidEmpty, Fragment.Clean]
  rw [ofTokens, Fragment.voidEmpty_toNode, Fragment.voidEmpty_foldl_step, and_iff_right hempty]

/-- Void elements that are read from a text hold nothing. -/
theorem each_voidEmpty_parse (t : Text) : (parse t).Each VoidEmpty := fun m hm => by
  have hsound := (each_parsed_parse t m hm).sound
  cases m with
  | element name as cs => exact hsound.void
  | text t => trivial
  | comment t => trivial

end Node

namespace TokenStream

/-- **When void elements hold nothing, and what is written then.**  The void elements of the tree that a stream builds
hold nothing just when no token of the stream puts a node into one that is open, and so it is for the stream of a text.
The nodes that are written stand in the tree in their order, and they are all of its nodes just when its void elements
hold nothing. -/
theorem build?_void {s : TokenStream} {ts : List (Token Text)} (h : s.toTokens? = some ts) :
    ∃ n, s.build? = some n ∧
      (n.Each Node.VoidEmpty ↔ ∀ before tok after, ts = before ++ tok :: after →
        (before.foldl Fragment.step Fragment.empty).fillsVoid tok = false) ∧
      (∀ t, s = read t → n.Each Node.VoidEmpty) ∧
      n.innerParts.flatMap Part.write = n.inner ∧
      (n.innerParts.filterMap Part.node?).Sublist (Node.descendantsAll n.children) ∧
      (n.innerParts.filterMap Part.node? = Node.descendantsAll n.children ↔ n.Each Node.VoidEmpty) := by
  refine ⟨Node.ofTokens ts, build?_of_toTokens? h, Node.each_voidEmpty_ofTokens ts, ?_,
    Node.flatMap_write_innerParts _, Node.nodes_innerParts_sublist _,
    Node.nodes_innerParts_eq_iff (Node.voidEmpty_ofTokens ts)⟩
  rintro t rfl
  obtain rfl := Option.some.inj (h.symm.trans (toTokens?_read t))
  exact Node.each_voidEmpty_parse t

/-- A void element that is opened and closed again. -/
theorem build?_void_closed :
    ∃ n, build? ⟨[.startTag 0 [] false, .endTag 0, .text ['x']], ⟨["br".toList]⟩⟩ = some n ∧
      n.innerParts.filterMap Part.node? = Node.descendantsAll n.children ∧ n.inner = "<br>x".toList := by
  have hnames : toTokens? ⟨[.startTag 0 [] false, .endTag 0, .text ['x']], ⟨["br".toList]⟩⟩ =
    some [.startTag "br".toList [] false, .endTag "br".toList, .text ['x']] := rfl
  obtain ⟨n, hn, -, -, -, -, hnodes⟩ := build?_void hnames
  obtain rfl := Option.some.inj ((build?_of_toTokens? hnames).symm.trans hn)
  exact ⟨_, hn, hnodes.2 (by decide +kernel), by decide +kernel⟩

/-- An open void element takes a text, which is not written. -/
theorem void_element_filled :
    ∃ n, build? ⟨[.startTag 0 [] false, .text ['x']], ⟨["br".toList]⟩⟩ = some n ∧
      .element "br".toList [] [.text ['x']] ∈ n.children ∧ Element.isVoid "br".toList = true ∧
      n.innerParts.filterMap Part.node? ≠ Node.descendantsAll n.children ∧ n.inner = "<br>".toList :=
  ⟨Node.ofTokens [.startTag "br".toList [] false, .text ['x']], build?_of_toTokens? rfl, by decide +kernel,
    by decide +kernel, by decide +kernel, by decide +kernel⟩

end TokenStream
end SafeMarkup
