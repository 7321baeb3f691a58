import SafeMarkup.Proofs.Reading
/-!
# Skeletons

The skeleton of a tree is what remains when its texts and the values of its attributes are forgotten: elements, names of
attributes and comments.  Two pieces of closed markup are alike if they are read as nodes with the same skeletons
(`Text.Alike`); putting like pieces together gives like markup, and like markup is read as trees of one skeleton.
-/
namespace SafeMarkup

namespace Node

mutual

/-- The elements of a tree with the names of their attributes, and its comments. -/
def skeleton : Node → Node
  | .element name as cs => .element name (as.map fun a => ⟨a.name, none⟩) (skeletonAll cs)
  | .text _ => .text []
  | .comment t => .comment t

def skeletonAll : List Node → List Node
  | [] => []
  | n :: ns => if n.isText then skeletonAll ns else skeleton n :: skeletonAll ns

end

theorem skeletonAll_eq : ∀ ns : List Node, skeletonAll ns = (ns.filter (!·.isText)).map skeleton
  | [] => rfl
  | n :: ns => by
    rw [skeletonAll, List.filter_cons, skeletonAll_eq ns]
    cases n.isText <;> rfl

theorem skeletonAll_append (ns ms : List Node) : skeletonAll (ns ++ ms) = skeletonAll ns ++ skeletonAll ms := by
  rw [skeletonAll_eq, skeletonAll_eq, skeletonAll_eq, List.filter_append, List.map_append]

theorem skeletonAll_text (t : Text) : skeletonAll [.text t] = [] := rfl

theorem skeletonAll_pile (before : List Node) (n : Node) :
    skeletonAll (Fragment.pile before n).reverse = skeletonAll before.reverse ++ skeletonAll [n] := by
  rw [Fragment.pile]
  by_cases he : n.isEmptyText = true
  · rw [if_pos he, skeletonAll, if_pos (isText_of_isEmptyText he), skeletonAll, List.append_nil]
  · rw [if_neg he]
    rcases Fragment.addChild_cases n before with ⟨t, s, rest, rfl, rfl, hadd⟩ | ⟨-, hadd⟩
    · rw [hadd, List.reverse_cons, List.reverse_cons, skeletonAll_append, skeletonAll_append]
      rw [skeletonAll_text, skeletonAll_text, skeletonAll_text, List.append_nil, List.append_nil]
    · rw [hadd, List.reverse_cons, skeletonAll_append]

theorem skeletonAll_foldl_pile : ∀ ns before : List Node,
    skeletonAll (ns.foldl Fragment.pile before).reverse = skeletonAll before.reverse ++ skeletonAll ns
  | [], before => (List.append_nil _).symm
  | n :: ns, before => by
    rw [List.foldl_cons, skeletonAll_foldl_pile ns, skeletonAll_pile, List.append_assoc, ← skeletonAll_append]
    rfl

theorem skeletonAll_joined (ns : List Node) : skeletonAll (joined ns) = skeletonAll ns := skeletonAll_foldl_pile ns []

theorem skeletonAll_congr {f g : Node → Node} (ns : List Node) (ht : ∀ n ∈ ns, (f n).isText = (g n).isText)
    (hs : ∀ n ∈ ns, (f n).skeleton = (g n).skeleton) : skeletonAll (ns.map f) = skeletonAll (ns.map g) := by
  induction ns with
  | nil => rfl
  | cons n ns ih =>
    obtain ⟨htn, htns⟩ := List.forall_mem_cons.1 ht
    obtain ⟨hsn, hsns⟩ := List.forall_mem_cons.1 hs
    rw [List.map_cons, List.map_cons, skeletonAll, skeletonAll, htn, hsn, ih htns hsns]

theorem skeletonAll_asReadAll (ns : List Node) : skeletonAll (asReadAll ns) = skeletonAll (ns.map asRead) := by
  induction ns with
  | nil => rfl
  | cons n ns ih =>
    rw [asReadAll_cons, List.map_cons, skeletonAll]
    by_cases he : n.isEmptyText = true
    · rw [if_pos he, if_pos (by rw [isText_asRead, isText_of_isEmptyText he]), ih]
    · rw [if_neg he, skeletonAll, ih]

theorem skeleton_asRead (n : Node) : n.asRead.skeleton = n.skeleton := by
  induction n with
  | element name as cs ih =>
    have hcs := skeletonAll_congr (f := asRead) (g := id) cs (fun c _ => isText_asRead c) ih
    rw [asRead_element, skeleton, skeleton, skeletonAll_asReadAll, hcs, List.map_id, List.map_map]
    rfl
  | text t => rfl
  | comment t => rfl

theorem skeletonAll_map_asRead (ns : List Node) : skeletonAll (ns.map asRead) = skeletonAll ns := by
  have h := skeletonAll_congr (f := asRead) (g := id) ns (fun n _ => isText_asRead n) fun n _ => skeleton_asRead n
  rwa [List.map_id] at h

end Node

/-- Closed pieces of markup that are read as nodes with the same skeletons. -/
def Text.Alike (x y : Text) : Prop :=
  ∃ ns ms, Closed x ns ∧ Closed y ms ∧ Node.skeletonAll ns = Node.skeletonAll ms

namespace Text

theorem Closed.alike {x : Text} {ns : List Node} (h : Closed x ns) : Alike x x := ⟨ns, ns, h, h, rfl⟩

theorem Alike.append {x x' y y' : Text} (h : Alike x x') (h' : Alike y y') : Alike (x ++ y) (x' ++ y') := by
  obtain ⟨ns, ms, hx, hx', hs⟩ := h
  obtain ⟨ns', ms', hy, hy', hs'⟩ := h'
  exact ⟨ns ++ ns', ms ++ ms', hx.append hy, hx'.append hy', by
    rw [Node.skeletonAll_append, Node.skeletonAll_append, hs, hs']⟩

theorem alike_flatMap {α : Type} {f g : α → Text} : ∀ {xs : List α}, (∀ x ∈ xs, Alike (f x) (g x)) →
    Alike (xs.flatMap f) (xs.flatMap g)
  | [], _ => closed_nil.alike
  | x :: xs, h => by
    obtain ⟨hx, hxs⟩ := List.forall_mem_cons.1 h
    rw [List.flatMap_cons, List.flatMap_cons]
    exact hx.append (alike_flatMap hxs)

theorem alike_escape (s t : Text) : Alike (Trusted.escape s).content (Trusted.escape t).content :=
  ⟨_, _, closed_escape s, closed_escape t, rfl⟩

/-- **Like markup is read as trees of one skeleton.** -/
theorem Alike.children {x y : Text} (h : Alike x y) :
    Node.skeletonAll (Node.parse x).children = Node.skeletonAll (Node.parse y).children := by
  obtain ⟨ns, ms, hx, hy, hs⟩ := h
  rw [Node.parse_of_closed hx, Node.parse_of_closed hy]
  exact (Node.skeletonAll_joined ns).trans (hs.trans (Node.skeletonAll_joined ms).symm)

theorem Alike.skeleton {x y : Text} (h : Alike x y) : (Node.parse x).skeleton = (Node.parse y).skeleton :=
  congrArg (Node.element Element.root []) h.children

end Text
end SafeMarkup
