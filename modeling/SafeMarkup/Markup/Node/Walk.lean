import SafeMarkup.Markup.Node.Basic
/-!
# Walking a tree

A tree is walked without recursion.  The nodes that are still to come lie in a stack; the one on top is next, and its
children take its place.  The text of a tree is collected from the nodes on the way.
-/
namespace SafeMarkup

/-- A walk through a tree: the nodes that are to come, each for all below it, the next one first. -/
structure Walk where
  pending : List Node

namespace Walk

def start (root : Node) : Walk := ⟨[root]⟩

/-- The next node, and the walk behind it.  Children are put on the stack from the last to the first. -/
def next? (w : Walk) : Option (Node × Walk) :=
  match w.pending with
  | [] => none
  | n :: pending => some (n, ⟨n.children.reverse.foldl (fun pending c => c :: pending) pending⟩)

/-- How many nodes are to come. -/
def size (w : Walk) : Nat := (Node.descendantsAll w.pending).length

theorem next?_cons (n : Node) (pending : List Node) : next? ⟨n :: pending⟩ = some (n, ⟨n.children ++ pending⟩) := by
  have hpush : n.children.reverse.foldl (fun pending c => c :: pending) pending = n.children ++ pending := by
    rw [List.foldl_reverse, List.foldr_cons_eq_append']
  simp only [next?, hpush]

theorem size_cons (n : Node) (pending : List Node) : size ⟨n :: pending⟩ = size ⟨n.children ++ pending⟩ + 1 := by
  rw [size, size, Node.descendantsAll_append, Node.descendantsAll]
  cases n <;> simp only [Node.descendants, Node.children, Node.descendantsAll, List.length_append, List.length_cons,
    List.length_nil] <;> omega

/-- Each step leaves one node less to come. -/
theorem size_of_next? {w w' : Walk} {n : Node} (h : w.next? = some (n, w')) : w.size = w'.size + 1 := by
  obtain ⟨pending⟩ := w
  cases pending with
  | nil => cases h
  | cons m pending =>
    rw [next?_cons] at h
    obtain ⟨rfl, rfl⟩ := Prod.mk.inj (Option.some.inj h)
    exact size_cons m pending

/-- The nodes on the way. -/
def nodes (w : Walk) : List Node :=
  match _h : w.next? with
  | none => []
  | some (n, w') => n :: nodes w'
termination_by w.size
decreasing_by
  have := size_of_next? _h
  omega

end Walk

namespace Node

/-- The nodes that are met on a walk through a tree. -/
def walked (root : Node) : List Node := (Walk.start root).nodes

/-- The text collected so far, with that of one more node. -/
def collect (out : Text) : Node → Text
  | .text t => out ++ t
  | _ => out

/-- The text that is collected on a walk through a tree. -/
def collectedText (root : Node) : Text := root.walked.foldl collect []

end Node
end SafeMarkup
