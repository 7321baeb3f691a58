import SafeMarkup.Markup.Node.Arena
import SafeMarkup.Proofs.Shape
/-!
# Assembling a tree from a row

The row of a tree has its nodes in document order, so what is below a node follows it (`Node.row`).  It is assembled in
two steps a node, none of which fails, and what is built is the tree (`Assembly.steps?_row`).
-/
namespace SafeMarkup

/-! ## Rows of trees -/

/-- The node in a cell, without its children. -/
def Cell.alone : Cell → Node
  | element name as _ => .element name as []
  | text t => .text t
  | comment t => .comment t

namespace Node

/-- The node without its children. -/
def alone : Node → Node
  | .element name as _ => .element name as []
  | n => n

/-- The places of neighbours, of which the first has the place `i`. -/
def places (i : Nat) : List Node → List Nat
  | [] => []
  | n :: ns => i :: places (i + n.descendants.length) ns

mutual

/-- A tree in a row that begins at the place `i`. -/
def row (i : Nat) : Node → List Cell
  | .element name as cs => .element name as (places (i + 1) cs).reverse :: rowAll (i + 1) cs
  | .text t => [.text t]
  | .comment t => [.comment t]

def rowAll (i : Nat) : List Node → List Cell
  | [] => []
  | n :: ns => row i n ++ rowAll (i + n.descendants.length) ns

end

theorem map_alone_rowAll_of {ns : List Node} (h : ∀ n ∈ ns, ∀ i, (row i n).map Cell.alone = n.descendants.map alone) :
    ∀ i, (rowAll i ns).map Cell.alone = (descendantsAll ns).map alone := by
  induction ns with
  | nil => exact fun _ => rfl
  | cons n ns ih =>
    intro i
    obtain ⟨hn, hns⟩ := List.forall_mem_cons.1 h
    rw [rowAll, descendantsAll, List.map_append, List.map_append, hn, ih hns]

/-- **A row holds every node of the tree once**, in document order. -/
theorem map_alone_row (n : Node) : ∀ i, (row i n).map Cell.alone = n.descendants.map alone := by
  induction n with
  | element name as cs ih =>
    intro i
    rw [row, descendants, List.map_cons, List.map_cons, map_alone_rowAll_of ih]
    rfl
  | text t => exact fun _ => rfl
  | comment t => exact fun _ => rfl

theorem length_row (i : Nat) (n : Node) : (row i n).length = n.descendants.length := by
  simpa using congrArg List.length (map_alone_row n i)

theorem length_rowAll (i : Nat) (ns : List Node) : (rowAll i ns).length = (descendantsAll ns).length := by
  simpa using congrArg List.length (map_alone_rowAll_of (fun n _ => map_alone_row n) i)

theorem places_append (ms : List Node) : ∀ (i : Nat) (ns : List Node),
    places i (ns ++ ms) = places i ns ++ places (i + (descendantsAll ns).length) ms
  | _, [] => rfl
  | i, n :: ns => by
    rw [List.cons_append, places, places, places_append ms, descendantsAll, List.length_append, ← Nat.add_assoc,
      List.cons_append]

theorem rowAll_append (ms : List Node) : ∀ (i : Nat) (ns : List Node),
    rowAll i (ns ++ ms) = rowAll i ns ++ rowAll (i + (descendantsAll ns).length) ms
  | _, [] => rfl
  | i, n :: ns => by
    rw [List.cons_append, rowAll, rowAll, rowAll_append ms, descendantsAll, List.length_append, ← Nat.add_assoc,
      List.append_assoc]

theorem length_places (i : Nat) (ns : List Node) : (places i ns).length = ns.length := by
  induction ns generalizing i with
  | nil => rfl
  | cons n ns ih => rw [places, List.length_cons, List.length_cons, ih]

end Node

/-! ## A cell in the middle of a row -/

namespace Cell

variable {a b : List Cell} {c d : Cell} {i : Nat}

theorem getElem?_middle (hi : i = a.length) : (a ++ c :: b).toArray[i]? = some c := by
  subst hi
  simp

theorem setIfInBounds_middle (hi : i = a.length) : (a ++ c :: b).toArray.setIfInBounds i d = (a ++ d :: b).toArray := by
  subst hi
  simp

end Cell

/-! ## Assembling -/

namespace Assembly

open Node

/-- Meets pending nodes, a number of times. -/
def steps? : Nat → Assembly → Option Assembly
  | 0, s => some s
  | k + 1, s => do steps? k (← s.step?)

theorem steps?_add (j : Nat) : ∀ (k : Nat) (s : Assembly), steps? (k + j) s = (steps? k s).bind (steps? j)
  | 0, s => by rw [Nat.zero_add]; rfl
  | k + 1, s => by
    rw [Nat.add_right_comm, steps?, steps?]
    cases s.step? with
    | none => rfl
    | some s' => exact steps?_add j k s'

/-- The loop takes the steps that lead to where nothing is pending, if it may take that many. -/
theorem run?_of_steps? {s' : Assembly} (hend : s'.pending = []) : ∀ {k : Nat} {s : Assembly}, steps? k s = some s' →
    run? k s = some s'
  | 0, s, h => by
    obtain rfl := Option.some.inj h
    rw [run?, hend]
    rfl
  | k + 1, s, h => by
    cases hstep : s.step? with
    | none =>
      rw [steps?, hstep] at h
      cases h
    | some s₁ =>
      rw [steps?, hstep] at h
      have hpending : s.pending.isEmpty = false := by
        cases hp : s.pending with
        | nil =>
          rw [step?, hp] at hstep
          cases hstep
        | cons p pending => rfl
      rw [run?, hpending, hstep]
      exact run?_of_steps? hend h

variable (a b : List Cell) (pending : List (Nat × Bool)) (built : List Node)

theorem step?_first (c : Cell) : step? ⟨(a ++ c :: b).toArray, (a.length, false) :: pending, built⟩ =
    some ⟨(a ++ c :: b).toArray, c.children.reverse.map (·, false) ++ (a.length, true) :: pending, built⟩ := by
  simp only [step?, Cell.getElem?_middle rfl, Option.bind_eq_bind, Option.bind_some, List.foldl_flip_cons_eq_append,
    List.map_reverse]
  rfl

theorem step?_again (c : Cell) : step? ⟨(a ++ c :: b).toArray, (a.length, true) :: pending, built⟩ =
    (c.build? built).map fun built => ⟨(a ++ c.taken :: b).toArray, pending, built⟩ := by
  simp only [step?, Cell.getElem?_middle rfl, Cell.setIfInBounds_middle rfl, Option.bind_eq_bind, Option.bind_some,
    Option.map_eq_bind]
  rfl

/-- What two steps a node do to the row of a tree, wherever it stands and whatever else is pending. -/
def Assembles (n : Node) : Prop := ∀ (a b : List Cell) (pending : List (Nat × Bool)) (built : List Node),
  steps? (2 * n.descendants.length) ⟨(a ++ (n.row a.length ++ b)).toArray, (a.length, false) :: pending, built⟩ =
    some ⟨(a ++ ((n.row a.length).map Cell.taken ++ b)).toArray, pending, n :: built⟩

theorem steps?_rowAll {ns : List Node} (h : ∀ n ∈ ns, Assembles n) : ∀ (a b : List Cell) (pending : List (Nat × Bool))
    (built : List Node), steps? (2 * (descendantsAll ns).length)
        ⟨(a ++ (rowAll a.length ns ++ b)).toArray, (places a.length ns).map (·, false) ++ pending, built⟩ =
      some ⟨(a ++ ((rowAll a.length ns).map Cell.taken ++ b)).toArray, pending, ns.reverse ++ built⟩ := by
  induction ns with
  | nil => exact fun _ _ _ _ => rfl
  | cons n ns ih =>
    intro a b pending built
    obtain ⟨hn, hns⟩ := List.forall_mem_cons.1 h
    have hfirst := hn a (rowAll (a.length + n.descendants.length) ns ++ b)
      ((places (a.length + n.descendants.length) ns).map (·, false) ++ pending) built
    have hrest := ih hns (a ++ (n.row a.length).map Cell.taken) b pending (n :: built)
    have hcount : 2 * (descendantsAll (n :: ns)).length = 2 * n.descendants.length + 2 * (descendantsAll ns).length := by
      rw [descendantsAll, List.length_append]
      omega
    simp only [List.length_append, List.length_map, length_row, List.append_assoc] at hrest
    rw [hcount, steps?_add, rowAll, places, List.append_assoc, List.map_cons, List.cons_append, hfirst, Option.bind_some,
      hrest]
    simp

/-- **A tree is assembled from its row in two steps a node.** -/
theorem steps?_row (n : Node) : Assembles n := by
  induction n with
  | text t =>
    intro a b pending built
    change (step? ⟨(a ++ .text t :: b).toArray, (a.length, false) :: pending, built⟩).bind (steps? 1) = _
    rw [step?_first]
    exact congrArg (Option.bind · some) (step?_again a b pending built (.text t))
  | comment t =>
    intro a b pending built
    change (step? ⟨(a ++ .comment t :: b).toArray, (a.length, false) :: pending, built⟩).bind (steps? 1) = _
    rw [step?_first]
    exact congrArg (Option.bind · some) (step?_again a b pending built (.comment t))
  | element name as cs ih =>
    intro a b pending built
    have hcount : 2 * (Node.element name as cs).descendants.length = 2 * (descendantsAll cs).length + 1 + 1 := by
      rw [descendants, List.length_cons]
      omega
    have hall := steps?_rowAll ih (a ++ [.element name as (places (a.length + 1) cs).reverse]) b
      ((a.length, true) :: pending) built
    have hbuild : (Cell.element name as (places (a.length + 1) cs).reverse).build? (cs.reverse ++ built) =
        some (.element name as cs :: built) := by
      simp [Cell.build?, length_places]
    simp only [List.length_append, List.length_singleton, List.append_assoc, List.singleton_append] at hall
    rw [hcount, row, List.cons_append, steps?, step?_first]
    simp only [Option.bind_eq_bind, Option.bind_some, steps?_add, Cell.children, List.reverse_reverse, hall]
    simp only [steps?, step?_again, hbuild]
    rfl

theorem steps?_whole (n : Node) : steps? (2 * (n.row 0).toArray.size) ⟨(n.row 0).toArray, [(0, false)], []⟩ =
    some ⟨(n.row 0).toArray.map Cell.taken, [], [n]⟩ := by
  have h := steps?_row n [] [] [] []
  simp only [List.nil_append, List.append_nil, ← n.length_row 0] at h
  rw [List.map_toArray]
  exact h

end Assembly

/-- **Assembling undoes the row.** -/
theorem Arena.toNode?_row (n : Node) : toNode? ⟨(n.row 0).toArray⟩ 0 = some n := by
  rw [toNode?, Assembly.run?_of_steps? rfl (Assembly.steps?_whole n)]
  rfl

end SafeMarkup
