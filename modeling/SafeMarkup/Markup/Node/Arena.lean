import SafeMarkup.Markup.TokenStream
import SafeMarkup.Markup.Node.Basic
/-!
# Arenas: the tree of a token stream, in one row

While a stream is read its nodes lie in a row, the fragment's own first, each new one behind the others.  An element
knows its children by their places, and so does the list of open elements.  When the stream is read the tree is
assembled from the row without recursion: of the nodes that are pending, each is met twice, first to put its children
before it, then, when they are built, to be built from them.

Every access to a place may miss, and an element may find fewer nodes built than it has children; then the whole
result is `none`, as it is for a number that is not in the stream's table.
-/
namespace SafeMarkup

/-- A node in a row; the children of an element are places, the last one first. -/
inductive Cell where
  | element (name : Text) (attributes : List (Attribute Text)) (children : List Nat)
  | text (content : Text)
  | comment (content : Text)
  deriving DecidableEq

namespace Cell

def children : Cell → List Nat
  | element _ _ children => children
  | _ => []

def isNamed (name : Text) : Cell → Bool
  | element n _ _ => Text.sameFolded n name
  | _ => false

/-- What is left of a cell when the node in it has been built. -/
def taken : Cell → Cell
  | element _ _ _ => element [] [] []
  | text _ => text []
  | comment _ => comment []

end Cell

structure Arena where
  cells : Array Cell

namespace Arena

def empty : Arena := ⟨#[]⟩

/-- The place of a new node, and the arena with it. -/
def push (a : Arena) (c : Cell) : Nat × Arena := (a.cells.size, ⟨a.cells.push c⟩)

/-- The place of a new node, and the arena with it as the last child of the element at `parent`. -/
def addChild? (a : Arena) (parent : Nat) (c : Cell) : Option (Nat × Arena) := do
  let r := a.push c
  match ← r.2.cells[parent]? with
  | .element name as children =>
    return (r.1, ⟨r.2.cells.setIfInBounds parent (.element name as (r.1 :: children))⟩)
  | _ => none

/-- The last child of the node at `parent`, if it is a text, with its place. -/
def lastText? (a : Arena) (parent : Nat) : Option (Option (Nat × Text)) := do
  match (← a.cells[parent]?).children with
  | [] => return none
  | last :: _ =>
    match ← a.cells[last]? with
    | .text s => return some (last, s)
    | _ => return none

/-- Adds a text behind the children of the element at `parent`; it extends the last child if that is a text. -/
def addText? (a : Arena) (parent : Nat) (t : Text) : Option Arena := do
  match ← a.lastText? parent with
  | some (last, s) => return ⟨a.cells.setIfInBounds last (.text (s ++ t))⟩
  | none => (a.addChild? parent (.text t)).map (·.2)

/-- Which of some elements stay open behind an end tag, the innermost first; none of them is closed if it is stray. -/
def afterEndTag? (a : Arena) (name : Text) : List Nat → Option (Option (List Nat))
  | [] => return none
  | i :: outer => do
    if (← a.cells[i]?).isNamed name then return some outer
    else a.afterEndTag? name outer

end Arena

/-! ## Reading -/

/-- A fragment as far as it has been read: its nodes, and the places of the open elements, the innermost first. -/
structure OpenArena where
  arena : Arena
  opened : List Nat

namespace OpenArena

/-- The place of the fragment's own element. -/
def root : Nat := (Arena.empty.push (.element Element.root [] [])).1

def empty : OpenArena := ⟨(Arena.empty.push (.element Element.root [] [])).2, []⟩

/-- Reads one token. -/
def step? (o : OpenArena) (t : Token Text) : Option OpenArena := do
  let parent := o.opened.headD root
  match t with
  | .doctype _ => return o
  | .comment t => return { o with arena := (← o.arena.addChild? parent (.comment t)).2 }
  | .text t => if t.isEmpty then return o else return { o with arena := ← o.arena.addText? parent t }
  | .startTag name as selfClosing =>
    let r ← o.arena.addChild? parent (.element name as [])
    return ⟨r.2, if selfClosing then o.opened else r.1 :: o.opened⟩
  | .endTag name => return { o with opened := (← o.arena.afterEndTag? name o.opened).getD o.opened }

end OpenArena

/-! ## Assembling -/

/-- The nodes that are built once a node is built from its cell; an element takes its children, the nodes built last. -/
def Cell.build? (built : List Node) : Cell → Option (List Node)
  | element name as children =>
    if children.length ≤ built.length then
      some (.element name as (built.take children.length).reverse :: built.drop children.length)
    else none
  | text t => some (.text t :: built)
  | comment t => some (.comment t :: built)

/-- A tree as far as it has been assembled: the row it is taken from, the places that are pending, the next one first
and each with whether it has been met, and the nodes that are built and have no parent yet, the last one first. -/
structure Assembly where
  cells : Array Cell
  pending : List (Nat × Bool)
  built : List Node

namespace Assembly

/-- Meets the next pending node; `none` if there is none. -/
def step? (s : Assembly) : Option Assembly :=
  match s.pending with
  | [] => none
  | (i, true) :: pending => do
    let c ← s.cells[i]?
    return ⟨s.cells.setIfInBounds i c.taken, pending, ← c.build? s.built⟩
  | (i, false) :: pending => do
    let c ← s.cells[i]?
    return { s with pending := c.children.foldl (fun pending j => (j, false) :: pending) ((i, true) :: pending) }

/-- Meets pending nodes until there are none; `none` if more than `k` have to be met. -/
def run? (k : Nat) (s : Assembly) : Option Assembly :=
  if s.pending.isEmpty then some s
  else
    match k with
    | 0 => none
    | k + 1 => do run? k (← s.step?)

end Assembly

/-- The tree below a place.  No tree makes the loop go on after each node has been met twice. -/
def Arena.toNode? (a : Arena) (place : Nat) : Option Node := do
  let s ← Assembly.run? (2 * a.cells.size) ⟨a.cells, [(place, false)], []⟩
  return s.built.headD (.element Element.root [] [])

namespace TokenStream

/-- The nodes of a stream, in a row. -/
def arena? (s : TokenStream) : Option OpenArena :=
  s.tokens.foldlM (fun o t => do o.step? (← token? s.table t)) OpenArena.empty

/-- The tree of a stream, if its numbers are in its table. -/
def build? (s : TokenStream) : Option Node := do
  let o ← s.arena?
  o.arena.toNode? OpenArena.root

end TokenStream
end SafeMarkup
