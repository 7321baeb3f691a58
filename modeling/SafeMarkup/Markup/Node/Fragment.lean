import SafeMarkup.Markup.Node.Basic
import SafeMarkup.Markup.Span
/-!
# Fragments: the tree of a sequence of tokens

A fragment is read below an element of its own, `Element.root`.  While it is read it is a path of open elements, each
with the children it has so far.  A start tag opens an element unless it closes itself; an end tag closes the innermost
open element of its name and all that was opened after it, or is stray; what is open at the end is closed.  Neighbouring
texts become one, empty texts and doctypes leave no trace.
-/
namespace SafeMarkup

/-- An element that is open, with its children so far, the last one first. -/
structure OpenElement where
  name : Text
  attributes : List (Attribute Text)
  children : List Node

/-- A fragment as far as it has been read: the open elements, the innermost first, and the children of the fragment
itself, the last one first. -/
structure Fragment where
  path : List OpenElement
  children : List Node

namespace Fragment

def empty : Fragment := ⟨[], []⟩

/-- Adds a child behind the others, the last of which stands first; a text extends a text. -/
def addChild : Node → List Node → List Node
  | .text t, .text s :: before => .text (s ++ t) :: before
  | n, before => n :: before

/-- Adds a node to the innermost open element. -/
def add (n : Node) (f : Fragment) : Fragment :=
  match f.path with
  | [] => { f with children := addChild n f.children }
  | e :: path => { f with path := { e with children := addChild n e.children } :: path }

/-- Closes the innermost open element. -/
def closeOne (f : Fragment) : Fragment :=
  match f.path with
  | [] => f
  | e :: path => add (.element e.name e.attributes e.children.reverse) { f with path := path }

/-- How many open elements an end tag closes. -/
def depth? (name : Text) (f : Fragment) : Option Nat :=
  (f.path.findIdx? (Text.sameFolded ·.name name)).map (· + 1)

def close (name : Text) (f : Fragment) : Fragment := Nat.repeat closeOne ((f.depth? name).getD 0) f

/-- Reads one token. -/
def step (f : Fragment) : Token Text → Fragment
  | .doctype _ => f
  | .comment t => f.add (.comment t)
  | .text t => if t.isEmpty then f else f.add (.text t)
  | .endTag name => f.close name
  | .startTag name as selfClosing =>
    if selfClosing then f.add (.element name as [])
    else { f with path := ⟨name, as, []⟩ :: f.path }

/-- The tree, with all open elements closed. -/
def toNode (f : Fragment) : Node :=
  .element Element.root [] (Nat.repeat closeOne f.path.length f).children.reverse

/-- The name of an end tag that closes nothing. -/
def stray? (f : Fragment) : Token Text → Option Text
  | .endTag name => if (f.depth? name).isNone then some name else none
  | _ => none

/-- The names of the end tags that close nothing, in order. -/
def strays (f : Fragment) : List (Token Text) → List Text
  | [] => []
  | t :: ts => (f.stray? t).toList ++ strays (f.step t) ts

end Fragment

namespace Node

/-- The tree of a sequence of tokens. -/
def ofTokens (ts : List (Token Text)) : Node := (ts.foldl Fragment.step Fragment.empty).toNode

/-- The tree of a text. -/
def parse (t : Text) : Node := ofTokens (tokens t)

end Node
end SafeMarkup
