import SafeMarkup.Markup.Node.Basic
/-!
# Trees as they are written

Every attribute is written with a value in double quotes.  A void element ends with its start tag, and its children are
not written.  A text is escaped, unless its parent is a raw-text element; a comment is written as it is.
-/
namespace SafeMarkup

namespace Attribute

def write (a : Attribute Text) : Text :=
  ' ' :: a.name ++ '=' :: '"' :: escapeValue (a.value.getD []) ++ ['"']

end Attribute

namespace Node

def writeStart (name : Text) (as : List (Attribute Text)) : Text :=
  '<' :: name ++ as.flatMap Attribute.write ++ ['>']

def writeEnd (name : Text) : Text := '<' :: '/' :: name ++ ['>']

mutual

/-- A node as it is written below a raw-text element (`raw`) or elsewhere. -/
def write (raw : Bool) : Node → Text
  | .element name as cs =>
    if Element.isVoid name then writeStart name as
    else writeStart name as ++ writeAll (Element.isRawText name) cs ++ writeEnd name
  | .text t => if raw then t else escapeText t
  | .comment t => '<' :: '!' :: '-' :: '-' :: t ++ ['-', '-', '>']

def writeAll (raw : Bool) : List Node → Text
  | [] => []
  | n :: ns => write raw n ++ writeAll raw ns

end

theorem writeAll_append (raw : Bool) : ∀ as bs : List Node, writeAll raw (as ++ bs) = writeAll raw as ++ writeAll raw bs
  | [], _ => rfl
  | a :: as, bs => by
    rw [List.cons_append, writeAll, writeAll, writeAll_append raw as bs, List.append_assoc]

/-- The node itself, with all below it. -/
def outer (n : Node) : Text := write false n

/-- The children of an element; nothing for other nodes. -/
def inner : Node → Text
  | .element name _ cs => writeAll (Element.isRawText name) cs
  | _ => []

end Node
end SafeMarkup
