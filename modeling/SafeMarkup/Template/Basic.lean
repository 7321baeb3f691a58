import SafeMarkup.Marker
import SafeMarkup.Trusted
import SafeMarkup.Refusal
import SafeMarkup.Markup.Node.Written
import SafeMarkup.Markup.Node.Fragment
/-!
# Templates

A template is a list of segments, written by its author, with a slot between each two.  The segments are joined with a
marker in every slot and read as markup; each marker is then replaced by what its place in the tree allows:

- in an attribute value and in a text with siblings, by the value as a text;
- in a text that is all an element holds, by trusted markup, read again inside that element.  A value that is not
  trusted is refused there, and with it the template.

Markers in comments and in attribute names stay.  No value is looked at before its place is known.
-/
namespace SafeMarkup

namespace Template

variable (nonce : Text) (values : List Interpolation)

/-- The segments with a marker in every slot. -/
def join : Nat → List Text → Text
  | _, [] => []
  | _, [s] => s
  | i, s :: t :: segments => s ++ Marker.write nonce i ++ join (i + 1) (t :: segments)

/-- The text with the values in the place of their markers.  A marker without a value stays. -/
def fill (t : Text) : Text := Marker.replace nonce (fun i => values[i]?.map Interpolation.asText) t

def fillAttribute (a : Attribute Text) : Attribute Text := { a with value := a.value.map (fill nonce values) }

/-- The markup that stands for a marker, if there is a value for it. -/
def markup? (i : Nat) : Except Refusal (Option Text) :=
  match values[i]? with
  | none => .ok none
  | some (.trusted m) => .ok (some m.content)
  | some (.text _) => .error (.untrustedMarkup i)

/-- The markup with trusted markup in the place of the markers. -/
def splice (t : Text) : Except Refusal Text := Marker.replaceM nonce (markup? values) t

/-- Whether an element's children are one text with a marker in it. -/
def isSlot : List Node → Bool
  | [.text t] => Marker.isIn nonce t
  | _ => false

/-- What an element holds once its markup is `t`: raw text takes it as it is. -/
def content (name t : Text) : List Node :=
  if Element.isRawText name then [.text t] else (Node.parse t).children

mutual

/-- The tree with its markers replaced. -/
def resolve : Node → Except Refusal Node
  | .element name as cs =>
    if isSlot nonce cs then do
      let t ← splice nonce values (Node.writeAll (Element.isRawText name) cs)
      return .element name (as.map (fillAttribute nonce values)) (content name t)
    else do
      let cs ← resolveAll cs
      return .element name (as.map (fillAttribute nonce values)) cs
  | .text t => return .text (fill nonce values t)
  | .comment t => return .comment t

def resolveAll : List Node → Except Refusal (List Node)
  | [] => return []
  | n :: ns => do
    let n ← resolve n
    let ns ← resolveAll ns
    return n :: ns

end

/-- The tree of a template, before its markers are replaced. -/
def tree (segments : List Text) : Node := Node.parse (join nonce 0 segments)

/-- Trusted markup from a template and its values.  Without values the one segment is the markup. -/
def render (segments : List Text) : Except Refusal Trusted :=
  if segments.length ≠ values.length + 1 then
    .error (.templateShape segments.length values.length)
  else if values.isEmpty then .ok ⟨segments.flatten⟩
  else do
    let n ← resolve nonce values (tree nonce segments)
    return ⟨n.inner⟩

/-! ## Markers that stay -/

/-- The texts of a node itself: its names and values, or its text. -/
def ownTexts : Node → List Text
  | .element _ as _ => as.flatMap fun a => [a.name, a.value.getD []]
  | .text t => [t]
  | .comment t => [t]

/-- How many markers stand in a tree. -/
def markersLeft (n : Node) : Nat :=
  ((n.descendants.flatMap ownTexts).flatMap (Marker.indexes nonce)).length

end Template
end SafeMarkup
