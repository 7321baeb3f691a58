import SafeMarkup.Markup.Attribute
/-!
# Trees of markup

A node is an element with attributes and children, a text or a comment.  `Node.descendants` lists a tree in document
order, and `Node.textContent` is the text found on the way.
-/
namespace SafeMarkup

inductive Node where
  | element (name : Text) (attributes : List (Attribute Text)) (children : List Node)
  | text (content : Text)
  | comment (content : Text)

namespace Node

/-! ## Equality -/

mutual

def decEq : (a b : Node) → Decidable (a = b)
  | .element n as cs, .element m bs ds =>
    if hn : n = m then
      if ha : as = bs then
        match decEqAll cs ds with
        | .isTrue hc => .isTrue (by rw [hn, ha, hc])
        | .isFalse hc => .isFalse (fun h => hc (Node.element.inj h).2.2)
      else .isFalse (fun h => ha (Node.element.inj h).2.1)
    else .isFalse (fun h => hn (Node.element.inj h).1)
  | .text s, .text t => if h : s = t then .isTrue (by rw [h]) else .isFalse (fun e => h (Node.text.inj e))
  | .comment s, .comment t =>
    if h : s = t then .isTrue (by rw [h]) else .isFalse (fun e => h (Node.comment.inj e))
  | .element .., .text _ => .isFalse nofun
  | .element .., .comment _ => .isFalse nofun
  | .text _, .element .. => .isFalse nofun
  | .text _, .comment _ => .isFalse nofun
  | .comment _, .element .. => .isFalse nofun
  | .comment _, .text _ => .isFalse nofun

def decEqAll : (as bs : List Node) → Decidable (as = bs)
  | [], [] => .isTrue rfl
  | [], _ :: _ => .isFalse nofun
  | _ :: _, [] => .isFalse nofun
  | a :: as, b :: bs =>
    match decEq a b with
    | .isTrue h =>
      match decEqAll as bs with
      | .isTrue hs => .isTrue (by rw [h, hs])
      | .isFalse hs => .isFalse (fun e => hs (List.cons.inj e).2)
    | .isFalse h => .isFalse (fun e => h (List.cons.inj e).1)

end

instance : DecidableEq Node := decEq

/-! ## Looking into a tree -/

/-- The children of an element; other nodes have none. -/
def children : Node → List Node
  | .element _ _ cs => cs
  | _ => []

def attributes : Node → List (Attribute Text)
  | .element _ as _ => as
  | _ => []

/-- The value of the first attribute with a name, in any case; an attribute without a value has the empty one. -/
def attribute? (n : Node) (name : Text) : Option Text :=
  (n.attributes.find? (Text.sameFolded ·.name name)).map (·.value.getD [])

/-- An element whose only child is a text. -/
def isLeaf : Node → Bool
  | .element _ _ [.text _] => true
  | _ => false

mutual

/-- The node and all below it, in document order. -/
def descendants : Node → List Node
  | .element name as cs => .element name as cs :: descendantsAll cs
  | .text t => [.text t]
  | .comment t => [.comment t]

def descendantsAll : List Node → List Node
  | [] => []
  | n :: ns => descendants n ++ descendantsAll ns

end

theorem descendantsAll_append : ∀ as bs : List Node, descendantsAll (as ++ bs) = descendantsAll as ++ descendantsAll bs
  | [], _ => rfl
  | a :: as, bs => by
    rw [List.cons_append, descendantsAll, descendantsAll, descendantsAll_append as bs, List.append_assoc]

/-- The text that a node itself is. -/
def ownText : Node → Text
  | .text t => t
  | _ => []

/-- The texts of a tree, in document order. -/
def textContent (n : Node) : Text := n.descendants.flatMap ownText

end Node
end SafeMarkup
