import SafeMarkup.Markup.Node.Basic
/-!
# Edits of a tree

An edit is made at the end of a path of child indexes.  It fails where the path leaves the tree, and at a node that has
no name or no children to change; a tree in which an edit fails is left as it was.
-/
namespace SafeMarkup

inductive Edit where
  | rename (name : Text)
  | addAttribute (a : Attribute Text)
  | push (n : Node)
  /-- A place behind the last child is the place right after it. -/
  | insert (place : Nat) (n : Node)
  | clear
  | pop
  | replaceChildren (ns : List Node)

inductive EditError where
  /-- A text or a comment stands where children are needed. -/
  | noChildren
  | noSuchChild
  | notAnElement
  deriving DecidableEq

namespace Edit

/-- The edited node, and the child that was taken out of it. -/
def atNode (e : Edit) : Node → Except EditError (Node × Option Node)
  | .element name as cs =>
    .ok <| match e with
    | rename name => (.element name as cs, none)
    | addAttribute a => (.element name (as ++ [a]) cs, none)
    | push n => (.element name as (cs ++ [n]), none)
    | insert place n => (.element name as (cs.take place ++ n :: cs.drop place), none)
    | clear => (.element name as [], none)
    | pop => (.element name as cs.dropLast, cs.getLast?)
    | replaceChildren ns => (.element name as ns, none)
  | _ =>
    .error <| match e with
    | rename _ | addAttribute _ => .notAnElement
    | _ => .noChildren

/-- The edited tree, and the child that was taken out of it. -/
def atPath (e : Edit) : List Nat → Node → Except EditError (Node × Option Node)
  | [], n => e.atNode n
  | i :: path, .element name as cs =>
    match cs[i]? with
    | none => .error .noSuchChild
    | some c => (e.atPath path c).map fun r => (.element name as (cs.set i r.1), r.2)
  | _ :: _, _ => .error .noChildren

end Edit
end SafeMarkup
