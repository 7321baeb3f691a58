import SafeMarkup.Template.Nested
import SafeMarkup.Event
/-!
# What rendering reports

The events of rendering a template, in the order of the work: reading the joined segments, then one event for every
marker that is replaced, with the events of reading again what an element holds.  A refusal is the last event.
-/
namespace SafeMarkup
namespace Template

variable (nonce : Text) (values : List Interpolation)

def fillEvents (t : Text) : List Event := (Marker.indexes nonce t).map .filledAsText

def attributeEvents (as : List (Attribute Text)) : List Event :=
  as.flatMap fun a => fillEvents nonce (a.value.getD [])

def spliceEvent? (i : Nat) : Option Event :=
  values[i]?.map fun
    | .trusted _ => .filledAsMarkup i
    | .text _ => .markupRefused i

/-- The events of replacing an element's children, whose markup is `t`, by markup. -/
def contentEvents (name t : Text) : List Event :=
  (Marker.indexes nonce t).filterMap (spliceEvent? values) ++
    match splice nonce values t with
    | .ok t => if Element.isRawText name then [] else Event.parsing t
    | .error _ => []

mutual

/-- The events of `resolve`, as if nothing were refused. -/
def nodeEvents : Node → List Event
  | .element name as cs =>
    if isSlot nonce cs then
      contentEvents nonce values name (Node.writeAll (Element.isRawText name) cs) ++ attributeEvents nonce as
    else attributeEvents nonce as ++ nodeEventsAll cs
  | .text t => fillEvents nonce t
  | .comment _ => []

def nodeEventsAll : List Node → List Event
  | [] => []
  | n :: ns => nodeEvents n ++ nodeEventsAll ns

end

/-- The events up to the first refusal. -/
def upToRefusal : List Event → List Event
  | [] => []
  | .markupRefused i :: _ => [.markupRefused i]
  | e :: es => e :: upToRefusal es

def leftEvents (n : Node) : List Event :=
  let count := markersLeft nonce n
  if count = 0 then [] else [.markersLeft count]

/-- The events of `render`. -/
def events (segments : List Text) : List Event :=
  if segments.length ≠ values.length + 1 || values.isEmpty then []
  else
    let root := tree nonce segments
    Event.parsing (join nonce 0 segments) ++ upToRefusal (nodeEvents nonce values root) ++
      match resolve nonce values root with
      | .ok n => leftEvents nonce n
      | .error _ => []

namespace Nested

mutual

/-- The events of `Nested.eval`. -/
def events : Nested → List Event
  | value _ => []
  | template nonce segments arguments =>
    eventsAll arguments ++
      match evalAll arguments with
      | .ok values => Template.events nonce values segments
      | .error _ => []

def eventsAll : List Nested → List Event
  | [] => []
  | a :: as =>
    events a ++
      match eval a with
      | .ok _ => eventsAll as
      | .error _ => []

end

end Nested
end Template
end SafeMarkup
