import SafeMarkup.Configuration.Session
import SafeMarkup.Template.Trace
/-!
# Publication

One configuration can be published, once and for all, and is then used by everyone.  Publishing again keeps the one that
is there; asking the published configuration for anything before there is one publishes the empty one, without a word.
Escaping a text and rendering a template need no configuration and publish none.
-/
namespace SafeMarkup

/-- The place for the published configuration, and what has been reported. -/
structure Publication where
  published : Option Configuration
  events : List Event

namespace Publication

/-- What can be asked for once there is a place to publish. -/
inductive Request where
  | publish (c : Configuration)
  | published
  | configuration
  | ask (r : SafeMarkup.Request Sanitizer)
  | escape (raw : Text)
  | render (nonce : Text) (values : List Interpolation) (segments : List Text)

inductive Answer where
  /-- The published configuration, and whether it was published before. -/
  | kept (before : Bool) (c : Configuration)
  | published (c : Option Configuration)
  | answer (a : SafeMarkup.Answer)

def empty : Publication := ⟨none, []⟩

def note (p : Publication) (es : List Event) : Publication := { p with events := p.events ++ es }

/-- The published configuration, which is the empty one if nobody has published another. -/
def configuration (p : Publication) : Configuration := p.published.getD .empty

/-- Publishes a configuration unless there is one. -/
def publish (c : Configuration) (p : Publication) : Answer × Publication :=
  match p.published with
  | some before => (.kept true before, p.note [.publishedBefore])
  | none => (.kept false c, ⟨some c, p.events ++ [.published c.status]⟩)

/-- Answers one request; sanitizers may call each other `depth` calls deep. -/
def perform (depth : Nat) (r : Request) (p : Publication) : Option (Answer × Publication) :=
  match r with
  | .publish c => some (p.publish c)
  | .published => some (.published p.published, p)
  | .configuration => some (.published p.configuration, { p with published := p.configuration })
  | .ask r =>
    (Session.ask depth r ⟨p.configuration, p.events⟩).map fun a =>
      (.answer a.1, ⟨some a.2.configuration, a.2.events⟩)
  | .escape raw => some (.answer (.markup (Trusted.escape raw)), p)
  | .render nonce values segments =>
    let a := match Template.render nonce values segments with
      | .ok m => .markup m
      | .error why => .refused why
    some (.answer a, p.note (Template.events nonce values segments))

end Publication
end SafeMarkup
