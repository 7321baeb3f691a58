import SafeMarkup.Event
import SafeMarkup.Trusted
import SafeMarkup.Refusal
/-!
# Requests, answers and routines

A configuration is used through requests, and gives an answer to each.  A sanitizer turns a text into markup by a
routine: it may ask the configuration it is registered in for anything in between, to register sanitizers and to freeze
included, and it knows the answers before it goes on.
-/
namespace SafeMarkup

/-- What a configuration can be asked for, with sanitizers of type `σ`. -/
inductive Request (σ : Type) where
  | register (id : Text) (sanitizer : σ)
  | setGate (allowed : Bool)
  | freeze
  | has (id : Text)
  | ids
  | isFrozen
  | allowsUnsafe
  /-- Markup from a sanitizer, the default one if there is no id. -/
  | sanitize (id : Option Text) (raw : Text)
  /-- Markup that nobody has checked. -/
  | create (raw : Text)

inductive Answer where
  | done
  | refused (why : Refusal)
  | flag (b : Bool)
  | ids (ids : List Text)
  | markup (m : Trusted)

/-- What a sanitizer does with one text. -/
inductive Routine where
  | done (markup : Text)
  | note (events : List Event) (next : Routine)
  | ask (r : Request (Text → Routine)) (next : Answer → Routine)

abbrev Sanitizer := Text → Routine

end SafeMarkup
