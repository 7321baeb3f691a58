import SafeMarkup.Configuration.Basic
/-!
# Configurations at work

A session is a configuration together with what has been reported.  `perform` answers one request; a sanitizer's
routine is run request by request on the same session, so that what it changes holds from then on, while the routine
itself goes on as it began.  Sanitizers may ask for sanitizers, and so for themselves: runs are bounded by how deep such
calls may go, and have no result beyond.
-/
namespace SafeMarkup

structure Session where
  configuration : Configuration
  events : List Event

namespace Session

def note (s : Session) (es : List Event) : Session := { s with events := s.events ++ es }

/-- The session with another configuration and one more event. -/
def become (s : Session) (c : Configuration) (e : Event) : Session := ⟨c, s.events ++ [e]⟩

/-- Answers one request; `call` runs a sanitizer. -/
def perform (call : Sanitizer → Text → Session → Option (Text × Session)) (r : Request Sanitizer) (s : Session) :
    Option (Answer × Session) :=
  let c := s.configuration
  match r with
  | .register id f =>
    some <| if c.frozen then (.refused .configurationFrozen, s)
    else (.done, s.become (c.register id f) (.sanitizerRegistered id (c.has id)))
  | .setGate allowed =>
    some <| if c.frozen then (.refused .configurationFrozen, s)
    else (.done, s.become { c with allowsUnsafe := allowed } (.gateSet allowed))
  | .freeze => some (.done, s.become c.freeze c.freezeEvent)
  | .has id => some (.flag (c.has id), s)
  | .ids => some (.ids c.registry.ids, s)
  | .isFrozen => some (.flag c.frozen, s)
  | .allowsUnsafe => some (.flag c.allowsUnsafe, s)
  | .sanitize id? raw =>
    let id := id?.getD Configuration.defaultId
    match c.registry.find? id with
    | none => some (.refused (.unknownSanitizer id), s)
    | some f => (call f raw s).map fun r => (.markup ⟨r.1⟩, r.2)
  | .create raw =>
    some <| if c.allowsUnsafe then (.markup ⟨raw⟩, s.note [.gatePassed (Text.byteLength raw)])
    else (.refused .gateClosed, s.note [.gateRefused])

/-- Runs a routine to its end. -/
def runRoutine (call : Sanitizer → Text → Session → Option (Text × Session)) :
    Routine → Session → Option (Text × Session)
  | .done markup, s => some (markup, s)
  | .note es next, s => runRoutine call next (s.note es)
  | .ask r next, s => (perform call r s).bind fun a => runRoutine call (next a.1) a.2

/-- Runs a sanitizer with at most `depth` calls below each other. -/
def call : Nat → Sanitizer → Text → Session → Option (Text × Session)
  | 0, _, _, _ => none
  | depth + 1, f, raw, s => runRoutine (call depth) (f raw) s

/-- The answer to one request. -/
def ask (depth : Nat) (r : Request Sanitizer) (s : Session) : Option (Answer × Session) := perform (call depth) r s

/-- The answers to a sequence of requests. -/
def askAll (depth : Nat) : List (Request Sanitizer) → Session → Option (List Answer × Session)
  | [], s => some ([], s)
  | r :: rs, s => do
    let a ← ask depth r s
    let as ← askAll depth rs a.2
    return (a.1 :: as.1, as.2)

end Session
end SafeMarkup
