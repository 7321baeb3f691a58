import SafeMarkup.Configuration.Status
import SafeMarkup.Markup.TokenStream
import SafeMarkup.Markup.Node.Fragment
/-!
# Events

What the library reports about its own work.  An event is a fact; `level`, `target` and `message` say how a record of
it is worded.
-/
namespace SafeMarkup

inductive Event where
  | tokenRead (t : Token Nat)
  | strayEndTag (name : Text)
  | filledAsText (index : Nat)
  | filledAsMarkup (index : Nat)
  | markupRefused (index : Nat)
  | markersLeft (count : Nat)
  | sanitizerRegistered (id : Text) (replaced : Bool)
  | gateSet (allowed : Bool)
  | frozenBefore
  | frozen (sanitizers : Nat) (allowed : Bool)
  | gateRefused
  | gatePassed (bytes : Nat)
  | published (status : Status)
  | publishedBefore

namespace Event

inductive Level where
  | trace
  | debug
  | warn

def Level.name : Level → Text
  | .trace => "TRACE".toList
  | .debug => "DEBUG".toList
  | .warn => "WARN".toList

def level : Event → Level
  | tokenRead _ | strayEndTag _ | filledAsText _ | filledAsMarkup _ => .trace
  | gateRefused | gatePassed _ => .warn
  | _ => .debug

/-- The part of the library that an event comes from. -/
def target : Event → Text
  | tokenRead _ => "html.tokenizer".toList
  | strayEndTag _ => "html.tree_builder".toList
  | filledAsText _ | filledAsMarkup _ | markupRefused _ | markersLeft _ => "trusted_html.template".toList
  | published _ | publishedBefore => "trusted_markup.global".toList
  | _ => "trusted_html.config".toList

/-! ## Wording -/

def describeName (i : Nat) : Text := "AtomId(".toList ++ Text.decimal i ++ [')']

def describeValue : Option Text → Text
  | none => "None".toList
  | some v => "Some(".toList ++ Text.quoted v ++ [')']

def describeAttribute (a : Attribute Nat) : Text :=
  '(' :: describeName a.name ++ ", ".toList ++ describeValue a.value ++ [')']

def describeToken : Token Nat → Text
  | .doctype t => "Doctype(".toList ++ Text.quoted t ++ [')']
  | .comment t => "Comment(".toList ++ Text.quoted t ++ [')']
  | .text t => "Text(".toList ++ Text.quoted t ++ [')']
  | .endTag name => "EndTag(".toList ++ describeName name ++ [')']
  | .startTag name as selfClosing =>
    "StartTag \x7b name: ".toList ++ describeName name
      ++ ", attributes: ".toList ++ Text.bracketed (as.map describeAttribute)
      ++ ", self_closing: ".toList ++ Text.ofBool selfClosing ++ " \x7d".toList

def message : Event → Text
  | tokenRead t => "emit token: ".toList ++ describeToken t
  | strayEndTag name => "ignoring stray end tag </".toList ++ name ++ ['>']
  | filledAsText i => "text substitution for interpolation ".toList ++ Text.decimal i
  | filledAsMarkup i => "markup substitution for interpolation ".toList ++ Text.decimal i
  | markupRefused i => "rejecting untrusted markup interpolation ".toList ++ Text.decimal i
  | markersLeft n => Text.decimal n ++ " marker(s) left unresolved in comments or attribute names".toList
  | sanitizerRegistered id replaced =>
    "registered sanitizer ".toList ++ Text.quoted id ++ " (replaced: ".toList ++ Text.ofBool replaced ++ [')']
  | gateSet allowed => "unsafely_create allowed: ".toList ++ Text.ofBool allowed
  | frozenBefore => "configuration already frozen".toList
  | frozen n allowed =>
    "configuration frozen with ".toList ++ Text.decimal n
      ++ " sanitizer(s), unsafely_create allowed: ".toList ++ Text.ofBool allowed
  | gateRefused => "unsafely_create refused: gate is closed".toList
  | gatePassed n => "unsafely_create bypassed validation for ".toList ++ Text.decimal n ++ " bytes".toList
  | published s => "published configuration: ".toList ++ s.describe
  | publishedBefore => "configuration already published; keeping it".toList

/-! ## Reading markup -/

/-- The events of reading the tokens of a text. -/
def reading (t : Text) : List Event := (TokenStream.read t).tokens.map tokenRead

/-- The events of building the tree of some tokens. -/
def building (ts : List (Token Text)) : List Event := (Fragment.empty.strays ts).map strayEndTag

/-- The events of `Node.parse`. -/
def parsing (t : Text) : List Event := reading t ++ building (tokens t)

end Event
end SafeMarkup
